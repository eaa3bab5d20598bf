import Okm6ullOta.EfuseMap

/-!
# The efuse as a log of packets

What the fuses hold when they hold a log of packets: the map reader lays the packets over
the blank map in their order, and the size scan finds the end of the log from every
boundary it may start at, by three tries and a restart where it is not the last one.
-/
namespace Okm6ullOta.EfuseLog
open RecordLogs EfuseMap

/-- A packet which a header can name and which enables a word. -/
structure Packet where
  offset : BitVec 8
  wordEn : BitVec 8
  data : Bytes
  offset_lt : offset.toNat < efuseMaxSection
  wordEn_lt : wordEn.toNat < 15

namespace Packet

/-- The header of one byte. -/
def shortHeader (offset wordEn : BitVec 8) : BitVec 8 := ((offset <<< 4) &&& 0xF0) ||| wordEn

/-- The first byte of an extended header. -/
def longHeader (offset : BitVec 8) : BitVec 8 := ((offset &&& 0x07) <<< 5) ||| 0x0F

/-- The second one. -/
def longHeaderExt (offset wordEn : BitVec 8) : BitVec 8 := ((offset &&& 0x78) <<< 1) ||| wordEn

/-- The bytes which `hal_EfusePgPacketWriteHeader` writes. -/
def headerBytes (offset wordEn : BitVec 8) : List (BitVec 8) :=
  if offset.toNat ≥ efuseMaxSectionBase then [longHeader offset, longHeaderExt offset wordEn]
  else [shortHeader offset wordEn]

/-- The bytes of a word, when it is enabled. -/
def word (wordEn : BitVec 8) (data : Bytes) (i : ℕ) : List (BitVec 8) :=
  if enabled wordEn i then [data (2 * i), data (2 * i + 1)] else []

def words (wordEn : BitVec 8) (data : Bytes) (n : ℕ) : List (BitVec 8) :=
  (List.range n).flatMap (word wordEn data)

def encode (p : Packet) : List (BitVec 8) :=
  headerBytes p.offset p.wordEn ++ words p.wordEn p.data efuseMaxWordUnit

/-- What a packet makes of a map. -/
def lay (p : Packet) (map : Bytes) : Bytes := fun x =>
  if x / 8 = p.offset.toNat ∧ enabled p.wordEn (x % 8 / 2) then p.data (x % 8) else map x

variable {p : Packet} {m data : Bytes} {wordEn : BitVec 8} {a : ℕ}

theorem short_headers : ∀ o < 16, ∀ w < 15,
    let h := shortHeader (BitVec.ofNat 8 o) (BitVec.ofNat 8 w)
    h ≠ 0xFF ∧ extHeader h = false ∧ (h >>> 4) &&& 0x0F = BitVec.ofNat 8 o ∧
      h &&& 0x0F = BitVec.ofNat 8 w := by
  decide +kernel

theorem short_header (ho : p.offset.toNat < 16) :
    shortHeader p.offset p.wordEn ≠ 0xFF ∧ extHeader (shortHeader p.offset p.wordEn) = false ∧
      (shortHeader p.offset p.wordEn >>> 4) &&& 0x0F = p.offset ∧
      shortHeader p.offset p.wordEn &&& 0x0F = p.wordEn := by
  have h := short_headers p.offset.toNat ho p.wordEn.toNat p.wordEn_lt
  rwa [BitVec.ofNat_toNat, BitVec.setWidth_eq, BitVec.ofNat_toNat, BitVec.setWidth_eq] at h

theorem long_headers : ∀ o < 64, ∀ w < 15,
    let h := longHeader (BitVec.ofNat 8 o)
    let e := longHeaderExt (BitVec.ofNat 8 o) (BitVec.ofNat 8 w)
    h ≠ 0xFF ∧ e ≠ 0xFF ∧ extHeader h = true ∧ allWordsDisabled e = false ∧
      getHdrOffset20 h ||| ((e &&& 0xF0) >>> 1) = BitVec.ofNat 8 o ∧
      e &&& 0x0F = BitVec.ofNat 8 w := by
  decide +kernel

theorem long_header (p : Packet) :
    longHeader p.offset ≠ 0xFF ∧ longHeaderExt p.offset p.wordEn ≠ 0xFF ∧
      extHeader (longHeader p.offset) = true ∧
      allWordsDisabled (longHeaderExt p.offset p.wordEn) = false ∧
      getHdrOffset20 (longHeader p.offset) |||
        ((longHeaderExt p.offset p.wordEn &&& 0xF0) >>> 1) = p.offset ∧
      longHeaderExt p.offset p.wordEn &&& 0x0F = p.wordEn := by
  have h := long_headers p.offset.toNat p.offset_lt p.wordEn.toNat p.wordEn_lt
  rwa [BitVec.ofNat_toNat, BitVec.setWidth_eq, BitVec.ofNat_toNat, BitVec.setWidth_eq] at h

/-- Reading a header takes back what writing it put down. -/
theorem header_stored (h : Stores m a (headerBytes p.offset p.wordEn)) :
    m a ≠ 0xFF ∧
      header m a = .packet p.offset p.wordEn (a + (headerBytes p.offset p.wordEn).length) := by
  have hlen : efuseMaxSectionBase = 16 := rfl
  unfold headerBytes at h ⊢
  split_ifs at h ⊢ with hs
  · obtain ⟨h₁, -, h₃, h₄, h₅, h₆⟩ := p.long_header
    rw [stores_cons, stores_cons] at h
    obtain ⟨ha, ha', -⟩ := h
    refine ⟨ha ▸ h₁, ?_⟩
    rw [header, ha, ha', if_neg h₁, if_pos h₃, h₄, if_neg Bool.false_ne_true, h₅, h₆]
    rfl
  · obtain ⟨h₁, h₂, h₃, h₄⟩ := short_header (p := p) (by omega)
    rw [stores_cons] at h
    refine ⟨h.1 ▸ h₁, ?_⟩
    rw [header, h.1, if_neg h₁, h₂, if_neg Bool.false_ne_true, h₃, h₄]
    rfl

theorem words_succ (n : ℕ) :
    words wordEn data (n + 1) = words wordEn data n ++ word wordEn data n := by
  rw [words, List.range_succ, List.flatMap_append, List.flatMap_singleton]
  rfl

theorem length_words (n : ℕ) : (words wordEn data n).length = room wordEn n := by
  induction n with
  | zero => rfl
  | succ n ih =>
    rw [words_succ, List.length_append, ih, room, word]
    cases enabled wordEn n <;> simp

theorem words_stored {n i j : ℕ} (h : Stores m a (words wordEn data n)) (hi : i < n)
    (he : enabled wordEn i = true) (hj : j < 2) : m (a + room wordEn i + j) = data (2 * i + j) := by
  induction n with
  | zero => exact absurd hi (Nat.not_lt_zero _)
  | succ n ih =>
    rw [words_succ, stores_append, length_words] at h
    rcases Nat.lt_or_ge i n with hn | hn
    · exact ih h.1 hn
    · obtain rfl : i = n := by omega
      have h₂ := h.2
      rw [word, if_pos he, stores_cons, stores_cons] at h₂
      rcases (by omega : j = 0 ∨ j = 1) with rfl | rfl
      · exact h₂.1
      · exact h₂.2.1

theorem length_encode :
    p.encode.length =
      (headerBytes p.offset p.wordEn).length + efuseCalculateWordCnts p.wordEn * 2 := by
  rw [encode, List.length_append, length_words, room_four]

theorem length_headerBytes : (headerBytes p.offset p.wordEn).length =
    if p.offset.toNat ≥ efuseMaxSectionBase then 2 else 1 := by
  unfold headerBytes
  split_ifs <;> rfl

theorem length_encode_le : p.encode.length ≤ 10 := by
  have hw : efuseCalculateWordCnts p.wordEn ≤ 4 := by
    unfold efuseCalculateWordCnts
    have hb := fun i => Bool.toNat_le (enabled p.wordEn i)
    have h₀ := hb 0
    have h₁ := hb 1
    have h₂ := hb 2
    have h₃ := hb 3
    omega
  rw [length_encode, length_headerBytes]
  split_ifs <;> omega

theorem length_encode_pos : 0 < p.encode.length := by
  rw [length_encode, length_headerBytes]
  split_ifs <;> omega

/-- The words of a stored packet, read into its section of a map. -/
theorem readWords_stored {b : ℕ} (tbl : Bytes)
    (h : Stores m b (words p.wordEn p.data efuseMaxWordUnit)) :
    readWords m p.wordEn (p.offset.toNat * pgpktDataSize) b tbl =
      (b + efuseCalculateWordCnts p.wordEn * 2, p.lay tbl) := by
  rw [readWords_eq]
  simp only [Prod.mk.injEq, true_and]
  funext x
  have hpg : pgpktDataSize = 8 := rfl
  rw [hpg, lay]
  by_cases hx : x / 8 = p.offset.toNat ∧ enabled p.wordEn (x % 8 / 2) = true
  · have hsub : x - p.offset.toNat * 8 = x % 8 := by omega
    rw [if_pos ⟨by omega, by omega, by rw [hsub]; exact hx.2⟩, if_pos hx, hsub]
    have hi : x % 8 / 2 < efuseMaxWordUnit := by
      have : efuseMaxWordUnit = 4 := rfl
      omega
    rw [words_stored h hi hx.2 (Nat.mod_lt _ (by decide))]
    congr 1
    omega
  · rw [if_neg hx, if_neg]
    rintro ⟨h₁, h₂, h₃⟩
    refine hx ⟨by omega, ?_⟩
    rw [show x % 8 = x - p.offset.toNat * 8 by omega]
    exact h₃

end Packet

open Packet

/-- The fuses hold this log. -/
abbrev Holds (m : Bytes) (log : List Packet) : Prop :=
  RecordLogs.Holds Packet.encode (0xFF : BitVec 8) efuseRealContentLen m log

abbrev used (log : List Packet) : ℕ := RecordLogs.used Packet.encode log

abbrev Boundary (log : List Packet) (a : ℕ) : Prop := RecordLogs.Boundary Packet.encode log a

/-- The map with the packets laid over it in their order. -/
def laid (log : List Packet) (map : Bytes) : Bytes := log.foldl (fun map p => p.lay map) map

variable {m : Bytes} {log pre post : List Packet} {p : Packet}

theorem length_le_used (log : List Packet) : log.length ≤ used log := by
  induction log with
  | nil => exact Nat.le_refl _
  | cons p log ih =>
    have hp := p.length_encode_pos
    have hu : used (p :: log) = p.encode.length + used log := by
      simp [used, RecordLogs.used]
    rw [hu, List.length_cons]
    omega

theorem record_header (h : Holds m (pre ++ p :: post)) :
    m (used pre) ≠ 0xFF ∧ header m (used pre) =
      .packet p.offset p.wordEn (used pre + (headerBytes p.offset p.wordEn).length) := by
  have hr := h.record
  rw [encode, stores_append] at hr
  exact header_stored hr.1

theorem record_words (h : Holds m (pre ++ p :: post)) :
    Stores m (used pre + (headerBytes p.offset p.wordEn).length)
      (words p.wordEn p.data efuseMaxWordUnit) := by
  have hr := h.record
  rw [encode, stores_append] at hr
  exact hr.2

theorem used_lt (hu : used (pre ++ p :: post) < efuseRealContentLen) :
    used pre < efuseRealContentLen := by
  rw [used, RecordLogs.used_append] at hu
  exact Nat.lt_of_le_of_lt (Nat.le_add_right ..) hu

theorem used_next : used (pre ++ [p]) = used pre + (headerBytes p.offset p.wordEn).length +
    efuseCalculateWordCnts p.wordEn * 2 := by
  rw [used, RecordLogs.used_snoc, length_encode]
  exact (Nat.add_assoc ..).symm

theorem readTurn_record (tbl : Bytes) (h : Holds m (pre ++ p :: post))
    (hu : used (pre ++ p :: post) < efuseRealContentLen) :
    readTurn m (used pre) tbl = .go (used (pre ++ [p])) (p.lay tbl) := by
  rw [readTurn, if_pos (used_lt hu), (record_header h).2]
  simp only [if_pos p.offset_lt]
  rw [readWords_stored tbl (record_words h), used_next]

/-- The map reader over a log. -/
theorem efuseTable_log (h : Holds m log) (hu : used log < efuseRealContentLen) :
    efuseTable m = (used log + 1, laid log fun _ => 0xFF) := by
  have hlen : efuseRealContentLen = 512 := rfl
  have ht : efuseTurns = 1040 := rfl
  have hl := length_le_used log
  have hw : walk (readTurn m) (log.length + (efuseTurns - log.length)) (used []) (fun _ => 0xFF) =
      walk (readTurn m) (efuseTurns - log.length) (used log) (laid log fun _ => 0xFF) :=
    walk_records (P := fun _ => True) _ [] log trivial (fun _ _ _ => trivial)
      fun pre p post s _ he => by
        rw [List.nil_append] at he
        subst he
        exact readTurn_record s h hu
  rw [Nat.add_sub_of_le (by omega)] at hw
  rw [efuseTable, show (0 : ℕ) = used [] from rfl, hw]
  refine walk_leave ?_ (by omega)
  rw [readTurn, if_pos hu, header, if_pos (h.blank _ (Nat.le_refl _) hu)]

theorem sizeTurn_record {s : Scan} (h : Holds m (pre ++ p :: post))
    (hu : used (pre ++ p :: post) < efuseRealContentLen) (hs : s.startAddr = 0) :
    sizeTurn m (used pre) s = .go (used (pre ++ [p])) s := by
  rw [sizeTurn, if_pos (used_lt hu), if_neg (record_header h).1, if_neg (fun hc => hc.1 hs),
    (record_header h).2, used_next]

theorem sizeTurn_end {s : Scan} (h : Holds m log) (hu : used log < efuseRealContentLen) :
    sizeTurn m (used log) s = .leave (used log) s := by
  rw [sizeTurn, if_pos hu, if_pos (h.blank _ (Nat.le_refl _) hu)]

/-- The size scan from 0. -/
theorem sizeTurn_records (h : Holds m log) (hu : used log < efuseRealContentLen) (count n : ℕ)
    (hn : log.length < n) :
    walk (sizeTurn m) n 0 ⟨0, count⟩ = (used log, ⟨0, count⟩) := by
  have hw : walk (sizeTurn m) (log.length + (n - log.length)) (used []) ⟨0, count⟩ =
      walk (sizeTurn m) (n - log.length) (used log) (log.foldl (fun s _ => s) ⟨0, count⟩) :=
    walk_records (P := fun s => s.startAddr = 0) _ [] log rfl (fun _ _ hs => hs)
      fun pre p post s hs he => by
        rw [List.nil_append] at he
        subst he
        exact sizeTurn_record h hu hs
  rw [Nat.add_sub_of_le (by omega), List.foldl_fixed] at hw
  exact hw.trans (walk_leave (sizeTurn_end h hu) (by omega))

/-- From a start address other than 0 at which a packet begins, the scan tries three times
and begins again at 0. -/
theorem sizeTurn_restart (h : Holds m (pre ++ p :: post))
    (hu : used (pre ++ p :: post) < efuseRealContentLen) (h0 : used pre ≠ 0) (n : ℕ) :
    walk (sizeTurn m) (n + 3) (used pre) ⟨used pre, 0⟩ = walk (sizeTurn m) n 0 ⟨0, 3⟩ := by
  have hstep : ∀ c, sizeTurn m (used pre) ⟨used pre, c⟩ =
      if c + 1 < 4 then
        if c + 1 > 2 then .go 0 ⟨0, c + 1⟩ else .go (used pre) ⟨used pre, c + 1⟩
      else .leave (used pre) ⟨used pre, c + 1⟩ := fun c => by
    rw [sizeTurn, if_pos (used_lt hu), if_neg (record_header h).1]
    exact if_pos ⟨h0, rfl⟩
  have h₁ : sizeTurn m (used pre) ⟨used pre, 0⟩ = .go (used pre) ⟨used pre, 1⟩ := hstep 0
  have h₂ : sizeTurn m (used pre) ⟨used pre, 1⟩ = .go (used pre) ⟨used pre, 2⟩ := hstep 1
  have h₃ : sizeTurn m (used pre) ⟨used pre, 2⟩ = .go 0 ⟨0, 3⟩ := hstep 2
  simp only [walk, h₁, h₂, h₃]

/-- The size scan finds the end of the log, whichever boundary it is told to start at. -/
theorem size_log {efuseBytes : ℕ} (h : Holds m log) (hu : used log < efuseRealContentLen)
    (hb : Boundary log efuseBytes) :
    halEfuseGetCurrentSizeWifi m efuseBytes = (used log, used log) := by
  have hlen : efuseRealContentLen = 512 := rfl
  have ht : efuseTurns = 1040 := rfl
  have hl := length_le_used log
  obtain ⟨pre, post, hlog, rfl⟩ := hb
  have hw : ∃ s : Scan, s.count < 4 ∧
      walk (sizeTurn m) efuseTurns (used pre) ⟨used pre, 0⟩ = (used log, s) := by
    by_cases h0 : used pre = 0
    · rw [h0]
      exact ⟨⟨0, 0⟩, by decide, sizeTurn_records h hu 0 efuseTurns (by omega)⟩
    · cases post with
      | nil =>
        rw [List.append_nil] at hlog
        subst hlog
        exact ⟨⟨used log, 0⟩, by simp, walk_leave (sizeTurn_end h hu) (by omega)⟩
      | cons p post =>
        rw [hlog] at h hu hl ⊢
        refine ⟨⟨0, 3⟩, by decide, ?_⟩
        rw [show efuseTurns = 1037 + 3 from rfl, sizeTurn_restart h hu h0]
        exact sizeTurn_records h hu 3 1037 (by omega)
  obtain ⟨s, hc, hw⟩ := hw
  simp only [halEfuseGetCurrentSizeWifi]
  rw [show RecordLogs.used encode pre = used pre from rfl, hw]
  exact if_pos hc

end Okm6ullOta.EfuseLog
