import Okm6ullOta.EfuseLog
import Okm6ullOta.LabelledRuns

/-!
# Writing packets to the efuse

A write burns the header of a packet behind the log, byte by byte, reads each byte back
and tries again while it is still blank, and then burns the words and reads them back.
What a burn leaves in a cell is open: a parameter gives it for every burn, and the driver
ignores what the burn itself reports.
-/
namespace Okm6ullOta.EfuseWrite
open RecordLogs (Stores stores_nil stores_cons stores_append)
open LabelledRuns EfuseMap EfuseLog EfuseLog.Packet

structure Chip where
  fuses : Bytes
  /-- HW_VAR_EFUSE_BYTES -/
  efuseBytes : ℕ
  /-- How many burns there were. -/
  burns : ℕ

/-- What a burn leaves in a cell, by the number of burns before it, what the cell held and
the byte. -/
abbrev Burn := ℕ → BitVec 8 → BitVec 8 → BitVec 8

/-- A blank cell takes every byte. -/
def Takes (burn : Burn) : Prop := ∀ t d, burn t 0xFF d = d

def efuseRepeatThreshold : ℕ := 3

section
variable (burn : Burn)

def efuseOneByteWrite (c : Chip) (addr : ℕ) (data : BitVec 8) : Chip where
  fuses := Function.update c.fuses addr (burn c.burns (c.fuses addr) data)
  efuseBytes := c.efuseBytes
  burns := c.burns + 1

def efuseGetCurrentSize (c : Chip) : ℕ × Chip :=
  let r := halEfuseGetCurrentSizeWifi c.fuses c.efuseBytes
  (r.1, { c with efuseBytes := r.2 })

def halEfusePgCheckAvailableAddr (c : Chip) : Bool × Chip :=
  let r := efuseGetCurrentSize c
  (r.1 < availableEfuseBytes, r.2)

/-- The data of the packet `hal_EfuseConstructPGPkt` builds. -/
def halEfuseConstructPGPkt (wordEn : BitVec 8) (pData : Bytes) : Bytes := fun i =>
  if i < pgpktDataSize ∧ enabled wordEn (i / 2) then pData i else 0xFF

def halEfusePartialWriteCheck (c : Chip) : Option ℕ :=
  let startAddr := c.efuseBytes % efuseRealContentLen
  if startAddr ≥ availableEfuseBytes then none
  else if c.fuses startAddr ≠ 0xFF then none
  else some startAddr

/-- What the loop over one byte of a header leaves. -/
structure HeaderByte where
  written : Bool
  tries : ℕ
  chip : Chip

/-- The loop which burns one byte of a header. The tries count what `repeatcnt` still
allows, the current one included. -/
def writeHeaderByte (addr : ℕ) (pgHeader : BitVec 8) : ℕ → Chip → HeaderByte
  | 0, c => ⟨false, 0, c⟩
  | tries + 1, c =>
    let c' := efuseOneByteWrite burn c addr pgHeader
    if c'.fuses addr ≠ 0xFF then ⟨c'.fuses addr == pgHeader, tries + 1, c'⟩
    else writeHeaderByte addr pgHeader tries c'

/-- `repeatcnt++ > EFUSE_REPEAT_THRESHOLD_` ends the loop after this many burns. -/
def headerTries : ℕ := efuseRepeatThreshold + 2

/-- The address of the last byte of the header, when it is written. -/
def pgPacketWrite1ByteHeader (addr : ℕ) (offset wordEn : BitVec 8) (c : Chip) : Option ℕ × Chip :=
  let r := writeHeaderByte burn addr (shortHeader offset wordEn) headerTries c
  if r.written then (some addr, r.chip) else (none, r.chip)

def pgPacketWrite2ByteHeader (addr : ℕ) (offset wordEn : BitVec 8) (c : Chip) : Option ℕ × Chip :=
  if addr ≥ availableEfuseBytes then (none, c)
  else
    let r := writeHeaderByte burn addr (longHeader offset) headerTries c
    if r.written then
      -- `repeatcnt` goes on from the first byte
      let r' := writeHeaderByte burn (addr + 1) (longHeaderExt offset wordEn) r.tries r.chip
      if r'.written then (some (addr + 1), r'.chip) else (none, r'.chip)
    else (none, r.chip)

def pgPacketWriteHeader (addr : ℕ) (offset wordEn : BitVec 8) (c : Chip) : Option ℕ × Chip :=
  if offset.toNat ≥ efuseMaxSectionBase then pgPacketWrite2ByteHeader burn addr offset wordEn c
  else pgPacketWrite1ByteHeader burn addr offset wordEn c

structure WordWrite where
  startAddr : ℕ
  badworden : BitVec 8
  chip : Chip

/-- One of the four words of `Hal_EfuseWordEnableDataWrite`. -/
def writeWord (wordEn : BitVec 8) (data : Bytes) (s : WordWrite) (i : ℕ) : WordWrite :=
  if enabled wordEn i then
    let c := efuseOneByteWrite burn s.chip s.startAddr (data (2 * i))
    let c := efuseOneByteWrite burn c (s.startAddr + 1) (data (2 * i + 1))
    { startAddr := s.startAddr + 2
      badworden :=
        if data (2 * i) ≠ c.fuses s.startAddr ∨ data (2 * i + 1) ≠ c.fuses (s.startAddr + 1) then
          s.badworden &&& ~~~(1#8 <<< i)
        else s.badworden
      chip := c }
  else s

def halEfuseWordEnableDataWrite (addr : ℕ) (wordEn : BitVec 8) (data : Bytes) (c : Chip) :
    WordWrite :=
  (List.range efuseMaxWordUnit).foldl (writeWord burn wordEn data) ⟨addr, 0x0F, c⟩

def pgPacketWriteData (addr : ℕ) (wordEn : BitVec 8) (data : Bytes) (c : Chip) : Bool × Chip :=
  let r := halEfuseWordEnableDataWrite burn (addr + 1) wordEn data c
  (r.badworden == 0x0F, r.chip)

def halEfusePgPacketWrite (c : Chip) (offset wordEn : BitVec 8) (pData : Bytes) : Bool × Chip :=
  let r := halEfusePgCheckAvailableAddr c
  if r.1 then
    let data := halEfuseConstructPGPkt wordEn pData
    match halEfusePartialWriteCheck r.2 with
    | none => (false, r.2)
    | some startAddr =>
      match pgPacketWriteHeader burn startAddr offset wordEn r.2 with
      | (none, c) => (false, c)
      | (some addr, c) => pgPacketWriteData burn addr wordEn data c
  else (false, r.2)

end

/-- These bytes stand at this address, and nothing else is changed. -/
structure Wrote (a : ℕ) (l : List (BitVec 8)) (c c' : Chip) : Prop where
  stores : Stores c'.fuses a l
  elsewhere : ∀ b, b < a ∨ a + l.length ≤ b → c'.fuses b = c.fuses b
  efuseBytes : c'.efuseBytes = c.efuseBytes

variable {burn : Burn} {a : ℕ} {l l' : List (BitVec 8)} {c c' c'' : Chip} {d : BitVec 8}
  {wordEn : BitVec 8} {data : Bytes} {p : Packet} {log : List Packet}

theorem Wrote.nothing : Wrote a [] c c := ⟨stores_nil, fun _ _ => rfl, rfl⟩

theorem Wrote.append (h : Wrote a l c c') (h' : Wrote (a + l.length) l' c' c'') :
    Wrote a (l ++ l') c c'' where
  stores := stores_append.mpr
    ⟨h.stores.congr fun b _ hb => h'.elsewhere b (.inl hb), h'.stores⟩
  elsewhere := fun b hb => by
    rw [List.length_append] at hb
    rw [h'.elsewhere b (by omega), h.elsewhere b (by omega)]
  efuseBytes := h'.efuseBytes.trans h.efuseBytes

theorem byte_elsewhere {b : ℕ} (h : b ≠ a) : (efuseOneByteWrite burn c a d).fuses b = c.fuses b :=
  Function.update_of_ne h ..

theorem wrote_byte (h : (efuseOneByteWrite burn c a d).fuses a = d) :
    Wrote a [d] c (efuseOneByteWrite burn c a d) where
  stores := stores_cons.mpr ⟨h, stores_nil⟩
  elsewhere := fun b hb => byte_elsewhere (by rw [List.length_singleton] at hb; omega)
  efuseBytes := rfl

theorem taken_byte (ht : Takes burn) (hb : c.fuses a = 0xFF) :
    (efuseOneByteWrite burn c a d).fuses a = d := by
  rw [efuseOneByteWrite]
  simp only [Function.update_self]
  rw [hb, ht]

/-- However often a byte of a header is tried, only its cell changes. -/
theorem wrote_headerByte {tries : ℕ} (h : (writeHeaderByte burn a d tries c).written = true) :
    Wrote a [d] c (writeHeaderByte burn a d tries c).chip := by
  induction tries generalizing c with
  | zero => cases h
  | succ tries ih =>
    rw [writeHeaderByte] at h ⊢
    split_ifs at h ⊢ with hb
    · exact wrote_byte (beq_iff_eq.mp h)
    · have hw := ih h
      refine ⟨hw.stores, fun b hb => ?_, hw.efuseBytes⟩
      rw [hw.elsewhere b hb]
      exact byte_elsewhere (by rw [List.length_singleton] at hb; omega)

/-- A blank cell takes a byte of a header at the first try, which leaves as many. -/
theorem headerByte_takes (ht : Takes burn) (hb : c.fuses a = 0xFF) (hd : d ≠ 0xFF) :
    (writeHeaderByte burn a d headerTries c).written = true ∧
      (writeHeaderByte burn a d headerTries c).tries = headerTries := by
  have hb' := taken_byte (d := d) ht hb
  rw [headerTries, writeHeaderByte, hb', if_pos hd]
  exact ⟨beq_self_eq_true d, rfl⟩

theorem headerByte_burns (burn : Burn) (a : ℕ) (d : BitVec 8) (tries : ℕ) (c : Chip) :
    (writeHeaderByte burn a d tries c).chip.burns + ((writeHeaderByte burn a d tries c).tries - 1) =
      c.burns + tries := by
  induction tries generalizing c with
  | zero => rfl
  | succ tries ih =>
    rw [writeHeaderByte]
    split_ifs
    · exact Nat.add_right_comm c.burns 1 tries
    · rw [ih]
      exact Nat.add_right_comm c.burns 1 tries

/-- The two bytes of a header share their tries. -/
theorem header_burns (addr : ℕ) (offset wordEn : BitVec 8) (c : Chip) :
    (pgPacketWriteHeader burn addr offset wordEn c).2.burns ≤ c.burns + headerTries + 1 := by
  unfold pgPacketWriteHeader
  split_ifs
  · have hfirst := headerByte_burns burn addr (longHeader offset) headerTries c
    have hsecond := headerByte_burns burn (addr + 1) (longHeaderExt offset wordEn)
      (writeHeaderByte burn addr (longHeader offset) headerTries c).tries
      (writeHeaderByte burn addr (longHeader offset) headerTries c).chip
    unfold pgPacketWrite2ByteHeader
    dsimp only
    split_ifs <;> dsimp only <;> omega
  · have hfirst := headerByte_burns burn addr (shortHeader offset wordEn) headerTries c
    unfold pgPacketWrite1ByteHeader
    dsimp only
    split_ifs <;> dsimp only <;> omega

theorem wrote_header {addr : ℕ} {offset : BitVec 8}
    (h : pgPacketWriteHeader burn a offset wordEn c = (some addr, c')) :
    addr + 1 = a + (headerBytes offset wordEn).length ∧
      Wrote a (headerBytes offset wordEn) c c' := by
  unfold pgPacketWriteHeader at h
  unfold headerBytes
  split_ifs at h ⊢
  · unfold pgPacketWrite2ByteHeader at h
    dsimp only at h
    split_ifs at h with ha h₁ h₂
    · cases h
    · obtain ⟨rfl, rfl⟩ := by simpa only [Prod.mk.injEq, Option.some.injEq] using h
      exact ⟨rfl, (wrote_headerByte h₁).append (wrote_headerByte h₂)⟩
    · cases h
    · cases h
  · unfold pgPacketWrite1ByteHeader at h
    dsimp only at h
    split_ifs at h with h₁
    · obtain ⟨rfl, rfl⟩ := by simpa only [Prod.mk.injEq, Option.some.injEq] using h
      exact ⟨rfl, wrote_headerByte h₁⟩
    · cases h

theorem header_takes (ht : Takes burn) (ha : a < availableEfuseBytes) (hb : c.fuses a = 0xFF)
    (hb' : c.fuses (a + 1) = 0xFF) :
    ∃ addr c', pgPacketWriteHeader burn a p.offset p.wordEn c = (some addr, c') := by
  have hsize : efuseMaxSectionBase = 16 := rfl
  unfold pgPacketWriteHeader
  split_ifs with hs
  · have hl := p.long_header
    unfold pgPacketWrite2ByteHeader
    rw [if_neg (by omega)]
    obtain ⟨h₁, htries⟩ := headerByte_takes ht hb hl.1
    have hblank : (writeHeaderByte burn a (longHeader p.offset) headerTries c).chip.fuses (a + 1)
        = 0xFF := by
      rw [(wrote_headerByte h₁).elsewhere (a + 1) (.inr (by simp))]
      exact hb'
    obtain ⟨h₂, -⟩ := headerByte_takes ht hblank hl.2.1
    dsimp only
    rw [if_pos h₁, htries, if_pos h₂]
    exact ⟨_, _, rfl⟩
  · obtain ⟨h₁, -⟩ := headerByte_takes ht hb (short_header (p := p) (by omega)).1
    unfold pgPacketWrite1ByteHeader
    dsimp only
    rw [if_pos h₁]
    exact ⟨_, _, rfl⟩

/-- The bit of a bad word is cleared for good. -/
theorem badword_bit {b : BitVec 8} {i : ℕ} (hi : i < 4) : b &&& ~~~(1#8 <<< i) ≠ 0x0F := by
  intro h
  have hbit := congrArg (fun v => v.getLsbD i) h
  have h₁ : (0x0F : BitVec 8).getLsbD i = true := by
    rcases (by omega : i = 0 ∨ i = 1 ∨ i = 2 ∨ i = 3) with rfl | rfl | rfl | rfl <;> rfl
  simp only [BitVec.getLsbD_and, BitVec.getLsbD_not, BitVec.getLsbD_shiftLeft, h₁] at hbit
  simp at hbit

/-- Two bytes burnt one after the other. -/
theorem wrote_two {d' : BitVec 8}
    (h : d = (efuseOneByteWrite burn (efuseOneByteWrite burn c a d) (a + 1) d').fuses a)
    (h' : d' = (efuseOneByteWrite burn (efuseOneByteWrite burn c a d) (a + 1) d').fuses (a + 1)) :
    Wrote a [d, d'] c (efuseOneByteWrite burn (efuseOneByteWrite burn c a d) (a + 1) d') := by
  have hfirst : (efuseOneByteWrite burn c a d).fuses a = d := by
    rw [byte_elsewhere (Nat.ne_of_lt (Nat.lt_succ_self a))] at h
    exact h.symm
  exact (wrote_byte hfirst).append (wrote_byte h'.symm)

/-- Words without a bad one among them stand where they belong. -/
theorem wrote_words {n : ℕ} (hn : n ≤ 4) {s : WordWrite}
    (h : (List.range n).foldl (writeWord burn wordEn data) ⟨a, 0x0F, c⟩ = s)
    (hb : s.badworden = 0x0F) :
    s.startAddr = a + room wordEn n ∧ Wrote a (words wordEn data n) c s.chip := by
  induction n generalizing s with
  | zero =>
    subst h
    exact ⟨rfl, .nothing⟩
  | succ n ih =>
    rw [List.range_succ, List.foldl_append, List.foldl_cons, List.foldl_nil] at h
    generalize ht : (List.range n).foldl (writeWord burn wordEn data) ⟨a, 0x0F, c⟩ = t at h
    subst h
    rw [words_succ, word, room]
    unfold writeWord at hb ⊢
    cases he : enabled wordEn n with
    | false =>
      simp only [he, Bool.false_eq_true, if_false] at hb ⊢
      obtain ⟨ha, hw⟩ := ih (by omega) ht hb
      exact ⟨ha, by rw [List.append_nil]; exact hw⟩
    | true =>
      simp only [he, if_true] at hb ⊢
      split_ifs at hb with hbad
      · exact absurd hb (badword_bit (by omega))
      · obtain ⟨ha, hw⟩ := ih (by omega) ht hb
        rw [not_or, not_not, not_not] at hbad
        refine ⟨by rw [ha]; rfl, hw.append ?_⟩
        rw [length_words, ← ha]
        exact wrote_two hbad.1 hbad.2

theorem words_take (ht : Takes burn) {n : ℕ} (hn : n ≤ 4)
    (hb : ∀ b, a ≤ b → b < a + room wordEn n → c.fuses b = 0xFF) :
    ((List.range n).foldl (writeWord burn wordEn data) ⟨a, 0x0F, c⟩).badworden = 0x0F := by
  induction n with
  | zero => rfl
  | succ n ih =>
    rw [room] at hb
    have hbad := ih (by omega) fun b h₁ h₂ => hb b h₁ (by omega)
    obtain ⟨ha, hw⟩ := wrote_words (by omega) rfl hbad
    rw [List.range_succ, List.foldl_append, List.foldl_cons, List.foldl_nil]
    generalize (List.range n).foldl (writeWord burn wordEn data) ⟨a, 0x0F, c⟩ = t at hbad ha hw ⊢
    unfold writeWord
    cases he : enabled wordEn n with
    | false => exact hbad
    | true =>
      rw [he, Bool.toNat_true] at hb
      have hblank : ∀ b, t.startAddr ≤ b → b < t.startAddr + 2 → t.chip.fuses b = 0xFF := by
        intro b h₁ h₂
        rw [hw.elsewhere b (.inr (by rw [length_words]; omega))]
        exact hb b (by omega) (by omega)
      have hfirst := taken_byte (d := data (2 * n)) ht (hblank t.startAddr (by omega) (by omega))
      have hsecond : (efuseOneByteWrite burn t.chip t.startAddr (data (2 * n))).fuses
          (t.startAddr + 1) = 0xFF := by
        rw [byte_elsewhere (Nat.succ_ne_self _)]
        exact hblank _ (by omega) (by omega)
      simp only [if_true]
      rw [if_neg]
      · exact hbad
      · rw [not_or, not_not, not_not]
        refine ⟨?_, (taken_byte ht hsecond).symm⟩
        rw [byte_elsewhere (Nat.ne_of_lt (Nat.lt_succ_self _)), hfirst]

/-- The fuses hold this log, and the register of used bytes stands at one of its
boundaries. -/
structure Logged (log : List Packet) (c : Chip) : Prop where
  holds : Holds c.fuses log
  fits : used log < efuseRealContentLen
  boundary : Boundary log c.efuseBytes

/-- A chip which holds a log, before its size was ever looked at. -/
def chipOf (log : List Packet) : Chip := ⟨fun a => (log.flatMap encode).getD a 0xFF, 0, 0⟩

theorem logged_chipOf (h : used log < efuseRealContentLen) : Logged log (chipOf log) :=
  ⟨RecordLogs.holds_getD _ _ _ log, h, RecordLogs.boundary_zero⟩

theorem Logged.size (h : Logged log c) :
    efuseGetCurrentSize c = (used log, { c with efuseBytes := used log }) := by
  rw [efuseGetCurrentSize]
  simp only [size_log h.holds h.fits h.boundary]

theorem Logged.partialWriteCheck (h : Logged log c) (hu : used log < availableEfuseBytes) :
    halEfusePartialWriteCheck { c with efuseBytes := used log } = some (used log) := by
  unfold halEfusePartialWriteCheck
  simp only
  rw [Nat.mod_eq_of_lt h.fits, if_neg (by omega), h.holds.blank _ (Nat.le_refl _) h.fits]
  exact if_neg (fun hc => hc rfl)

/-- The constructed packet has the enabled words of the data it is built from. -/
theorem words_construct {n : ℕ} (hn : n ≤ 4) :
    words wordEn (halEfuseConstructPGPkt wordEn data) n = words wordEn data n := by
  induction n with
  | zero => rfl
  | succ n ih =>
    rw [words_succ, words_succ, ih (by omega)]
    congr 1
    unfold word
    split_ifs with he
    · have hpg : pgpktDataSize = 8 := rfl
      unfold halEfuseConstructPGPkt
      rw [if_pos ⟨by omega, by rw [show 2 * n / 2 = n by omega]; exact he⟩,
        if_pos ⟨by omega, by rw [show (2 * n + 1) / 2 = n by omega]; exact he⟩]
    · rfl

/-- A write which reports success has put the packet behind the log. -/
theorem Logged.written (h : Logged log c)
    (hw : halEfusePgPacketWrite burn c p.offset p.wordEn p.data = (true, c')) :
    used log < availableEfuseBytes ∧
      Wrote (used log) p.encode { c with efuseBytes := used log } c' := by
  unfold halEfusePgPacketWrite halEfusePgCheckAvailableAddr at hw
  rw [h.size] at hw
  simp only [decide_eq_true_eq] at hw
  by_cases hu : used log < availableEfuseBytes
  · rw [if_pos hu, h.partialWriteCheck hu] at hw
    simp only at hw
    rcases hh : pgPacketWriteHeader burn (used log) p.offset p.wordEn
      { c with efuseBytes := used log } with ⟨_ | addr, c₁⟩
    · rw [hh] at hw
      cases hw
    · rw [hh] at hw
      obtain ⟨ha, hw₁⟩ := wrote_header hh
      simp only [pgPacketWriteData, halEfuseWordEnableDataWrite, Prod.mk.injEq, beq_iff_eq] at hw
      rw [ha] at hw
      obtain ⟨hbad, rfl⟩ := hw
      obtain ⟨-, hw₂⟩ := wrote_words (Nat.le_refl 4) rfl hbad
      rw [words_construct (Nat.le_refl 4)] at hw₂
      exact ⟨hu, hw₁.append hw₂⟩
  · rw [if_neg hu] at hw
    cases hw

theorem Logged.after (h : Logged log c)
    (hw : halEfusePgPacketWrite burn c p.offset p.wordEn p.data = (true, c')) :
    Logged (log ++ [p]) c' := by
  obtain ⟨hu, hw⟩ := h.written hw
  have hlen : availableEfuseBytes = 415 := rfl
  have hreal : efuseRealContentLen = 512 := rfl
  have hp := p.length_encode_le
  refine ⟨h.holds.extend hw.stores (fun b hb => hw.elsewhere b (.inl hb))
    fun b hb => hw.elsewhere b (.inr hb), ?_, ?_⟩
  · rw [used, RecordLogs.used_snoc]
    exact Nat.lt_of_lt_of_le (Nat.add_lt_add_of_lt_of_le hu hp) (by omega)
  · rw [hw.efuseBytes]
    exact RecordLogs.boundary_used.append _

/-- When blank cells take what they are told, a write succeeds as long as the log has not
reached the protected bytes. -/
theorem Logged.write_takes (h : Logged log c) (ht : Takes burn)
    (hu : used log < availableEfuseBytes) :
    (halEfusePgPacketWrite burn c p.offset p.wordEn p.data).1 = true := by
  have hlen : availableEfuseBytes = 415 := rfl
  have hreal : efuseRealContentLen = 512 := rfl
  have hp := p.length_encode_le
  have hblank : ∀ b, used log ≤ b → b < used log + 10 → c.fuses b = 0xFF :=
    fun b h₁ h₂ => h.holds.blank b h₁ (by omega)
  unfold halEfusePgPacketWrite halEfusePgCheckAvailableAddr
  rw [h.size]
  simp only [decide_eq_true_eq]
  rw [if_pos hu, h.partialWriteCheck hu]
  obtain ⟨addr, c₁, hh⟩ := header_takes (p := p) (c := { c with efuseBytes := used log }) ht hu
    (hblank _ (Nat.le_refl _) (by omega)) (hblank _ (by omega) (by omega))
  obtain ⟨ha, hw⟩ := wrote_header hh
  simp only [hh, pgPacketWriteData, halEfuseWordEnableDataWrite, beq_iff_eq]
  rw [length_encode] at hp
  rw [ha]
  refine words_take ht (Nat.le_refl 4) fun b h₁ h₂ => ?_
  have hroom := room_four p.wordEn
  rw [hroom] at h₂
  rw [hw.elsewhere b (.inr h₁)]
  exact hblank b (by omega) (by omega)

/-- What is done to the efuse, each with what it reports: a packet write, a read of the
map or a look at the size. -/
inductive Move where
  | write (p : Packet)
  | read (offset size : ℕ) (data : List (BitVec 8))
  | currentSize (n : ℕ)

/-- A step which reports success. -/
inductive Step (burn : Burn) : Chip → Move → Chip → Prop where
  | write {c c' : Chip} {p : Packet}
      (h : halEfusePgPacketWrite burn c p.offset p.wordEn p.data = (true, c')) :
      Step burn c (.write p) c'
  | read {c : Chip} {offset size efuseBytes : ℕ} {data : List (BitVec 8)}
      (h : halReadEfuseWifi c.fuses offset size = some (data, efuseBytes)) :
      Step burn c (.read offset size data) { c with efuseBytes := efuseBytes }
  | currentSize {c c' : Chip} {n : ℕ} (h : efuseGetCurrentSize c = (n, c')) :
      Step burn c (.currentSize n) c'

def Move.packet? : Move → Option Packet
  | .write p => some p
  | .read .. => none
  | .currentSize _ => none

/-- The packets a run has written. -/
def packets (ms : List Move) : List Packet := ms.filterMap Move.packet?

theorem halReadEfuseWifi_log {offset size : ℕ} (h : Logged log c)
    (hs : offset + size ≤ efuseMaxMapLen) :
    halReadEfuseWifi c.fuses offset size =
      some ((List.range size).map fun i => laid log (fun _ => 0xFF) (offset + i), used log) := by
  rw [halReadEfuseWifi, if_neg (by omega), efuseTable_log h.holds h.fits]
  rfl

theorem Logged.step {m : Move} (h : Logged log c) (hs : Step burn c m c') :
    Logged (log ++ packets [m]) c' := by
  cases hs with
  | write hw => exact h.after hw
  | read hr =>
    have hsize : ¬ _ := fun hc => by rw [halReadEfuseWifi, if_pos hc] at hr; cases hr
    rw [halReadEfuseWifi_log h (Nat.le_of_not_lt hsize)] at hr
    simp only [Option.some.injEq, Prod.mk.injEq] at hr
    rw [← hr.2]
    refine (List.append_nil log).symm ▸ ?_
    exact ⟨h.holds, h.fits, RecordLogs.boundary_used⟩
  | currentSize hn =>
    rw [h.size, Prod.mk.injEq] at hn
    rw [← hn.2]
    refine (List.append_nil log).symm ▸ ?_
    exact ⟨h.holds, h.fits, RecordLogs.boundary_used⟩

/-- Along every run the fuses hold the log they held, with the packets written since
behind it. -/
theorem Logged.run {ms : List Move} (h : Logged log c) (run : Run (Step burn) c ms c') :
    Logged (log ++ packets ms) c' := by
  induction run with
  | nil => exact (List.append_nil log).symm ▸ h
  | snoc _ hs ih =>
    rw [packets, List.filterMap_append, ← List.append_assoc]
    exact ih.step hs

/-- What a move reports is right for these packets: a write was made while there was room,
a read gives what the packets make of the blank map, and the size is theirs. -/
def Move.Right (written : List Packet) : Move → Prop
  | .write _ => used written < availableEfuseBytes
  | .read offset size data =>
    data = (List.range size).map fun i => laid written (fun _ => 0xFF) (offset + i)
  | .currentSize n => n = used written

theorem Logged.right {m : Move} (h : Logged log c) (hs : Step burn c m c') : m.Right log := by
  cases hs with
  | write hw => exact (h.written hw).1
  | read hr =>
    have hsize : ¬ _ := fun hc => by rw [halReadEfuseWifi, if_pos hc] at hr; cases hr
    rw [halReadEfuseWifi_log h (Nat.le_of_not_lt hsize), Option.some.injEq, Prod.mk.injEq] at hr
    exact hr.1.symm
  | currentSize hn =>
    rw [h.size, Prod.mk.injEq] at hn
    exact hn.1.symm

/-- Whatever the single burns leave in the cells: along every run of writes, reads and
looks at the size which all report success, every answer is right for the packets of the
log and those written before it. -/
theorem answers_right {ms : List Move} (pre post : List Move) {m : Move} (h : Logged log c)
    (run : Run (Step burn) c ms c') (hms : ms = pre ++ m :: post) :
    m.Right (log ++ packets pre) := by
  induction run generalizing post with
  | nil => simp at hms
  | snoc run hs ih =>
    rcases List.eq_nil_or_concat post with rfl | ⟨post', m', rfl⟩
    · obtain ⟨rfl, hm⟩ := List.append_inj' hms rfl
      rw [← List.singleton_inj.mp hm]
      exact (h.run run).right hs
    · rw [List.concat_eq_append, ← List.cons_append, ← List.append_assoc] at hms
      exact ih post' (List.append_inj' hms rfl).1

/-- In every state which such a run reaches, when blank cells take what they are told, a
packet write reports success exactly while the log ends before the protected bytes, and
from there on it burns nothing. -/
theorem write_succeeds_iff {ms : List Move} (p : Packet) (h : Logged log c) (ht : Takes burn)
    (run : Run (Step burn) c ms c') :
    ((halEfusePgPacketWrite burn c' p.offset p.wordEn p.data).1 = true ↔
        used (log ++ packets ms) < availableEfuseBytes) ∧
      (availableEfuseBytes ≤ used (log ++ packets ms) →
        (halEfusePgPacketWrite burn c' p.offset p.wordEn p.data).2.fuses = c'.fuses) := by
  have hl := h.run run
  refine ⟨⟨fun hw => (hl.written (Prod.ext hw rfl)).1, hl.write_takes ht⟩, fun hu => ?_⟩
  unfold halEfusePgPacketWrite halEfusePgCheckAvailableAddr
  rw [hl.size]
  simp only [decide_eq_true_eq]
  rw [if_neg (by omega)]

def blankChip : Chip := ⟨fun _ => 0xFF, 0, 0⟩

def lateBurn : Burn := fun t old d => if t = 0 then old else d

def macPacket : Packet := ⟨0x23, 0xE, fun i => BitVec.ofNat 8 (0x10 + i), by decide, by decide⟩

theorem logged_blankChip : Logged [] blankChip :=
  ⟨⟨stores_nil, fun _ _ _ => rfl⟩, by decide, RecordLogs.boundary_zero⟩

/-- The chip with the packet written, at the second try of its first byte. -/
def macChip : Chip :=
  (halEfusePgPacketWrite lateBurn blankChip macPacket.offset macPacket.wordEn macPacket.data).2

theorem answers_right_retried :
    (Move.read 0x118 2 [0x10, 0x11]).Right ([] ++ packets [.write macPacket]) := by
  have hwrite : Step lateBurn blankChip (.write macPacket) macChip :=
    .write (Prod.ext (by decide +kernel) rfl)
  have hread : Step lateBurn macChip (.read 0x118 2 [0x10, 0x11])
    ⟨macChip.fuses, 4, macChip.burns⟩ :=
    .read (by decide +kernel)
  exact answers_right [.write macPacket] [] logged_blankChip
    ((Run.single hwrite).append (Run.single hread)) rfl

theorem write_succeeds_iff_second :
    ((halEfusePgPacketWrite (fun _ _ d => d) (halEfusePgPacketWrite (fun _ _ d => d) blankChip
          macPacket.offset macPacket.wordEn macPacket.data).2
        macPacket.offset macPacket.wordEn macPacket.data).1 = true ↔
      used ([] ++ packets [.write macPacket]) < availableEfuseBytes) :=
  (write_succeeds_iff macPacket logged_blankChip (fun _ _ => rfl)
    (Run.single (.write (Prod.ext (by decide +kernel) rfl)))).1

end Okm6ullOta.EfuseWrite
