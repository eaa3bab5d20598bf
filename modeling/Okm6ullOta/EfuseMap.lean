import Okm6ullOta.RecordLogs
import Mathlib.Logic.Function.Basic

/-!
# The Wi-Fi efuse of the RTL8723D

The chip's one-time fuses hold a log of packets. A packet has a header of one or two
bytes, which names a section of eight bytes and the words of it which follow, and then
these words. Three loops of the driver go over the log: the map reader, the reader of a
single section and the size scan. Reads of the fuses are taken to be answered.
-/
namespace Okm6ullOta.EfuseMap
open RecordLogs

/-- What the fuses hold by address, and likewise the efuse table by byte. -/
abbrev Bytes := ℕ → BitVec 8

def efuseRealContentLen : ℕ := 512
def efuseOobProtectBytes : ℕ := 96 + 1
def efuseMaxMapLen : ℕ := 1024
def efuseMapLen : ℕ := 512
def efuseMaxSection : ℕ := 64
def efuseMaxSectionBase : ℕ := 16
def pgpktDataSize : ℕ := 8
def efuseMaxWordUnit : ℕ := 4

/-- TYPE_AVAILABLE_EFUSE_BYTES_TOTAL, and TYPE_AVAILABLE_EFUSE_BYTES_BANK likewise. -/
def availableEfuseBytes : ℕ := efuseRealContentLen - efuseOobProtectBytes

def extHeader (header : BitVec 8) : Bool := header &&& 0x1F == 0x0F

def allWordsDisabled (wde : BitVec 8) : Bool := wde &&& 0x0F == 0x0F

def getHdrOffset20 (header : BitVec 8) : BitVec 8 := (header &&& 0xE0) >>> 5

/-- A clear bit enables a word. -/
def enabled (wordEn : BitVec 8) (i : ℕ) : Bool := !wordEn.getLsbD i

def efuseCalculateWordCnts (wordEn : BitVec 8) : ℕ :=
  (enabled wordEn 0).toNat + (enabled wordEn 1).toNat + (enabled wordEn 2).toNat +
    (enabled wordEn 3).toNat

/-- What the three loops make of the byte at an address. -/
inductive Header where
  | blank
  | disabled
  | packet (offset wden : BitVec 8) (data : ℕ)
  deriving DecidableEq

def header (m : Bytes) (addr : ℕ) : Header :=
  if m addr = 0xFF then .blank
  else if extHeader (m addr) then
    if allWordsDisabled (m (addr + 1)) then .disabled
    else .packet (getHdrOffset20 (m addr) ||| ((m (addr + 1) &&& 0xF0) >>> 1))
      (m (addr + 1) &&& 0x0F) (addr + 2)
  else .packet ((m addr >>> 4) &&& 0x0F) (m addr &&& 0x0F) (addr + 1)

theorem header_data {m : Bytes} {addr data : ℕ} {offset wden : BitVec 8}
    (h : header m addr = .packet offset wden data) : addr < data := by
  unfold header at h
  split_ifs at h <;> cases h <;> omega

/-- One word, if it is enabled, goes from the fuses to `addr` of a table. -/
def readWord (m : Bytes) (wden : BitVec 8) (addr : ℕ) (s : ℕ × Bytes) (i : ℕ) : ℕ × Bytes :=
  if enabled wden i then
    (s.1 + 2, Function.update (Function.update s.2 (addr + 2 * i) (m s.1)) (addr + 2 * i + 1)
      (m (s.1 + 1)))
  else s

def readWords (m : Bytes) (wden : BitVec 8) (addr efuseAddr : ℕ) (tbl : Bytes) : ℕ × Bytes :=
  (List.range efuseMaxWordUnit).foldl (readWord m wden addr) (efuseAddr, tbl)

/-- The bytes the enabled ones among the first `n` words take. -/
def room (wden : BitVec 8) : ℕ → ℕ
  | 0 => 0
  | n + 1 => room wden n + (enabled wden n).toNat * 2

theorem room_four (wden : BitVec 8) :
    room wden efuseMaxWordUnit = efuseCalculateWordCnts wden * 2 := by
  simp only [efuseMaxWordUnit, room, efuseCalculateWordCnts]
  omega

theorem readWord_foldl (m : Bytes) (wden : BitVec 8) (addr efuseAddr n : ℕ) (tbl : Bytes) :
    (List.range n).foldl (readWord m wden addr) (efuseAddr, tbl) =
      (efuseAddr + room wden n, fun x =>
        if addr ≤ x ∧ x < addr + 2 * n ∧ enabled wden ((x - addr) / 2) then
          m (efuseAddr + room wden ((x - addr) / 2) + (x - addr) % 2)
        else tbl x) := by
  induction n with
  | zero =>
    simp only [List.range_zero, List.foldl_nil, room, Nat.add_zero, Prod.mk.injEq, true_and]
    funext x
    rw [if_neg (by omega)]
  | succ n ih =>
    rw [List.range_succ, List.foldl_append, ih, List.foldl_cons, List.foldl_nil, readWord]
    cases he : enabled wden n with
    | false =>
      simp only [Bool.false_eq_true, if_false, room, he, Bool.toNat_false, Nat.zero_mul,
        Nat.add_zero, Prod.mk.injEq, true_and]
      funext x
      by_cases hx : addr ≤ x ∧ (x - addr) / 2 = n
      · rw [if_neg (by omega), if_neg (by rw [hx.2, he]; simp)]
      · exact if_congr (by constructor <;> rintro ⟨h₁, h₂, h₃⟩ <;>
          exact ⟨h₁, by omega, h₃⟩) rfl rfl
    | true =>
      simp only [if_true, room, he, Bool.toNat_true, Nat.one_mul, Prod.mk.injEq]
      refine ⟨by omega, ?_⟩
      funext x
      by_cases hx : addr ≤ x ∧ (x - addr) / 2 = n
      · have hcases : x = addr + 2 * n ∨ x = addr + 2 * n + 1 := by omega
        rw [if_pos ⟨hx.1, by omega, by rw [hx.2]; exact he⟩, hx.2]
        rcases hcases with rfl | rfl
        · rw [Function.update_of_ne (by omega), Function.update_self]
          congr 1
          omega
        · rw [Function.update_self]
          congr 1
          omega
      · rw [Function.update_of_ne (by omega), Function.update_of_ne (by omega)]
        exact if_congr (by constructor <;> rintro ⟨h₁, h₂, h₃⟩ <;>
          exact ⟨h₁, by omega, h₃⟩) rfl rfl

theorem readWords_eq (m : Bytes) (wden : BitVec 8) (addr efuseAddr : ℕ) (tbl : Bytes) :
    readWords m wden addr efuseAddr tbl =
      (efuseAddr + efuseCalculateWordCnts wden * 2, fun x =>
        if addr ≤ x ∧ x < addr + 8 ∧ enabled wden ((x - addr) / 2) then
          m (efuseAddr + room wden ((x - addr) / 2) + (x - addr) % 2)
        else tbl x) := by
  rw [readWords, readWord_foldl, room_four]
  rfl

/-- One turn of the loop of `hal_ReadEFuse_WiFi`. -/
def readTurn (m : Bytes) (efuseAddr : ℕ) (efuseTbl : Bytes) : Turn Bytes :=
  if efuseAddr < efuseRealContentLen then
    match header m efuseAddr with
    | .blank => .leave (efuseAddr + 1) efuseTbl
    | .disabled => .go (efuseAddr + 2) efuseTbl
    | .packet offset wden data =>
      if offset.toNat < efuseMaxSection then
        let s := readWords m wden (offset.toNat * pgpktDataSize) data efuseTbl
        .go s.1 s.2
      else .go (data + efuseCalculateWordCnts wden * 2) efuseTbl
  else .leave efuseAddr efuseTbl

/-- Turns enough for every loop over the fuses, as `walk_enough` has it. -/
def efuseTurns : ℕ := 1040

theorem readTurn_up {m : Bytes} {a b : ℕ} {s t : Bytes} (h : readTurn m a s = .go b t) :
    a < b ∧ a < efuseRealContentLen := by
  unfold readTurn at h
  split_ifs at h with ha
  refine ⟨?_, ha⟩
  cases hh : header m a with
  | blank => rw [hh] at h; cases h
  | disabled => rw [hh] at h; cases h; omega
  | packet offset wden data =>
    have hd := header_data hh
    rw [hh] at h
    simp only [readWords_eq] at h
    split_ifs at h <;> cases h <;> omega

/-- More turns than `efuseTurns` read the same. -/
theorem readTurn_enough (m : Bytes) (s : Bytes) (k : ℕ) :
    walk (readTurn m) (efuseTurns + k) 0 s = walk (readTurn m) efuseTurns 0 s :=
  walk_enough (fun a _ => efuseRealContentLen - a)
    (fun a s b t h => by have := readTurn_up h; omega) (by decide)

def efuseTable (m : Bytes) : ℕ × Bytes := walk (readTurn m) efuseTurns 0 fun _ => 0xFF

/-- The bytes read, and the value of HW_VAR_EFUSE_BYTES. -/
def halReadEfuseWifi (m : Bytes) (offset size : ℕ) : Option (List (BitVec 8) × ℕ) :=
  if offset + size > efuseMaxMapLen then none
  else
    let r := efuseTable m
    some ((List.range size).map fun i => r.2 (offset + i), r.1 - 1)

/-- One turn of the loop of `Hal_EfusePgPacketRead`. -/
def packetTurn (m : Bytes) (offset : BitVec 8) (efuseAddr : ℕ) (data : Bytes) : Turn Bytes :=
  if efuseAddr < efuseRealContentLen then
    match header m efuseAddr with
    | .blank => .leave (efuseAddr + 1) data
    | .disabled => .go (efuseAddr + 2) data
    | .packet hoffset hworden addr =>
      if hoffset = offset then
        let s := readWords m hworden 0 addr data
        .go s.1 s.2
      else .go (addr + efuseCalculateWordCnts hworden * 2) data
  else .leave efuseAddr data

def halEfusePgPacketRead (m : Bytes) (offset : BitVec 8) : Option (List (BitVec 8)) :=
  if offset.toNat > efuseMaxSection then none
  else some ((List.range pgpktDataSize).map
    (walk (packetTurn m offset) efuseTurns 0 fun _ => 0xFF).2)

/-- The map reader and the reader of a section agree on what every section holds, over
whatever the fuses hold. -/
theorem halEfusePgPacketRead_eq (m : Bytes) (offset : BitVec 8)
    (ho : offset.toNat < efuseMaxSection) :
    halEfusePgPacketRead m offset =
      (halReadEfuseWifi m (offset.toNat * pgpktDataSize) pgpktDataSize).map Prod.fst := by
  have hrel : ∀ i, i < 8 →
      (efuseTable m).2 (offset.toNat * 8 + i) =
        (walk (packetTurn m offset) efuseTurns 0 fun _ => 0xFF).2 i := by
    refine (walk_related
      (R := fun (tbl data : Bytes) => ∀ i, i < 8 → tbl (offset.toNat * 8 + i) = data i)
      (fun a tbl data h => ?_) fun _ _ => rfl).2
    unfold readTurn packetTurn
    by_cases ha : a < efuseRealContentLen
    · rw [if_pos ha, if_pos ha]
      cases hh : header m a with
      | blank => exact .inr ⟨_, _, _, rfl, rfl, h⟩
      | disabled => exact .inl ⟨_, _, _, rfl, rfl, h⟩
      | packet hoffset hworden addr =>
        simp only [show pgpktDataSize = 8 from rfl, readWords_eq]
        by_cases he : hoffset = offset
        · rw [if_pos he, if_pos (he ▸ ho), he]
          refine .inl ⟨_, _, _, rfl, rfl, fun i hi => ?_⟩
          simp only [Nat.add_sub_cancel_left, Nat.sub_zero]
          exact if_congr (by simp [hi]) rfl (h i hi)
        · rw [if_neg he]
          have hne : hoffset.toNat ≠ offset.toNat := fun h => he (BitVec.eq_of_toNat_eq h)
          split_ifs with hs
          · refine .inl ⟨_, _, _, rfl, rfl, fun i hi => ?_⟩
            rw [if_neg (by omega)]
            exact h i hi
          · exact .inl ⟨_, _, _, rfl, rfl, h⟩
    · rw [if_neg ha, if_neg ha]
      exact .inr ⟨_, _, _, rfl, rfl, h⟩
  rw [halEfusePgPacketRead, if_neg (by omega), halReadEfuseWifi, if_neg]
  · simp only [Option.map_some, Option.some.injEq]
    exact List.map_congr_left fun i hi => (hrel i (List.mem_range.mp hi)).symm
  · simp only [efuseMaxSection, pgpktDataSize, efuseMaxMapLen] at ho ⊢
    omega

/-- Fuses with a packet for section 3, a disabled header and a second packet for it. -/
def patched : Bytes := fun a => [0x3C, 1, 2, 3, 4, 0x0F, 0x0F, 0x3E, 5, 6].getD a 0xFF

theorem halEfusePgPacketRead_eq_patched :
    halEfusePgPacketRead patched 3 = (halReadEfuseWifi patched 24 8).map Prod.fst :=
  halEfusePgPacketRead_eq patched 3 (by decide)

/-- The variables of `hal_EfuseGetCurrentSize_WiFi` besides the address. -/
structure Scan where
  startAddr : ℕ
  count : ℕ
  deriving DecidableEq

/-- One turn of its loop. Behind a disabled extended header the scan goes on at the
extended byte, which it then takes for a header. A count of four is the way out by `goto
error`. -/
def sizeTurn (m : Bytes) (efuseAddr : ℕ) (s : Scan) : Turn Scan :=
  if efuseAddr < efuseRealContentLen then
    if m efuseAddr = 0xFF then .leave efuseAddr s
    else if s.startAddr ≠ 0 ∧ efuseAddr = s.startAddr then
      if s.count + 1 < 4 then
        if s.count + 1 > 2 then .go 0 ⟨0, s.count + 1⟩
        else .go efuseAddr ⟨s.startAddr, s.count + 1⟩
      else .leave efuseAddr ⟨s.startAddr, s.count + 1⟩
    else match header m efuseAddr with
      | .packet _ hworden data => .go (data + efuseCalculateWordCnts hworden * 2) s
      | _ => .go (efuseAddr + 1) s
  else .leave efuseAddr s

/-- Turns still to come, while the start address is nonzero with the one restart. -/
def Scan.turns (a : ℕ) (s : Scan) : ℕ :=
  efuseRealContentLen - a + if s.startAddr = 0 then 0 else efuseRealContentLen + 4 - s.count

theorem sizeTurn_down {m : Bytes} {a b : ℕ} {s t : Scan} (h : sizeTurn m a s = .go b t) :
    Scan.turns b t < Scan.turns a s := by
  have hlen : efuseRealContentLen = 512 := rfl
  unfold sizeTurn at h
  unfold Scan.turns
  split_ifs at h with ha hb hs hc hd
  · cases h
    rw [if_pos rfl, if_neg hs.1]
    omega
  · cases h
    rw [if_neg hs.1]
    simp only
    rw [if_neg hs.1]
    omega
  · cases hh : header m a with
    | packet offset wden data =>
      have hd := header_data hh
      rw [hh] at h
      cases h
      omega
    | blank => rw [hh] at h; cases h; omega
    | disabled => rw [hh] at h; cases h; omega

/-- More turns than `efuseTurns` find the same size. -/
theorem sizeTurn_enough (m : Bytes) (a : ℕ) (s : Scan) (k : ℕ) :
    walk (sizeTurn m) (efuseTurns + k) a s = walk (sizeTurn m) efuseTurns a s :=
  walk_enough Scan.turns (fun _ _ _ _ => sizeTurn_down) (by
    have hlen : efuseRealContentLen = 512 := rfl
    have ht : efuseTurns = 1040 := rfl
    unfold Scan.turns
    split_ifs <;> omega)

/-- The size it returns and the value HW_VAR_EFUSE_BYTES has afterwards. -/
def halEfuseGetCurrentSizeWifi (m : Bytes) (efuseBytes : ℕ) : ℕ × ℕ :=
  let r := walk (sizeTurn m) efuseTurns efuseBytes ⟨efuseBytes, 0⟩
  if r.2.count < 4 then (r.1, r.1) else (availableEfuseBytes, efuseBytes)

end Okm6ullOta.EfuseMap
