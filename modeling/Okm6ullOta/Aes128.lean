import Okm6ullOta.Arc4
import Okm6ullOta.CyclicChecks
import Mathlib.Data.List.GetD
import Mathlib.Tactic.IntervalCases

/-!
# The block cipher of CCMP

sbox to aes128k128d of core/rtw_security.c. A buffer of 16 bytes is a list, and a byte which
is not there reads as zero.
-/
namespace Okm6ullOta.Aes128
open Arc4 (Byte)

/-- sbox_table. -/
def sboxTable : List Byte := [
  0x63, 0x7c, 0x77, 0x7b, 0xf2, 0x6b, 0x6f, 0xc5, 0x30, 0x01, 0x67, 0x2b, 0xfe, 0xd7, 0xab, 0x76,
  0xca, 0x82, 0xc9, 0x7d, 0xfa, 0x59, 0x47, 0xf0, 0xad, 0xd4, 0xa2, 0xaf, 0x9c, 0xa4, 0x72, 0xc0,
  0xb7, 0xfd, 0x93, 0x26, 0x36, 0x3f, 0xf7, 0xcc, 0x34, 0xa5, 0xe5, 0xf1, 0x71, 0xd8, 0x31, 0x15,
  0x04, 0xc7, 0x23, 0xc3, 0x18, 0x96, 0x05, 0x9a, 0x07, 0x12, 0x80, 0xe2, 0xeb, 0x27, 0xb2, 0x75,
  0x09, 0x83, 0x2c, 0x1a, 0x1b, 0x6e, 0x5a, 0xa0, 0x52, 0x3b, 0xd6, 0xb3, 0x29, 0xe3, 0x2f, 0x84,
  0x53, 0xd1, 0x00, 0xed, 0x20, 0xfc, 0xb1, 0x5b, 0x6a, 0xcb, 0xbe, 0x39, 0x4a, 0x4c, 0x58, 0xcf,
  0xd0, 0xef, 0xaa, 0xfb, 0x43, 0x4d, 0x33, 0x85, 0x45, 0xf9, 0x02, 0x7f, 0x50, 0x3c, 0x9f, 0xa8,
  0x51, 0xa3, 0x40, 0x8f, 0x92, 0x9d, 0x38, 0xf5, 0xbc, 0xb6, 0xda, 0x21, 0x10, 0xff, 0xf3, 0xd2,
  0xcd, 0x0c, 0x13, 0xec, 0x5f, 0x97, 0x44, 0x17, 0xc4, 0xa7, 0x7e, 0x3d, 0x64, 0x5d, 0x19, 0x73,
  0x60, 0x81, 0x4f, 0xdc, 0x22, 0x2a, 0x90, 0x88, 0x46, 0xee, 0xb8, 0x14, 0xde, 0x5e, 0x0b, 0xdb,
  0xe0, 0x32, 0x3a, 0x0a, 0x49, 0x06, 0x24, 0x5c, 0xc2, 0xd3, 0xac, 0x62, 0x91, 0x95, 0xe4, 0x79,
  0xe7, 0xc8, 0x37, 0x6d, 0x8d, 0xd5, 0x4e, 0xa9, 0x6c, 0x56, 0xf4, 0xea, 0x65, 0x7a, 0xae, 0x08,
  0xba, 0x78, 0x25, 0x2e, 0x1c, 0xa6, 0xb4, 0xc6, 0xe8, 0xdd, 0x74, 0x1f, 0x4b, 0xbd, 0x8b, 0x8a,
  0x70, 0x3e, 0xb5, 0x66, 0x48, 0x03, 0xf6, 0x0e, 0x61, 0x35, 0x57, 0xb9, 0x86, 0xc1, 0x1d, 0x9e,
  0xe1, 0xf8, 0x98, 0x11, 0x69, 0xd9, 0x8e, 0x94, 0x9b, 0x1e, 0x87, 0xe9, 0xce, 0x55, 0x28, 0xdf,
  0x8c, 0xa1, 0x89, 0x0d, 0xbf, 0xe6, 0x42, 0x68, 0x41, 0x99, 0x2d, 0x0f, 0xb0, 0x54, 0xbb, 0x16]

def sbox (a : Byte) : Byte := sboxTable.getD a.toNat 0

def xor128 (a b : List Byte) : List Byte :=
  (List.range 16).map fun i => a.getD i 0 ^^^ b.getD i 0

def xor32 (a b : List Byte) : List Byte :=
  (List.range 4).map fun i => a.getD i 0 ^^^ b.getD i 0

def rconTable : List Byte :=
  [0x01, 0x02, 0x04, 0x08, 0x10, 0x20, 0x40, 0x80, 0x1b, 0x36, 0x36, 0x36]

def nextKey (key : List Byte) (round : ℕ) : List Byte :=
  let sboxKey := [sbox (key.getD 13 0), sbox (key.getD 14 0), sbox (key.getD 15 0),
    sbox (key.getD 12 0)]
  let rcon := rconTable.getD round 0
  let key0 := xor32 (key.take 4) sboxKey
  let key0 := key0.set 0 (key0.getD 0 0 ^^^ rcon)
  let key4 := xor32 (key.drop 4) key0
  let key8 := xor32 (key.drop 8) key4
  let key12 := xor32 (key.drop 12) key8
  key0 ++ key4 ++ key8 ++ key12

def byteSub (a : List Byte) : List Byte := (List.range 16).map fun i => sbox (a.getD i 0)

def shiftRow (a : List Byte) : List Byte :=
  [a.getD 0 0, a.getD 5 0, a.getD 10 0, a.getD 15 0,
    a.getD 4 0, a.getD 9 0, a.getD 14 0, a.getD 3 0,
    a.getD 8 0, a.getD 13 0, a.getD 2 0, a.getD 7 0,
    a.getD 12 0, a.getD 1 0, a.getD 6 0, a.getD 11 0]

/-- The shift of `andf7`, from the last byte down. -/
def shiftAndf7 (andf7 : List Byte) : List Byte :=
  let carry i : Byte := if andf7.getD (i - 1) 0 &&& 0x80 = 0x80 then 0x01 else 0
  [(andf7.getD 0 0 <<< 1) &&& 0xfe, (andf7.getD 1 0 <<< 1) ||| carry 1,
    (andf7.getD 2 0 <<< 1) ||| carry 2, (andf7.getD 3 0 <<< 1) ||| carry 3]

def mixColumn (a : List Byte) : List Byte :=
  let add1b := (List.range 4).map fun i => if a.getD i 0 &&& 0x80 = 0x80 then (0x1b : Byte) else 0
  let swapHalfs := [a.getD 2 0, a.getD 3 0, a.getD 0 0, a.getD 1 0]
  let rotl := [a.getD 3 0, a.getD 0 0, a.getD 1 0, a.getD 2 0]
  let andf7 := shiftAndf7 ((List.range 4).map fun i => a.getD i 0 &&& 0x7f)
  let add1bf7 := xor32 add1b andf7
  let rotr := xor32 a add1bf7
  let rotr := [rotr.getD 1 0, rotr.getD 2 0, rotr.getD 3 0, rotr.getD 0 0]
  let temp := xor32 add1bf7 rotr
  let tempb := xor32 swapHalfs rotl
  xor32 temp tempb

def mixColumns (a : List Byte) : List Byte :=
  mixColumn (a.take 4) ++ mixColumn ((a.drop 4).take 4) ++ mixColumn ((a.drop 8).take 4) ++
    mixColumn ((a.drop 12).take 4)

/-- One round, on `ciphertext` and `round_key`. -/
def aesRound (s : List Byte × List Byte) (round : ℕ) : List Byte × List Byte :=
  let (ciphertext, roundKey) := s
  if round = 0 then (xor128 roundKey ciphertext, nextKey roundKey round)
  else if round = 10 then (xor128 (shiftRow (byteSub ciphertext)) roundKey, roundKey)
  else
    (xor128 (mixColumns (shiftRow (byteSub ciphertext))) roundKey, nextKey roundKey round)

def aes128k128d (key data : List Byte) : List Byte :=
  ((List.range 11).foldl aesRound (data, key)).1

example : aes128k128d (CyclicChecks.bytes 16 (0x0f0e0d0c0b0a09080706050403020100 : BitVec 128))
    (CyclicChecks.bytes 16 (0xffeeddccbbaa99887766554433221100 : BitVec 128)) =
    CyclicChecks.bytes 16 (0x5ac5b47080b7cdd830047b6ad8e0c469 : BitVec 128) := by
  decide +kernel

variable {a b key : List Byte} {x y : Byte} {n : ℕ}

theorem getD_ext (ha : a.length = n) (hb : b.length = n) (h : ∀ i < n, a.getD i 0 = b.getD i 0) :
    a = b := by
  refine List.ext_getElem (ha.trans hb.symm) fun i h₁ h₂ => ?_
  have hi := h i (ha ▸ h₁)
  rwa [List.getD_eq_getElem _ _ h₁, List.getD_eq_getElem _ _ h₂] at hi

theorem getD_map_range (f : ℕ → Byte) {i : ℕ} (hi : i < n) :
    ((List.range n).map f).getD i 0 = f i := by
  rw [List.getD_eq_getElem _ _ (by simpa using hi)]
  simp

@[simp] theorem xor128_length : (xor128 a b).length = 16 := by simp [xor128]

@[simp] theorem byteSub_length : (byteSub a).length = 16 := by simp [byteSub]

@[simp] theorem shiftRow_length : (shiftRow a).length = 16 := rfl

@[simp] theorem mixColumn_length : (mixColumn a).length = 4 := rfl

@[simp] theorem mixColumns_length : (mixColumns a).length = 16 := by simp [mixColumns]

theorem xor128_comm : xor128 a b = xor128 b a := by
  simp only [xor128, BitVec.xor_comm]

theorem xor128_right_inj (ha : a.length = 16) (hb : b.length = 16)
    (h : xor128 key a = xor128 key b) : a = b := by
  refine getD_ext ha hb fun i hi => ?_
  have hk := congrArg (List.getD · i 0) h
  simp only [xor128, getD_map_range _ hi] at hk
  exact (BitVec.xor_right_inj _).mp hk

/-- Where each byte stands in sbox_table. -/
def sboxInverse : List Byte := [
  0x52, 0x09, 0x6a, 0xd5, 0x30, 0x36, 0xa5, 0x38, 0xbf, 0x40, 0xa3, 0x9e, 0x81, 0xf3, 0xd7, 0xfb,
  0x7c, 0xe3, 0x39, 0x82, 0x9b, 0x2f, 0xff, 0x87, 0x34, 0x8e, 0x43, 0x44, 0xc4, 0xde, 0xe9, 0xcb,
  0x54, 0x7b, 0x94, 0x32, 0xa6, 0xc2, 0x23, 0x3d, 0xee, 0x4c, 0x95, 0x0b, 0x42, 0xfa, 0xc3, 0x4e,
  0x08, 0x2e, 0xa1, 0x66, 0x28, 0xd9, 0x24, 0xb2, 0x76, 0x5b, 0xa2, 0x49, 0x6d, 0x8b, 0xd1, 0x25,
  0x72, 0xf8, 0xf6, 0x64, 0x86, 0x68, 0x98, 0x16, 0xd4, 0xa4, 0x5c, 0xcc, 0x5d, 0x65, 0xb6, 0x92,
  0x6c, 0x70, 0x48, 0x50, 0xfd, 0xed, 0xb9, 0xda, 0x5e, 0x15, 0x46, 0x57, 0xa7, 0x8d, 0x9d, 0x84,
  0x90, 0xd8, 0xab, 0x00, 0x8c, 0xbc, 0xd3, 0x0a, 0xf7, 0xe4, 0x58, 0x05, 0xb8, 0xb3, 0x45, 0x06,
  0xd0, 0x2c, 0x1e, 0x8f, 0xca, 0x3f, 0x0f, 0x02, 0xc1, 0xaf, 0xbd, 0x03, 0x01, 0x13, 0x8a, 0x6b,
  0x3a, 0x91, 0x11, 0x41, 0x4f, 0x67, 0xdc, 0xea, 0x97, 0xf2, 0xcf, 0xce, 0xf0, 0xb4, 0xe6, 0x73,
  0x96, 0xac, 0x74, 0x22, 0xe7, 0xad, 0x35, 0x85, 0xe2, 0xf9, 0x37, 0xe8, 0x1c, 0x75, 0xdf, 0x6e,
  0x47, 0xf1, 0x1a, 0x71, 0x1d, 0x29, 0xc5, 0x89, 0x6f, 0xb7, 0x62, 0x0e, 0xaa, 0x18, 0xbe, 0x1b,
  0xfc, 0x56, 0x3e, 0x4b, 0xc6, 0xd2, 0x79, 0x20, 0x9a, 0xdb, 0xc0, 0xfe, 0x78, 0xcd, 0x5a, 0xf4,
  0x1f, 0xdd, 0xa8, 0x33, 0x88, 0x07, 0xc7, 0x31, 0xb1, 0x12, 0x10, 0x59, 0x27, 0x80, 0xec, 0x5f,
  0x60, 0x51, 0x7f, 0xa9, 0x19, 0xb5, 0x4a, 0x0d, 0x2d, 0xe5, 0x7a, 0x9f, 0x93, 0xc9, 0x9c, 0xef,
  0xa0, 0xe0, 0x3b, 0x4d, 0xae, 0x2a, 0xf5, 0xb0, 0xc8, 0xeb, 0xbb, 0x3c, 0x83, 0x53, 0x99, 0x61,
  0x17, 0x2b, 0x04, 0x7e, 0xba, 0x77, 0xd6, 0x26, 0xe1, 0x69, 0x14, 0x63, 0x55, 0x21, 0x0c, 0x7d]

theorem sboxInverse_sbox : ∀ x : Byte, sboxInverse.getD (sbox x).toNat 0 = x := by decide +kernel

theorem sbox_injective : Function.Injective sbox :=
  Function.LeftInverse.injective (g := fun y : Byte => sboxInverse.getD y.toNat 0) sboxInverse_sbox

theorem byteSub_inj (ha : a.length = 16) (hb : b.length = 16) (h : byteSub a = byteSub b) :
    a = b := by
  refine getD_ext ha hb fun i hi => ?_
  have hs := congrArg (List.getD · i 0) h
  simp only [byteSub, getD_map_range _ hi] at hs
  exact sbox_injective hs

theorem shiftRow_eq : shiftRow a = (List.range 16).map fun i => a.getD (5 * i % 16) 0 := rfl

theorem shiftRow_inj (ha : a.length = 16) (hb : b.length = 16) (h : shiftRow a = shiftRow b) :
    a = b := by
  refine getD_ext ha hb fun i hi => ?_
  have hs := congrArg (List.getD · (13 * i % 16) 0) h
  simp only [shiftRow_eq, getD_map_range _ (Nat.mod_lt _ (Nat.zero_lt_succ 15))] at hs
  rwa [show 5 * (13 * i % 16) % 16 = i by omega] at hs

/-- Twice the byte in the field of the cipher. -/
def xtime (x : Byte) : Byte := (if x.msb then 27#8 else 0#8) ^^^ (x <<< 1)

theorem xtime_xor : xtime (x ^^^ y) = xtime x ^^^ xtime y := by
  unfold xtime
  rw [BitVec.msb_xor, BitVec.shiftLeft_xor_distrib]
  generalize x <<< 1 = u
  generalize y <<< 1 = v
  cases x.msb <;> cases y.msb
  · simp
  · simp only [Bool.false_xor, if_true, Bool.false_eq_true, if_false]
    ac_rfl
  · simp only [Bool.xor_false, if_true, Bool.false_eq_true, if_false]
    ac_rfl
  · simp only [Bool.xor_self, if_true, Bool.false_eq_true, if_false]
    calc 0#8 ^^^ (u ^^^ v) = (27#8 ^^^ 27#8) ^^^ (u ^^^ v) := by rw [BitVec.xor_self]
      _ = (27#8 ^^^ u) ^^^ (27#8 ^^^ v) := by ac_rfl

/-- `add1bf7`, and no bit moves from one byte to the next. -/
theorem double_eq : ∀ x : Byte, (if x &&& 128#8 = 128#8 then 27#8 else 0#8) ^^^
    ((x &&& 127#8) <<< 1) = xtime x := by decide +kernel

theorem masked_carry : ∀ x : Byte, (if x &&& 127#8 &&& 128#8 = 128#8 then 1#8 else 0#8) = 0#8 := by
  decide +kernel

theorem masked_even : ∀ x : Byte, (x &&& 127#8) <<< 1 &&& 254#8 = (x &&& 127#8) <<< 1 := by
  decide +kernel

theorem mixColumn_eq (a b c d : Byte) : mixColumn [a, b, c, d] =
    [xtime a ^^^ (b ^^^ xtime b) ^^^ (c ^^^ d), xtime b ^^^ (c ^^^ xtime c) ^^^ (d ^^^ a),
      xtime c ^^^ (d ^^^ xtime d) ^^^ (a ^^^ b), xtime d ^^^ (a ^^^ xtime a) ^^^ (b ^^^ c)] := by
  simp [mixColumn, shiftAndf7, xor32, List.range, List.range.loop, masked_carry, masked_even,
    double_eq]

theorem xor_left_comm (x y z : Byte) : x ^^^ (y ^^^ z) = y ^^^ (x ^^^ z) := by ac_rfl

theorem xor_self_left (x y : Byte) : x ^^^ (x ^^^ y) = y := by
  rw [← BitVec.xor_assoc, BitVec.xor_self, BitVec.zero_xor]

/-- Mixing twice. -/
theorem mixColumn_twice (a b c d : Byte) : mixColumn (mixColumn [a, b, c, d]) =
    [a ^^^ (xtime (xtime a) ^^^ xtime (xtime c)), b ^^^ (xtime (xtime b) ^^^ xtime (xtime d)),
      c ^^^ (xtime (xtime c) ^^^ xtime (xtime a)),
      d ^^^ (xtime (xtime d) ^^^ xtime (xtime b))] := by
  rw [mixColumn_eq, mixColumn_eq]
  simp only [xtime_xor, List.cons.injEq, and_true]
  refine ⟨?_, ?_, ?_, ?_⟩ <;>
    simp only [BitVec.xor_assoc, BitVec.xor_comm, xor_left_comm, xor_self_left, BitVec.xor_self,
      BitVec.zero_xor]

/-- Four times mixing gives the column back. -/
theorem mixColumn_four (a b c d : Byte) :
    mixColumn (mixColumn (mixColumn (mixColumn [a, b, c, d]))) = [a, b, c, d] := by
  rw [mixColumn_twice, mixColumn_twice]
  simp only [xtime_xor, List.cons.injEq, and_true]
  refine ⟨?_, ?_, ?_, ?_⟩ <;>
    simp only [BitVec.xor_assoc, BitVec.xor_comm, xor_left_comm, xor_self_left, BitVec.xor_self,
      BitVec.xor_zero]

theorem four_bytes (h : a.length = 4) :
    a = [a.getD 0 0, a.getD 1 0, a.getD 2 0, a.getD 3 0] :=
  getD_ext h rfl fun i hi => by interval_cases i <;> rfl

theorem mixColumn_inj (ha : a.length = 4) (hb : b.length = 4) (h : mixColumn a = mixColumn b) :
    a = b := by
  rw [four_bytes ha, four_bytes hb] at h ⊢
  rw [← mixColumn_four, h, mixColumn_four]

theorem four_columns (h : a.length = 16) :
    a = a.take 4 ++ (a.drop 4).take 4 ++ (a.drop 8).take 4 ++ (a.drop 12).take 4 := by
  have ht : a.take (4 + 4 + 4 + 4) = a := List.take_of_length_le (Nat.le_of_eq h)
  rw [List.take_add, List.take_add, List.take_add] at ht
  exact ht.symm

theorem mixColumns_inj (ha : a.length = 16) (hb : b.length = 16) (h : mixColumns a = mixColumns b) :
    a = b := by
  obtain ⟨h, h₃⟩ := List.append_inj h (by simp)
  obtain ⟨h, h₂⟩ := List.append_inj h (by simp)
  obtain ⟨h₀, h₁⟩ := List.append_inj h (by simp)
  rw [four_columns ha, four_columns hb, mixColumn_inj (by simp [ha]) (by simp [hb]) h₀,
    mixColumn_inj (by simp [ha]) (by simp [hb]) h₁, mixColumn_inj (by simp [ha]) (by simp [hb]) h₂,
    mixColumn_inj (by simp [ha]) (by simp [hb]) h₃]

theorem aesRound_key (c k : List Byte) (c' : List Byte) (round : ℕ) :
    (aesRound (c, k) round).2 = (aesRound (c', k) round).2 := by
  simp only [aesRound]
  split_ifs <;> rfl

theorem aesRound_length (round : ℕ) : (aesRound (a, key) round).1.length = 16 := by
  simp only [aesRound]
  split_ifs <;> simp

theorem aesRound_inj (ha : a.length = 16) (hb : b.length = 16) {round : ℕ}
    (h : (aesRound (a, key) round).1 = (aesRound (b, key) round).1) : a = b := by
  simp only [aesRound] at h
  split_ifs at h
  · exact xor128_right_inj ha hb h
  · rw [xor128_comm, xor128_comm (b := key)] at h
    exact byteSub_inj ha hb
      (shiftRow_inj (by simp) (by simp) (xor128_right_inj (by simp) (by simp) h))
  · rw [xor128_comm, xor128_comm (b := key)] at h
    exact byteSub_inj ha hb (shiftRow_inj (by simp) (by simp)
      (mixColumns_inj (by simp) (by simp) (xor128_right_inj (by simp) (by simp) h)))

theorem rounds_inj (l : List ℕ) (ha : a.length = 16) (hb : b.length = 16)
    (h : (l.foldl aesRound (a, key)).1 = (l.foldl aesRound (b, key)).1) : a = b := by
  induction l generalizing a b key with
  | nil => exact h
  | cons n l ih =>
    have hs (c : List Byte) :
      aesRound (c, key) n = ((aesRound (c, key) n).1, (aesRound (a, key) n).2) :=
      Prod.ext rfl (aesRound_key c key a n)
    rw [List.foldl_cons, List.foldl_cons, hs a, hs b] at h
    exact aesRound_inj ha hb (ih (aesRound_length n) (aesRound_length n) h)

theorem aes128k128d_length : (aes128k128d key a).length = 16 := by
  rw [aes128k128d, List.range_succ, List.foldl_append]
  exact xor128_length

/-- Under every key no two blocks become the same block. -/
theorem aes128k128d_inj (ha : a.length = 16) (hb : b.length = 16) :
    aes128k128d key a = aes128k128d key b ↔ a = b :=
  ⟨rounds_inj _ ha hb, fun h => h ▸ rfl⟩

theorem aes128k128d_inj_one :
    aes128k128d (List.replicate 16 7) (List.replicate 16 0) ≠
      aes128k128d (List.replicate 16 7) (List.replicate 15 0 ++ [1]) :=
  mt (aes128k128d_inj rfl rfl).mp (by decide)

end Okm6ullOta.Aes128
