import Okm6ullOta.Arc4
import Okm6ullOta.CyclicChecks
import Okm6ullOta.FeistelSteps
import Mathlib.Data.BitVec

/-!
# The packet keys of TKIP

phase1 and phase2 of core/rtw_security.c, which mix the temporal key, the address of the
sender and the packet number into the RC4 key of one packet.
-/
namespace Okm6ullOta.TkipKeys
open Arc4 FeistelSteps
open CyclicChecks (bytes word word_bytes bytes_word)

/-- Sbox1[0]. -/
def sbox1Low : List (BitVec 16) := [
  0xc6a5, 0xf884, 0xee99, 0xf68d, 0xff0d, 0xd6bd, 0xdeb1, 0x9154, 0x6050, 0x0203, 0xcea9, 0x567d,
  0xe719, 0xb562, 0x4de6, 0xec9a, 0x8f45, 0x1f9d, 0x8940, 0xfa87, 0xef15, 0xb2eb, 0x8ec9, 0xfb0b,
  0x41ec, 0xb367, 0x5ffd, 0x45ea, 0x23bf, 0x53f7, 0xe496, 0x9b5b, 0x75c2, 0xe11c, 0x3dae, 0x4c6a,
  0x6c5a, 0x7e41, 0xf502, 0x834f, 0x685c, 0x51f4, 0xd134, 0xf908, 0xe293, 0xab73, 0x6253, 0x2a3f,
  0x080c, 0x9552, 0x4665, 0x9d5e, 0x3028, 0x37a1, 0x0a0f, 0x2fb5, 0x0e09, 0x2436, 0x1b9b, 0xdf3d,
  0xcd26, 0x4e69, 0x7fcd, 0xea9f, 0x121b, 0x1d9e, 0x5874, 0x342e, 0x362d, 0xdcb2, 0xb4ee, 0x5bfb,
  0xa4f6, 0x764d, 0xb761, 0x7dce, 0x527b, 0xdd3e, 0x5e71, 0x1397, 0xa6f5, 0xb968, 0x0000, 0xc12c,
  0x4060, 0xe31f, 0x79c8, 0xb6ed, 0xd4be, 0x8d46, 0x67d9, 0x724b, 0x94de, 0x98d4, 0xb0e8, 0x854a,
  0xbb6b, 0xc52a, 0x4fe5, 0xed16, 0x86c5, 0x9ad7, 0x6655, 0x1194, 0x8acf, 0xe910, 0x0406, 0xfe81,
  0xa0f0, 0x7844, 0x25ba, 0x4be3, 0xa2f3, 0x5dfe, 0x80c0, 0x058a, 0x3fad, 0x21bc, 0x7048, 0xf104,
  0x63df, 0x77c1, 0xaf75, 0x4263, 0x2030, 0xe51a, 0xfd0e, 0xbf6d, 0x814c, 0x1814, 0x2635, 0xc32f,
  0xbee1, 0x35a2, 0x88cc, 0x2e39, 0x9357, 0x55f2, 0xfc82, 0x7a47, 0xc8ac, 0xbae7, 0x322b, 0xe695,
  0xc0a0, 0x1998, 0x9ed1, 0xa37f, 0x4466, 0x547e, 0x3bab, 0x0b83, 0x8cca, 0xc729, 0x6bd3, 0x283c,
  0xa779, 0xbce2, 0x161d, 0xad76, 0xdb3b, 0x6456, 0x744e, 0x141e, 0x92db, 0x0c0a, 0x486c, 0xb8e4,
  0x9f5d, 0xbd6e, 0x43ef, 0xc4a6, 0x39a8, 0x31a4, 0xd337, 0xf28b, 0xd532, 0x8b43, 0x6e59, 0xdab7,
  0x018c, 0xb164, 0x9cd2, 0x49e0, 0xd8b4, 0xacfa, 0xf307, 0xcf25, 0xcaaf, 0xf48e, 0x47e9, 0x1018,
  0x6fd5, 0xf088, 0x4a6f, 0x5c72, 0x3824, 0x57f1, 0x73c7, 0x9751, 0xcb23, 0xa17c, 0xe89c, 0x3e21,
  0x96dd, 0x61dc, 0x0d86, 0x0f85, 0xe090, 0x7c42, 0x71c4, 0xccaa, 0x90d8, 0x0605, 0xf701, 0x1c12,
  0xc2a3, 0x6a5f, 0xaef9, 0x69d0, 0x1791, 0x9958, 0x3a27, 0x27b9, 0xd938, 0xeb13, 0x2bb3, 0x2233,
  0xd2bb, 0xa970, 0x0789, 0x33a7, 0x2db6, 0x3c22, 0x1592, 0xc920, 0x8749, 0xaaff, 0x5078, 0xa57a,
  0x038f, 0x59f8, 0x0980, 0x1a17, 0x65da, 0xd731, 0x84c6, 0xd0b8, 0x82c3, 0x29b0, 0x5a77, 0x1e11,
  0x7bcb, 0xa8fc, 0x6dd6, 0x2c3a]

/-- Sbox1[1]. -/
def sbox1High : List (BitVec 16) := [
  0xa5c6, 0x84f8, 0x99ee, 0x8df6, 0x0dff, 0xbdd6, 0xb1de, 0x5491, 0x5060, 0x0302, 0xa9ce, 0x7d56,
  0x19e7, 0x62b5, 0xe64d, 0x9aec, 0x458f, 0x9d1f, 0x4089, 0x87fa, 0x15ef, 0xebb2, 0xc98e, 0x0bfb,
  0xec41, 0x67b3, 0xfd5f, 0xea45, 0xbf23, 0xf753, 0x96e4, 0x5b9b, 0xc275, 0x1ce1, 0xae3d, 0x6a4c,
  0x5a6c, 0x417e, 0x02f5, 0x4f83, 0x5c68, 0xf451, 0x34d1, 0x08f9, 0x93e2, 0x73ab, 0x5362, 0x3f2a,
  0x0c08, 0x5295, 0x6546, 0x5e9d, 0x2830, 0xa137, 0x0f0a, 0xb52f, 0x090e, 0x3624, 0x9b1b, 0x3ddf,
  0x26cd, 0x694e, 0xcd7f, 0x9fea, 0x1b12, 0x9e1d, 0x7458, 0x2e34, 0x2d36, 0xb2dc, 0xeeb4, 0xfb5b,
  0xf6a4, 0x4d76, 0x61b7, 0xce7d, 0x7b52, 0x3edd, 0x715e, 0x9713, 0xf5a6, 0x68b9, 0x0000, 0x2cc1,
  0x6040, 0x1fe3, 0xc879, 0xedb6, 0xbed4, 0x468d, 0xd967, 0x4b72, 0xde94, 0xd498, 0xe8b0, 0x4a85,
  0x6bbb, 0x2ac5, 0xe54f, 0x16ed, 0xc586, 0xd79a, 0x5566, 0x9411, 0xcf8a, 0x10e9, 0x0604, 0x81fe,
  0xf0a0, 0x4478, 0xba25, 0xe34b, 0xf3a2, 0xfe5d, 0xc080, 0x8a05, 0xad3f, 0xbc21, 0x4870, 0x04f1,
  0xdf63, 0xc177, 0x75af, 0x6342, 0x3020, 0x1ae5, 0x0efd, 0x6dbf, 0x4c81, 0x1418, 0x3526, 0x2fc3,
  0xe1be, 0xa235, 0xcc88, 0x392e, 0x5793, 0xf255, 0x82fc, 0x477a, 0xacc8, 0xe7ba, 0x2b32, 0x95e6,
  0xa0c0, 0x9819, 0xd19e, 0x7fa3, 0x6644, 0x7e54, 0xab3b, 0x830b, 0xca8c, 0x29c7, 0xd36b, 0x3c28,
  0x79a7, 0xe2bc, 0x1d16, 0x76ad, 0x3bdb, 0x5664, 0x4e74, 0x1e14, 0xdb92, 0x0a0c, 0x6c48, 0xe4b8,
  0x5d9f, 0x6ebd, 0xef43, 0xa6c4, 0xa839, 0xa431, 0x37d3, 0x8bf2, 0x32d5, 0x438b, 0x596e, 0xb7da,
  0x8c01, 0x64b1, 0xd29c, 0xe049, 0xb4d8, 0xfaac, 0x07f3, 0x25cf, 0xafca, 0x8ef4, 0xe947, 0x1810,
  0xd56f, 0x88f0, 0x6f4a, 0x725c, 0x2438, 0xf157, 0xc773, 0x5197, 0x23cb, 0x7ca1, 0x9ce8, 0x213e,
  0xdd96, 0xdc61, 0x860d, 0x850f, 0x90e0, 0x427c, 0xc471, 0xaacc, 0xd890, 0x0506, 0x01f7, 0x121c,
  0xa3c2, 0x5f6a, 0xf9ae, 0xd069, 0x9117, 0x5899, 0x273a, 0xb927, 0x38d9, 0x13eb, 0xb32b, 0x3322,
  0xbbd2, 0x70a9, 0x8907, 0xa733, 0xb62d, 0x223c, 0x9215, 0x20c9, 0x4987, 0xffaa, 0x7850, 0x7aa5,
  0x8f03, 0xf859, 0x8009, 0x171a, 0xda65, 0x31d7, 0xc684, 0xb8d0, 0xc382, 0xb029, 0x775a, 0x111e,
  0xcb7b, 0xfca8, 0xd66d, 0x3a2c]

abbrev Word := BitVec 16

def rotR1 (v : Word) : Word := ((v >>> 1) &&& 0x7FFF) ^^^ ((v &&& 1) <<< 15)

def lo8 (v : Word) : Byte := v.setWidth 8

def hi8 (v : Word) : Byte := (v >>> 8).setWidth 8

def lo16 (v : BitVec 32) : Word := v.setWidth 16

def hi16 (v : BitVec 32) : Word := (v >>> 16).setWidth 16

def mk16 (hi lo : Byte) : Word := lo.setWidth 16 ^^^ hi.setWidth 16 <<< 8

/-- The macro _S_. -/
def sbox16 (v : Word) : Word := sbox1Low.getD (lo8 v).toNat 0 ^^^ sbox1High.getD (hi8 v).toNat 0

def tk16 (tk : List Byte) (n : ℕ) : Word := mk16 (tk.getD (2 * n + 1) 0) (tk.getD (2 * n) 0)

/-- `p[i] += _S_(p[j] ^ k)`. -/
def plusS {n : ℕ} (i j : Fin n) (k : Word) (p : Vector Word n) : Vector Word n :=
  p.set i (p.get i + sbox16 (p.get j ^^^ k)) i.isLt

/-- `p[i] += RotR1(p[j] ^ k)`. -/
def plusRot {n : ℕ} (i j : Fin n) (k : Word) (p : Vector Word n) : Vector Word n :=
  p.set i (p.get i + rotR1 (p.get j ^^^ k)) i.isLt

/-- One turn of the loop of phase1. The last addition is the counter of the loop. -/
def phase1Turn (tk : List Byte) (p1k : Vector Word 5) (i : ℕ) : Vector Word 5 :=
  let k n := tk16 tk ((i &&& 1) + n)
  let p1k := plusS 0 4 (k 0) p1k
  let p1k := plusS 1 0 (k 2) p1k
  let p1k := plusS 2 1 (k 4) p1k
  let p1k := plusS 3 2 (k 6) p1k
  let p1k := plusS 4 3 (k 0) p1k
  p1k.set 4 (p1k[4] + BitVec.ofNat 16 i)

def phase1Start (ta : List Byte) (iv32 : BitVec 32) : Vector Word 5 :=
  #v[lo16 iv32, hi16 iv32, mk16 (ta.getD 1 0) (ta.getD 0 0), mk16 (ta.getD 3 0) (ta.getD 2 0),
    mk16 (ta.getD 5 0) (ta.getD 4 0)]

/-- `p1k`. The number of turns is PHASE1_LOOP_CNT. -/
def phase1 (tk ta : List Byte) (iv32 : BitVec 32) : Vector Word 5 :=
  (List.range 8).foldl (phase1Turn tk) (phase1Start ta iv32)

def phase2Start (p1k : Vector Word 5) (iv16 : Word) : Vector Word 6 := p1k.push (p1k[4] + iv16)

/-- The mixing of PPK. -/
def phase2Mix (tk : List Byte) (ppk : Vector Word 6) : Vector Word 6 :=
  let ppk := plusS 0 5 (tk16 tk 0) ppk
  let ppk := plusS 1 0 (tk16 tk 1) ppk
  let ppk := plusS 2 1 (tk16 tk 2) ppk
  let ppk := plusS 3 2 (tk16 tk 3) ppk
  let ppk := plusS 4 3 (tk16 tk 4) ppk
  let ppk := plusS 5 4 (tk16 tk 5) ppk
  let ppk := plusRot 0 5 (tk16 tk 6) ppk
  let ppk := plusRot 1 0 (tk16 tk 7) ppk
  let ppk := plusRot 2 1 0 ppk
  let ppk := plusRot 3 2 0 ppk
  let ppk := plusRot 4 3 0 ppk
  plusRot 5 4 0 ppk

/-- `rc4key`. -/
def phase2 (tk : List Byte) (p1k : Vector Word 5) (iv16 : Word) : List Byte :=
  let ppk := phase2Mix tk (phase2Start p1k iv16)
  [hi8 iv16, (hi8 iv16 ||| 0x20) &&& 0x7F, lo8 iv16, lo8 ((ppk[5] ^^^ tk16 tk 0) >>> 1)] ++
    ppk.toList.flatMap fun v => [lo8 v, hi8 v]

variable {n : ℕ} {tk ta ta' : List Byte} {iv32 iv32' : BitVec 32} {iv16 iv16' : Word}

def stepOf (i j : Fin n) (h : i ≠ j) (f : Word → Word) : Step n Word :=
  ⟨i, j, h, (· + ·), fun c _ _ => (BitVec.add_left_inj c).mp, f⟩

theorem plusS_injective {i j : Fin n} (h : i ≠ j) (k : Word) : Function.Injective (plusS i j k) :=
  (stepOf i j h fun v => sbox16 (v ^^^ k)).run_injective

theorem plusRot_injective {i j : Fin n} (h : i ≠ j) (k : Word) :
    Function.Injective (plusRot i j k) :=
  (stepOf i j h fun v => rotR1 (v ^^^ k)).run_injective

theorem phase1Turn_injective (i : ℕ) : Function.Injective (phase1Turn tk · i) := by
  have hc : Function.Injective fun p : Vector Word 5 => p.set 4 (p[4] + BitVec.ofNat 16 i) :=
    (stepOf 4 0 (by decide) fun _ => BitVec.ofNat 16 i).run_injective
  exact hc.comp <| (plusS_injective (by decide) _).comp <| (plusS_injective (by decide) _).comp <|
    (plusS_injective (by decide) _).comp <| (plusS_injective (by decide) _).comp <|
    plusS_injective (by decide) _

theorem phase1Turns_injective (l : List ℕ) :
    Function.Injective fun p : Vector Word 5 => l.foldl (phase1Turn tk) p := by
  induction l with
  | nil => exact Function.injective_id
  | cons i l ih => exact ih.comp (phase1Turn_injective i)

theorem phase2Mix_injective : Function.Injective (phase2Mix tk) := by
  have s {i j : Fin 6} (h : i ≠ j) (k : Word) := plusS_injective h k
  have r {i j : Fin 6} (h : i ≠ j) (k : Word) := plusRot_injective h k
  exact (r (by decide) _).comp <| (r (by decide) _).comp <| (r (by decide) _).comp <|
    (r (by decide) _).comp <| (r (by decide) _).comp <| (r (by decide) _).comp <|
    (s (by decide) _).comp <| (s (by decide) _).comp <| (s (by decide) _).comp <|
    (s (by decide) _).comp <| (s (by decide) _).comp <| s (by decide) _

theorem mk16_eq (h l : Byte) : mk16 h l = word [l, h] := by simp [mk16, word]

theorem mk16_inj {h l h' l' : Byte} (he : mk16 h l = mk16 h' l') : l = l' ∧ h = h' := by
  rw [mk16_eq, mk16_eq] at he
  have hb := congrArg (bytes 2) he
  rw [bytes_word (n := 2) rfl (Nat.le_refl 16), bytes_word (n := 2) rfl (Nat.le_refl 16)] at hb
  simpa using hb

theorem word_inj {v v' : Word} (hl : lo8 v = lo8 v') (hh : hi8 v = hi8 v') : v = v' := by
  have hb : bytes 2 v = bytes 2 v' := congrArg₂ (fun a b => [a, b]) hl hh
  have hw (v : Word) : word (bytes 2 v) = v :=
    word_bytes fun i hi => BitVec.getLsbD_of_ge v i (by omega)
  rw [← hw v, hb, hw]

theorem iv32_inj (hl : lo16 iv32 = lo16 iv32') (hh : hi16 iv32 = hi16 iv32') : iv32 = iv32' := by
  have hl' := congrArg BitVec.toNat hl
  have hh' := congrArg BitVec.toNat hh
  simp only [lo16, hi16, BitVec.toNat_setWidth, BitVec.toNat_ushiftRight,
    Nat.shiftRight_eq_div_pow] at hl' hh'
  have := iv32.isLt
  have := iv32'.isLt
  exact BitVec.eq_of_toNat_eq (by omega)

theorem phase1Start_inj (ht : ta.length = 6) (ht' : ta'.length = 6)
    (h : phase1Start ta iv32 = phase1Start ta' iv32') : ta = ta' ∧ iv32 = iv32' := by
  obtain ⟨a₀, a₁, a₂, a₃, a₄, a₅, rfl⟩ : ∃ a₀ a₁ a₂ a₃ a₄ a₅, ta = [a₀, a₁, a₂, a₃, a₄, a₅] := by
    match ta, ht with
    | [a₀, a₁, a₂, a₃, a₄, a₅], _ => exact ⟨a₀, a₁, a₂, a₃, a₄, a₅, rfl⟩
  obtain ⟨b₀, b₁, b₂, b₃, b₄, b₅, rfl⟩ : ∃ b₀ b₁ b₂ b₃ b₄ b₅, ta' = [b₀, b₁, b₂, b₃, b₄, b₅] := by
    match ta', ht' with
    | [b₀, b₁, b₂, b₃, b₄, b₅], _ => exact ⟨b₀, b₁, b₂, b₃, b₄, b₅, rfl⟩
  obtain ⟨rfl, rfl⟩ := mk16_inj (congrArg (·[2]) h)
  obtain ⟨rfl, rfl⟩ := mk16_inj (congrArg (·[3]) h)
  obtain ⟨rfl, rfl⟩ := mk16_inj (congrArg (·[4]) h)
  exact ⟨rfl, iv32_inj (congrArg (·[0]) h) (congrArg (·[1]) h)⟩

theorem phase2Start_inj {p p' : Vector Word 5} (h : phase2Start p iv16 = phase2Start p' iv16') :
    p = p' ∧ iv16 = iv16' := by
  obtain ⟨hlast, rfl⟩ := Vector.push_eq_push.mp h
  exact ⟨rfl, (BitVec.add_right_inj _).mp hlast⟩

/-- The bytes of words tell the words. -/
theorem flatMap_bytes_inj {l l' : List Word}
    (h : l.flatMap (fun v => [lo8 v, hi8 v]) = l'.flatMap fun v => [lo8 v, hi8 v]) : l = l' := by
  induction l generalizing l' with
  | nil =>
    cases l' with
    | nil => rfl
    | cons => cases h
  | cons v l ih =>
    cases l' with
    | nil => cases h
    | cons v' l' =>
      obtain ⟨hv, hl⟩ := List.append_inj h rfl
      obtain ⟨hlo, hhi⟩ := List.cons.inj hv
      rw [word_inj hlo (List.cons.inj hhi).1, ih hl]

/-- The twelve bytes behind the first four are PPK. -/
theorem phase2_inj {p p' : Vector Word 5} (h : phase2 tk p iv16 = phase2 tk p' iv16') :
    phase2Mix tk (phase2Start p iv16) = phase2Mix tk (phase2Start p' iv16') := by
  unfold phase2 at h
  generalize phase2Mix tk (phase2Start p iv16) = x at h ⊢
  generalize phase2Mix tk (phase2Start p' iv16') = y at h ⊢
  exact Vector.toList_inj.mp (flatMap_bytes_inj (List.append_inj h rfl).2)

/-- What the comment in phase2 says: for one temporal key, the key of the packet tells the
address of the sender and the packet number. -/
theorem packet_key_unique (ht : ta.length = 6) (ht' : ta'.length = 6) :
    phase2 tk (phase1 tk ta iv32) iv16 = phase2 tk (phase1 tk ta' iv32') iv16' ↔
      ta = ta' ∧ iv32 = iv32' ∧ iv16 = iv16' := by
  constructor
  · intro h
    obtain ⟨hp, hiv⟩ := phase2Start_inj (phase2Mix_injective (phase2_inj h))
    obtain ⟨hta, hiv32⟩ := phase1Start_inj ht ht' (phase1Turns_injective _ hp)
    exact ⟨hta, hiv32, hiv⟩
  · rintro ⟨rfl, rfl, rfl⟩
    rfl

/-- The next packet of one sender. -/
theorem packet_key_unique_next :
    phase2 (List.replicate 16 9) (phase1 (List.replicate 16 9) [1, 2, 3, 4, 5, 6] 7) 8 ≠
      phase2 (List.replicate 16 9) (phase1 (List.replicate 16 9) [1, 2, 3, 4, 5, 6] 7) 9 :=
  mt (packet_key_unique rfl rfl).mp (by decide)

end Okm6ullOta.TkipKeys
