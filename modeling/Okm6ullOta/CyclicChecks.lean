import Mathlib.Tactic.Common
import Mathlib.Logic.Function.Iterate
import Okm6ullOta.StreamCiphers

/-!
# Cyclic redundancy checks

The register of a check which takes bytes low bit first, for any width and any polynomial
whose highest coefficient is set. It is linear, it can be fed from a table of 256 words,
and it sees every change which is confined to as many bytes as the register has.
-/
namespace Okm6ullOta.CyclicChecks
open StreamCiphers (xors)

variable {w : ℕ} (p : BitVec w)

/-- One bit is divided off. -/
def shift (r : BitVec w) : BitVec w := if r.getLsbD 0 then (r >>> 1) ^^^ p else r >>> 1

def feed (r : BitVec w) (b : BitVec 8) : BitVec w := (shift p)^[8] (r ^^^ b.setWidth w)

def register (r : BitVec w) (bs : List (BitVec 8)) : BitVec w := bs.foldl (feed p) r

variable {p} {r s x y : BitVec w} {b c : BitVec 8} {bs cs ds : List (BitVec 8)} {n k : ℕ}

theorem shift_xor : shift p (x ^^^ y) = shift p x ^^^ shift p y := by
  unfold shift
  rw [BitVec.getLsbD_xor, BitVec.ushiftRight_xor_distrib]
  cases x.getLsbD 0 <;> cases y.getLsbD 0
  · rfl
  · exact BitVec.xor_assoc _ _ _
  · simp only [Bool.xor_false, if_true, Bool.false_eq_true, if_false]
    rw [BitVec.xor_assoc, BitVec.xor_comm _ p, ← BitVec.xor_assoc]
  · simp only [Bool.xor_self, Bool.false_eq_true, if_false, if_true]
    rw [BitVec.xor_assoc, ← BitVec.xor_assoc p, BitVec.xor_comm p, BitVec.xor_assoc _ p p,
      BitVec.xor_self, BitVec.xor_zero]

theorem shifts_xor (n : ℕ) : (shift p)^[n] (x ^^^ y) = (shift p)^[n] x ^^^ (shift p)^[n] y := by
  induction n generalizing x y with
  | zero => rfl
  | succ n ih => rw [Function.iterate_succ_apply, shift_xor, ih]; rfl

@[simp] theorem shifts_zero (n : ℕ) : (shift p)^[n] 0 = 0 :=
  Function.iterate_fixed (by simp [shift]) n

/-- Clear low bits only move the register down. -/
theorem shifts_clear (h : ∀ i < n, x.getLsbD i = false) : (shift p)^[n] x = x >>> n := by
  induction n with
  | zero => rw [Function.iterate_zero, BitVec.ushiftRight_zero]; rfl
  | succ n ih =>
    have hb : (x >>> n).getLsbD 0 = false := by
      rw [BitVec.getLsbD_ushiftRight]
      exact h n (Nat.lt_succ_self n)
    rw [Function.iterate_succ_apply', ih fun i hi => h i (Nat.lt_succ_of_lt hi), shift, hb,
      BitVec.shiftRight_add]
    rfl

theorem low_xor_high (k : ℕ) : x = (x.setWidth k).setWidth w ^^^ (x >>> k) <<< k := by
  ext i hi
  rw [BitVec.getElem_xor, BitVec.getElem_setWidth, BitVec.getLsbD_setWidth,
    BitVec.getElem_shiftLeft, BitVec.getElem_ushiftRight]
  by_cases h : i < k
  · simp [h, BitVec.getLsbD_eq_getElem hi]
  · have hk : k + (i - k) = i := by omega
    simp [h, hk, BitVec.getLsbD_eq_getElem hi]

theorem shifts_shiftLeft (n : ℕ) (h : ∀ i, w ≤ i + n → x.getLsbD i = false) :
    (shift p)^[n] (x <<< n) = x := by
  rw [shifts_clear fun i hi => by simp [hi]]
  ext i hi
  rw [BitVec.getElem_ushiftRight, BitVec.getLsbD_shiftLeft]
  by_cases hw : n + i < w
  · simp [hw, BitVec.getLsbD_eq_getElem hi]
  · rw [← BitVec.getLsbD_eq_getElem hi, h i (by omega)]
    simp [hw]

theorem ushiftRight_bit (h : w ≤ n + k) : (x >>> n).getLsbD k = false := by
  rw [BitVec.getLsbD_ushiftRight]
  exact BitVec.getLsbD_of_ge x _ h

/-- The low bits go through the table, the others move down. -/
theorem shifts_table (n : ℕ) :
    (shift p)^[n] x = (shift p)^[n] ((x.setWidth n).setWidth w) ^^^ x >>> n := by
  conv_lhs => rw [low_xor_high (x := x) n]
  rw [shifts_xor, shifts_shiftLeft n fun i hi => ushiftRight_bit (by omega)]

theorem byte_above : (b.setWidth w) >>> 8 = 0#w := by
  ext i hi
  rw [BitVec.getElem_ushiftRight, BitVec.getLsbD_setWidth, BitVec.getLsbD_of_ge b _ (by omega)]
  simp

theorem feed_table :
    feed p r b = (shift p)^[8] (((r ^^^ b.setWidth w).setWidth 8).setWidth w) ^^^ r >>> 8 := by
  rw [feed, shifts_table, BitVec.ushiftRight_xor_distrib, byte_above, BitVec.xor_zero]

@[simp] theorem register_nil : register p r [] = r := rfl

theorem register_cons : register p r (b :: bs) = register p (feed p r b) bs := rfl

theorem register_append : register p r (bs ++ cs) = register p (register p r bs) cs :=
  List.foldl_append

theorem feed_xor : feed p (r ^^^ s) (b ^^^ c) = feed p r b ^^^ feed p s c := by
  rw [feed, feed, feed, ← shifts_xor, BitVec.setWidth_xor]
  congr 1
  rw [BitVec.xor_assoc, ← BitVec.xor_assoc s, BitVec.xor_comm s, BitVec.xor_assoc _ s,
    ← BitVec.xor_assoc r]

/-- The register of a changed text. -/
theorem register_xors (h : bs.length = ds.length) :
    register p (r ^^^ s) (xors bs ds) = register p r bs ^^^ register p s ds := by
  induction bs generalizing r s ds with
  | nil =>
    obtain rfl := List.length_eq_zero_iff.mp h.symm
    rfl
  | cons b bs ih =>
    cases ds with
    | nil => cases h
    | cons d ds =>
      rw [xors, List.zipWith_cons_cons, register_cons, register_cons, register_cons, feed_xor]
      exact ih (Nat.succ.inj h)

def word : List (BitVec 8) → BitVec w
  | [] => 0
  | b :: bs => b.setWidth w ^^^ word bs <<< 8

def bytes : ℕ → BitVec w → List (BitVec 8)
  | 0, _ => []
  | n + 1, r => r.setWidth 8 :: bytes n (r >>> 8)

@[simp] theorem bytes_length : (bytes n r).length = n := by
  induction n generalizing r with
  | zero => rfl
  | succ n ih => simp [bytes, ih]

theorem bytes_xor : bytes n (r ^^^ s) = xors (bytes n r) (bytes n s) := by
  induction n generalizing r s with
  | zero => rfl
  | succ n ih =>
    rw [bytes, BitVec.setWidth_xor, BitVec.ushiftRight_xor_distrib, ih]
    rfl

theorem word_bit (k : ℕ) (h : 8 * bs.length ≤ k) : (word bs : BitVec w).getLsbD k = false := by
  induction bs generalizing k with
  | nil => simp [word]
  | cons b bs ih =>
    rw [List.length_cons] at h
    rw [word, BitVec.getLsbD_xor, BitVec.getLsbD_setWidth, BitVec.getLsbD_shiftLeft,
      BitVec.getLsbD_of_ge b k (by omega), ih (k - 8) (by omega)]
    simp

theorem word_snoc :
    (word (bs ++ [b]) : BitVec w) = word bs ^^^ b.setWidth w <<< (8 * bs.length) := by
  induction bs with
  | nil => simp [word]
  | cons c bs ih =>
    rw [List.cons_append, word, ih, word, List.length_cons, BitVec.shiftLeft_xor_distrib,
      ← BitVec.shiftLeft_add, Nat.mul_succ, BitVec.xor_assoc]

theorem word_bytes (h : ∀ i, 8 * n ≤ i → r.getLsbD i = false) : word (bytes n r) = r := by
  induction n generalizing r with
  | zero =>
    refine (BitVec.eq_of_getLsbD_eq fun i hi => ?_).symm
    rw [h i (by omega)]
    simp [word, bytes]
  | succ n ih =>
    rw [bytes, word, ih fun i hi => ?_, ← low_xor_high]
    rw [BitVec.getLsbD_ushiftRight]
    exact h _ (by omega)

theorem bytes_word (h : bs.length = n) (hw : 8 * n ≤ w) : bytes n (word bs : BitVec w) = bs := by
  induction bs generalizing n with
  | nil =>
    obtain rfl := h
    rfl
  | cons b bs ih =>
    obtain rfl := h
    rw [List.length_cons] at hw ⊢
    have hb : (b.setWidth w ^^^ word bs <<< 8 : BitVec w).setWidth 8 = b := by
      ext i hi
      simp only [BitVec.getElem_setWidth, BitVec.getLsbD_xor, BitVec.getLsbD_setWidth,
        BitVec.getLsbD_shiftLeft, hi, decide_true, Bool.not_true, Bool.and_false,
        Bool.false_and, Bool.xor_false, BitVec.getLsbD_eq_getElem hi]
      simp
      omega
    have ht : (b.setWidth w ^^^ word bs <<< 8 : BitVec w) >>> 8 = word bs := by
      refine BitVec.eq_of_getLsbD_eq fun i hi => ?_
      rw [BitVec.getLsbD_ushiftRight, BitVec.getLsbD_xor, BitVec.getLsbD_setWidth,
        BitVec.getLsbD_of_ge b _ (by omega), BitVec.getLsbD_shiftLeft, Nat.add_sub_cancel_left]
      by_cases h' : 8 + i < w
      · simp [h']
      · rw [word_bit i (by omega)]
        simp
    rw [bytes, word, hb, ht, ih rfl (by omega)]

/-- As many bytes as the register has go in as one word. -/
theorem register_word (h : 8 * bs.length ≤ w) :
    register p r bs = (shift p)^[8 * bs.length] (r ^^^ word bs) := by
  induction bs generalizing r with
  | nil => simp [word]
  | cons b bs ih =>
    rw [List.length_cons] at h ⊢
    have hw : (shift p)^[8] ((word bs : BitVec w) <<< 8) = word bs :=
      shifts_shiftLeft 8 fun i hi => word_bit i (by omega)
    rw [register_cons, ih (by omega), feed, word, ← BitVec.xor_assoc,
      Nat.mul_succ, Function.iterate_add_apply, shifts_xor (x := r ^^^ b.setWidth w) 8, hw]

theorem shift_eq_zero (hp : p.msb = true) : shift p x = 0 ↔ x = 0 := by
  constructor
  · intro h
    unfold shift at h
    split_ifs at h with hb
    · have hm := congrArg BitVec.msb h
      rw [BitVec.msb_xor, hp, BitVec.msb_ushiftRight] at hm
      simp at hm
    · refine BitVec.eq_of_getLsbD_eq fun i hi => ?_
      cases i with
      | zero => simpa using hb
      | succ i =>
        have hi := congrArg (BitVec.getLsbD · i) h
        rw [BitVec.getLsbD_ushiftRight, Nat.add_comm] at hi
        rw [hi]
        simp
  · rintro rfl
    simp [shift]

theorem shifts_eq_zero (hp : p.msb = true) : (shift p)^[n] x = 0 ↔ x = 0 := by
  induction n generalizing x with
  | zero => rfl
  | succ n ih => rw [Function.iterate_succ_apply, ih, shift_eq_zero hp]

/-- A trailing check changed by `es` still fits a text changed by `ds` exactly if the
register takes both changes back to zero. -/
theorem register_eq_zero_iff (hp : p.msb = true) (h : 8 * cs.length ≤ w) :
    register p r (ds ++ cs) = 0 ↔ register p r ds = word cs := by
  rw [register_append, register_word h, shifts_eq_zero hp]
  exact BitVec.xor_eq_zero_iff

theorem register_zeros (hp : p.msb = true) (n : ℕ) :
    register p r (List.replicate n 0) = 0 ↔ r = 0 := by
  induction n generalizing r with
  | zero => rfl
  | succ n ih =>
    rw [List.replicate_succ, register_cons, ih, feed, shifts_eq_zero hp]
    simp

theorem word_eq_zero (h : 8 * cs.length ≤ w) :
    (word cs : BitVec w) = 0 ↔ cs = List.replicate cs.length 0 := by
  constructor
  · intro h₀
    have hb := bytes_word (w := w) (rfl : cs.length = cs.length) h
    rw [h₀] at hb
    rw [← hb, bytes_length]
    clear hb h h₀
    generalize cs.length = n
    induction n with
    | zero => rfl
    | succ n ih =>
      rw [List.replicate_succ, ← ih, bytes]
      simp
  · intro h₀
    rw [h₀]
    generalize cs.length = n
    induction n with
    | zero => rfl
    | succ n ih =>
      rw [List.replicate_succ, word, ih]
      simp

/-- A burst of at most the width of the register is seen, wherever it stands. -/
theorem register_burst (hp : p.msb = true) (h : 8 * cs.length ≤ w) (m n : ℕ) :
    register p 0 (List.replicate m 0 ++ (cs ++ List.replicate n 0)) = 0 ↔
      cs = List.replicate cs.length 0 := by
  rw [register_append, (register_zeros hp m).mpr rfl, register_append, register_zeros hp,
    register_word h, shifts_eq_zero hp]
  rw [show (0 : BitVec w) ^^^ word cs = word cs from BitVec.zero_xor]
  exact word_eq_zero h

end Okm6ullOta.CyclicChecks
