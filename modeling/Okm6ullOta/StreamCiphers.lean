import Mathlib.Tactic.Common
import Mathlib.Data.List.Basic

/-!
# Stream ciphers

A generator hands out one word of keystream at a time, and a text is combined with it by
exclusive or. The states of the generator do not depend on the text, so the same
generator takes the keystream off again, and a change of the masked text is the same
change of the text.
-/
namespace Okm6ullOta.StreamCiphers

variable {σ : Type*} {w : ℕ} (next : σ → BitVec w × σ)

/-- The text under the keystream from a state on, and the state after it. -/
def mask : σ → List (BitVec w) → List (BitVec w) × σ
  | s, [] => ([], s)
  | s, x :: xs =>
    let r := next s
    let t := mask r.2 xs
    ((x ^^^ r.1) :: t.1, t.2)

/-- Two texts of one length, word by word. -/
def xors (xs ys : List (BitVec w)) : List (BitVec w) := List.zipWith (· ^^^ ·) xs ys

variable {next} {s : σ} {xs ys ds : List (BitVec w)}

@[simp] theorem mask_length : (mask next s xs).1.length = xs.length := by
  induction xs generalizing s with
  | nil => rfl
  | cons x xs ih => simp [mask, ih]

@[simp] theorem xors_length : (xors xs ds).length = min xs.length ds.length := by simp [xors]

theorem xors_append (h : xs.length = ds.length) (ys es : List (BitVec w)) :
    xors (xs ++ ys) (ds ++ es) = xors xs ds ++ xors ys es := List.zipWith_append h

theorem xors_xors (h : xs.length = ds.length) : xors xs (xors xs ds) = ds := by
  induction xs generalizing ds with
  | nil => exact (List.length_eq_zero_iff.mp h.symm).symm
  | cons x xs ih =>
    cases ds with
    | nil => cases h
    | cons d ds =>
      have ht := ih (Nat.succ.inj h)
      rw [xors, xors] at ht
      rw [xors, xors, List.zipWith_cons_cons, List.zipWith_cons_cons, ht, ← BitVec.xor_assoc,
        BitVec.xor_self, BitVec.zero_xor]

theorem xors_inj {es : List (BitVec w)} (hd : xs.length = ds.length) (he : xs.length = es.length) :
    xors xs ds = xors xs es ↔ ds = es := by
  refine ⟨fun h => ?_, fun h => h ▸ rfl⟩
  rw [← xors_xors hd, h, xors_xors he]

theorem mask_append : (mask next s (xs ++ ys)).1 =
    (mask next s xs).1 ++ (mask next (mask next s xs).2 ys).1 := by
  induction xs generalizing s with
  | nil => rfl
  | cons x xs ih => simp [mask, ih]

theorem mask_mask : (mask next s (mask next s xs).1).1 = xs := by
  induction xs generalizing s with
  | nil => rfl
  | cons x xs ih =>
    rw [mask, mask, ih, BitVec.xor_assoc, BitVec.xor_self, BitVec.xor_zero]

/-- A change of the text changes the masked text in the same places. -/
theorem mask_xors : (mask next s (xors xs ds)).1 = xors (mask next s xs).1 ds := by
  induction xs generalizing s ds with
  | nil => rfl
  | cons x xs ih =>
    cases ds with
    | nil => rfl
    | cons d ds =>
      rw [xors, List.zipWith_cons_cons]
      simp only [mask]
      rw [show List.zipWith (· ^^^ ·) xs ds = xors xs ds from rfl, ih, xors, xors,
        List.zipWith_cons_cons, BitVec.xor_assoc, BitVec.xor_comm d, BitVec.xor_assoc]

/-- What the generator keeps, masking keeps. -/
theorem mask_invariant {I : σ → Prop} (step : ∀ s, I s → I (next s).2) (h : I s) :
    I (mask next s xs).2 := by
  induction xs generalizing s with
  | nil => exact h
  | cons x xs ih => exact ih (step s h)

end Okm6ullOta.StreamCiphers
