import Mathlib.Tactic.Common
import Mathlib.Logic.Function.Basic

/-!
# Unbalanced Feistel steps

A step combines one of `n` registers with a function of another one. Whatever the function is,
the step can be taken back, and so can any sequence of steps.
-/
namespace Okm6ullOta.FeistelSteps

/-- `x[target]` is combined with `f x[source]`. -/
structure Step (n : ℕ) (G : Type*) where
  target : Fin n
  source : Fin n
  apart : target ≠ source
  combine : G → G → G
  cancel : ∀ c, Function.Injective (combine · c)
  f : G → G

variable {n : ℕ} {G : Type*}

def Step.run (t : Step n G) (x : Vector G n) : Vector G n :=
  x.set t.target (t.combine x[t.target] (t.f x[t.source]))

theorem Step.run_of_ne (t : Step n G) (x : Vector G n) {i : Fin n} (h : t.target ≠ i) :
    (t.run x)[i] = x[i] :=
  Vector.getElem_set_ne _ _ fun he => h (Fin.ext he)

theorem Step.run_target (t : Step n G) (x : Vector G n) :
    (t.run x)[t.target] = t.combine x[t.target] (t.f x[t.source]) :=
  Vector.getElem_set_self _

theorem Step.run_injective (t : Step n G) : Function.Injective t.run := by
  intro x y h
  have hi (i : Fin n) : (t.run x)[i] = (t.run y)[i] := by rw [h]
  have hs : x[t.source] = y[t.source] := by
    have hs := hi t.source
    rwa [t.run_of_ne x t.apart, t.run_of_ne y t.apart] at hs
  have hall (i : Fin n) : x[i] = y[i] := by
    by_cases he : t.target = i
    · subst he
      have ht := hi t.target
      rw [t.run_target, t.run_target, hs] at ht
      exact t.cancel _ ht
    · have hk := hi i
      rwa [t.run_of_ne x he, t.run_of_ne y he] at hk
  exact Vector.ext fun i hn => hall ⟨i, hn⟩

def run (ts : List (Step n G)) (x : Vector G n) : Vector G n := ts.foldl (fun x t => t.run x) x

theorem run_injective (ts : List (Step n G)) : Function.Injective (run ts) := by
  induction ts with
  | nil => exact Function.injective_id
  | cons t ts ih => exact ih.comp t.run_injective

end Okm6ullOta.FeistelSteps
