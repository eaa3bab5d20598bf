import Mathlib.Tactic.Common

/-!
# Runs of a labelled transition system, and what an observer counts along them

A run lists its labels in order and grows at its end, so an invariant may
speak about the whole history. An observer is a value updated at every step
from the state before the step and the label; it never influences the run.
-/
namespace Okm6ullOta.LabelledRuns

variable {σ L γ : Type*}

inductive Run (step : σ → L → σ → Prop) : σ → List L → σ → Prop
  | nil {s : σ} : Run step s [] s
  | snoc {s t u : σ} {ls : List L} {l : L} :
      Run step s ls t → step t l u → Run step s (ls ++ [l]) u

variable {step step' : σ → L → σ → Prop}

theorem Run.single {s t : σ} {l : L} (h : step s l t) : Run step s [l] t := by
  have hs : Run step s [] s := .nil
  exact hs.snoc h

theorem Run.append {s t u : σ} {ls ms : List L} (h : Run step s ls t)
    (k : Run step t ms u) : Run step s (ls ++ ms) u := by
  induction k with
  | nil => simpa only [List.append_nil] using h
  | snoc _ hu ih =>
    rw [← List.append_assoc]
    exact .snoc ih hu

theorem Run.mono (hs : ∀ s l t, step s l t → step' s l t) {s t : σ} {ls : List L}
    (h : Run step s ls t) : Run step' s ls t := by
  induction h with
  | nil => exact .nil
  | snoc _ ht ih => exact .snoc ih (hs _ _ _ ht)

/-- What holds at the start and is kept by every step holds along every run. -/
theorem Run.invariant {I : σ → Prop} {s t : σ} {ls : List L} (h : Run step s ls t)
    (start : I s) (keep : ∀ s l t, I s → step s l t → I t) : I t := by
  induction h with
  | nil => exact start
  | snoc _ hs ih => exact keep _ _ _ ih hs

/-- The same system with an observer carried beside the state. -/
def Watched (step : σ → L → σ → Prop) (watch : γ → σ → L → γ) :
    σ × γ → L → σ × γ → Prop :=
  fun p l q => step p.1 l q.1 ∧ q.2 = watch p.2 p.1 l

/-- An invariant of the state and of what the observer has beside it. -/
theorem Run.watched {watch : γ → σ → L → γ} {I : σ → γ → Prop} {p q : σ × γ} {ls : List L}
    (h : Run (Watched step watch) p ls q) (start : I p.1 p.2)
    (keep : ∀ s g l t, I s g → step s l t → I t (watch g s l)) : I q.1 q.2 := by
  refine h.invariant (I := fun p => I p.1 p.2) start ?_
  rintro ⟨s, g⟩ l ⟨t, g'⟩ hi ⟨hs, rfl⟩
  exact keep s g l t hi hs

/-- Executable runs of a partial step function. -/
def replay (next : σ → L → Option σ) : σ → List L → Option σ
  | s, [] => some s
  | s, l :: ls => (next s l).bind fun t => replay next t ls

theorem replay_run {next : σ → L → Option σ} {s t : σ} {ls : List L}
    (h : replay next s ls = some t) : Run (fun s l t => next s l = some t) s ls t := by
  induction ls generalizing s with
  | nil =>
    obtain rfl := Option.some.inj h
    exact .nil
  | cons l ls ih =>
    obtain ⟨u, hu, ht⟩ := Option.bind_eq_some_iff.mp h
    exact (Run.single hu).append (ih ht)

theorem replay_any {next : σ → L → Option σ} {s : σ} {ls : List L} {wanted : σ → Bool}
    (h : (replay next s ls).any wanted) :
    ∃ t, Run (fun s l t => next s l = some t) s ls t ∧ wanted t := by
  obtain ⟨t, ht, hw⟩ := (Option.any_eq_true ..).mp h
  exact ⟨t, replay_run ht, hw⟩

section
variable (c : σ → L → Bool) (next : σ → L → Option σ) (watch : γ → σ → L → γ)

/-- A system which refuses the steps that fail a test. -/
def tested (s : σ) (l : L) : Option σ := if c s l then next s l else none

def observed (p : σ × γ) (l : L) : Option (σ × γ) :=
  (next p.1 l).map fun t => (t, watch p.2 p.1 l)

/-- The observed system, refusing the same steps. -/
def guarded : σ × γ → L → Option (σ × γ) := tested (fun p => c p.1) (observed next watch)

variable {c next watch} {allowed : σ → L → Prop}

/-- Where the test is sound for what is allowed, a replay of the tested system
which ends as wanted is a run. -/
theorem tested_run (sound : ∀ s l, c s l → allowed s l) (s : σ) (ls : List L) (wanted : σ → Bool)
    (h : (replay (tested c next) s ls).any wanted) :
    ∃ t, Run (fun s l t => allowed s l ∧ next s l = some t) s ls t ∧ wanted t := by
  obtain ⟨t, run, hw⟩ := replay_any h
  refine ⟨t, run.mono ?_, hw⟩
  intro s l t hs
  unfold tested at hs
  split_ifs at hs with hc
  exact ⟨sound s l hc, hs⟩

/-- The same for a system which refuses nothing. -/
theorem free_run (s : σ) (ls : List L) (wanted : σ → Bool)
    (h : (replay (tested (fun _ _ => true) next) s ls).any wanted) :
    ∃ t, Run (fun s l t => True ∧ next s l = some t) s ls t ∧ wanted t :=
  tested_run (fun _ _ _ => trivial) s ls wanted h

theorem observed_run (p : σ × γ) (ls : List L) (wanted : σ × γ → Bool)
    (h : (replay (observed next watch) p ls).any wanted) :
    ∃ q, Run (Watched (fun s l t => next s l = some t) watch) p ls q ∧ wanted q := by
  obtain ⟨q, run, hw⟩ := replay_any h
  refine ⟨q, run.mono ?_, hw⟩
  intro p l q hs
  obtain ⟨u, hu, rfl⟩ := Option.map_eq_some_iff.mp hs
  exact ⟨hu, rfl⟩

theorem guarded_run (sound : ∀ s l, c s l → allowed s l) (p : σ × γ) (ls : List L)
    (wanted : σ × γ → Bool) (h : (replay (guarded c next watch) p ls).any wanted) :
    ∃ q, Run (Watched (fun s l t => allowed s l ∧ next s l = some t) watch) p ls q ∧ wanted q := by
  have hr : (replay (tested (fun p => c p.1) (observed next watch)) p ls).any wanted := h
  obtain ⟨q, hq, hw⟩ := tested_run (fun p l => sound p.1 l) p ls wanted hr
  refine ⟨q, hq.mono ?_, hw⟩
  rintro p l q ⟨ha, hn⟩
  obtain ⟨u, hu, rfl⟩ := Option.map_eq_some_iff.mp hn
  exact ⟨⟨ha, hu⟩, rfl⟩

end
end Okm6ullOta.LabelledRuns
