import Mathlib.Tactic.Common
import Mathlib.Data.List.Basic
import Mathlib.Data.List.GetD

/-!
# Logs of records in memory

Records of different lengths stand one after the other from address 0 on, and what
follows the last one is blank. Memory is read by loops which go from record to
record, and written one byte after the other behind the last record.
-/
namespace Okm6ullOta.RecordLogs

variable {β ρ σ : Type*}

/-- The list stands in memory from address `a` on. -/
def Stores (m : ℕ → β) (a : ℕ) (l : List β) : Prop := ∀ i (h : i < l.length), m (a + i) = l[i]

variable {m m' : ℕ → β} {a : ℕ} {l l' : List β} {x : β}

@[simp] theorem stores_nil : Stores m a [] := fun i h => absurd h (Nat.not_lt_zero i)

@[simp] theorem stores_cons : Stores m a (x :: l) ↔ m a = x ∧ Stores m (a + 1) l := by
  constructor
  · intro h
    refine ⟨h 0 (Nat.zero_lt_succ _), fun i hi => ?_⟩
    have := h (i + 1) (Nat.succ_lt_succ hi)
    rwa [List.getElem_cons_succ, show a + (i + 1) = a + 1 + i by omega] at this
  · rintro ⟨h₀, h⟩ i hi
    cases i with
    | zero => exact h₀
    | succ i =>
      rw [List.getElem_cons_succ, show a + (i + 1) = a + 1 + i by omega]
      exact h i (Nat.lt_of_succ_lt_succ hi)

theorem stores_append : Stores m a (l ++ l') ↔ Stores m a l ∧ Stores m (a + l.length) l' := by
  induction l generalizing a with
  | nil => simp
  | cons y l ih =>
    rw [List.cons_append, stores_cons, stores_cons, ih, List.length_cons, and_assoc,
      show a + 1 + l.length = a + (l.length + 1) by omega]

theorem Stores.congr (h : Stores m a l) (hm : ∀ b, a ≤ b → b < a + l.length → m' b = m b) :
    Stores m' a l := fun i hi => by
  rw [hm (a + i) (Nat.le_add_right a i) (by omega)]
  exact h i hi

variable {encode : ρ → List β} {blank : β} {size : ℕ} {rs : List ρ} {r : ρ}

/-- The length of the log. -/
def used (encode : ρ → List β) (rs : List ρ) : ℕ := (rs.flatMap encode).length

@[simp] theorem used_nil : used encode [] = 0 := rfl

theorem used_append (rs rs' : List ρ) :
    used encode (rs ++ rs') = used encode rs + used encode rs' := by
  rw [used, List.flatMap_append, List.length_append]
  rfl

theorem used_snoc : used encode (rs ++ [r]) = used encode rs + (encode r).length := by
  rw [used_append]
  simp [used]

/-- Memory of `size` cells holds the log and is blank behind it. -/
structure Holds (encode : ρ → List β) (blank : β) (size : ℕ) (m : ℕ → β) (rs : List ρ) : Prop where
  stored : Stores m 0 (rs.flatMap encode)
  blank : ∀ b, used encode rs ≤ b → b < size → m b = blank

/-- Memory which is filled with the log. -/
theorem holds_getD (encode : ρ → List β) (blank : β) (size : ℕ) (rs : List ρ) :
    Holds encode blank size (fun a => (rs.flatMap encode).getD a blank) rs where
  stored := fun i hi => by
    rw [Nat.zero_add]
    exact List.getD_eq_getElem _ _ hi
  blank := fun _ hb _ => List.getD_eq_default _ _ hb

theorem Holds.record {pre post : List ρ} (h : Holds encode blank size m (pre ++ r :: post)) :
    Stores m (used encode pre) (encode r) := by
  have hs := h.stored
  rw [List.flatMap_append, stores_append, List.flatMap_cons, stores_append, Nat.zero_add] at hs
  exact hs.2.1

theorem Holds.extend (h : Holds encode blank size m rs)
    (hr : Stores m' (used encode rs) (encode r)) (hm : ∀ b, b < used encode rs → m' b = m b)
    (hm' : ∀ b, used encode rs + (encode r).length ≤ b → m' b = m b) :
    Holds encode blank size m' (rs ++ [r]) where
  stored := by
    rw [List.flatMap_append, List.flatMap_singleton, stores_append, Nat.zero_add]
    exact ⟨h.stored.congr fun b _ hb => hm b (by simpa [used] using hb), hr⟩
  blank := fun b hb hbs => by
    rw [used_snoc] at hb
    rw [hm' b hb]
    exact h.blank b (by omega) hbs

/-- The start of a record of the log, or its end. -/
def Boundary (encode : ρ → List β) (rs : List ρ) (a : ℕ) : Prop :=
  ∃ pre post, rs = pre ++ post ∧ a = used encode pre

theorem boundary_zero : Boundary encode rs 0 := ⟨[], rs, rfl, rfl⟩

theorem boundary_used : Boundary encode rs (used encode rs) :=
  ⟨rs, [], (List.append_nil rs).symm, rfl⟩

theorem Boundary.append (h : Boundary encode rs a) (rs' : List ρ) :
    Boundary encode (rs ++ rs') a := by
  obtain ⟨pre, post, rfl, rfl⟩ := h
  exact ⟨pre, post ++ rs', List.append_assoc .., rfl⟩

/-- One turn of a loop over memory: go on at an address or leave with one. -/
inductive Turn (σ : Type*) where
  | go (a : ℕ) (s : σ)
  | leave (a : ℕ) (s : σ)

def walk (turn : ℕ → σ → Turn σ) : ℕ → ℕ → σ → ℕ × σ
  | 0, a, s => (a, s)
  | n + 1, a, s =>
    match turn a s with
    | .go b t => walk turn n b t
    | .leave b t => (b, t)

variable {turn : ℕ → σ → Turn σ} {f : σ → ρ → σ} {s : σ} {n : ℕ}

/-- A loop whose turns go over one record each goes over all records from a boundary on. -/
theorem walk_records {P : σ → Prop} (n : ℕ) (pre post : List ρ) (hs : P s)
    (hf : ∀ s r, P s → P (f s r))
    (hturn : ∀ pre' r post' s, P s → pre ++ post = pre' ++ r :: post' →
      turn (used encode pre') s = .go (used encode (pre' ++ [r])) (f s r)) :
    walk turn (post.length + n) (used encode pre) s =
      walk turn n (used encode (pre ++ post)) (post.foldl f s) := by
  induction post generalizing pre s with
  | nil => simp
  | cons r post ih =>
    have hr := hturn pre r post s hs rfl
    rw [List.length_cons, show post.length + 1 + n = post.length + n + 1 by omega, walk, hr]
    simp only
    rw [ih (pre ++ [r]) (hf s r hs) fun pre' r' post' s hs he =>
      hturn pre' r' post' s hs (by simpa using he)]
    simp

theorem walk_leave {b : ℕ} {t : σ} (h : turn a s = .leave b t) (hn : 0 < n) :
    walk turn n a s = (b, t) := by
  obtain ⟨k, rfl⟩ := Nat.exists_eq_add_one.mpr hn
  rw [walk, h]

/-- A loop whose turns bring a measure down ends, and more turns than the measure asks
for do not change what it ends with. -/
theorem walk_enough (μ : ℕ → σ → ℕ) {k : ℕ} (down : ∀ a s b t, turn a s = .go b t → μ b t < μ a s)
    (hn : μ a s < n) : walk turn (n + k) a s = walk turn n a s := by
  induction n generalizing a s with
  | zero => exact absurd hn (Nat.not_lt_zero _)
  | succ n ih =>
    rw [show n + 1 + k = n + k + 1 by omega, walk, walk]
    cases h : turn a s with
    | leave b t => rfl
    | go b t =>
      have hlt := down a s b t h
      exact ih (by omega)

/-- Two loops which take the same turns up to a relation of their variables. -/
theorem walk_related {τ : Type*} {turn₂ : ℕ → τ → Turn τ} {R : σ → τ → Prop} {t : τ}
    (h : ∀ a s t, R s t → (∃ b s' t', turn a s = .go b s' ∧ turn₂ a t = .go b t' ∧ R s' t') ∨
      ∃ b s' t', turn a s = .leave b s' ∧ turn₂ a t = .leave b t' ∧ R s' t') (hR : R s t) :
    (walk turn n a s).1 = (walk turn₂ n a t).1 ∧ R (walk turn n a s).2 (walk turn₂ n a t).2 := by
  induction n generalizing a s t with
  | zero => exact ⟨rfl, hR⟩
  | succ n ih =>
    rcases h a s t hR with ⟨b, s', t', h₁, h₂, hR'⟩ | ⟨b, s', t', h₁, h₂, hR'⟩
    · rw [walk, walk, h₁, h₂]
      exact ih hR'
    · rw [walk, walk, h₁, h₂]
      exact ⟨rfl, hR'⟩

end Okm6ullOta.RecordLogs
