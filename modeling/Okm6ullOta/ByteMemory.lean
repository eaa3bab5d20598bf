import Mathlib.Tactic.Common
import Mathlib.Data.List.Basic

/-!
# Ranges of memory

Reading a range of cells and overwriting one, on a memory with one address space.
Overwriting is stated against reading: the range itself, a range away from it, and
a range which is read in parts.
-/
namespace Okm6ullOta.ByteMemory

variable {β : Type*}

/-- The `n` cells from address `a` on. -/
def load (m : ℕ → β) (a n : ℕ) : List β := (List.range' a n).map m

/-- The list is put at address `a`. -/
def store (m : ℕ → β) (a : ℕ) (l : List β) : ℕ → β := fun x =>
  if h : a ≤ x ∧ x - a < l.length then l[x - a] else m x

variable {m m' : ℕ → β} {a b n k : ℕ} {l l' : List β}

@[simp] theorem load_length : (load m a n).length = n := by simp [load]

@[simp] theorem load_zero : load m a 0 = [] := rfl

theorem load_add : load m a (n + k) = load m a n ++ load m (a + n) k := by
  rw [load, ← List.range'_append_1, List.map_append]
  rfl

theorem getElem_load (i : ℕ) (h : i < (load m a n).length) : (load m a n)[i] = m (a + i) := by
  simp [load]

theorem load_congr (h : ∀ x, a ≤ x → x < a + n → m x = m' x) : load m a n = load m' a n := by
  refine List.map_congr_left fun x hx => ?_
  obtain ⟨h₁, h₂⟩ := List.mem_range'_1.mp hx
  exact h x h₁ h₂

section
variable {a' i : ℕ} (h : load m a n = load m' a' n)
include h

theorem apply_of_load (hi : i < n) : m (a + i) = m' (a' + i) := by
  have hg (m : ℕ → β) (a : ℕ) : (load m a n)[i]? = some (m (a + i)) := by simp [load, hi]
  exact Option.some.inj ((hg m a).symm.trans ((congrArg (·[i]?) h).trans (hg m' a')))

theorem load_sub (hi : i + k ≤ n) : load m (a + i) k = load m' (a' + i) k := by
  refine List.ext_getElem (by simp) fun j h₁ _ => ?_
  rw [load_length] at h₁
  rw [getElem_load, getElem_load, Nat.add_assoc, Nat.add_assoc]
  exact apply_of_load h (by omega)

end

theorem store_of_lt (h : b < a) : store m a l b = m b := by
  rw [store, dif_neg]
  omega

theorem store_of_ge (h : a + l.length ≤ b) : store m a l b = m b := by
  rw [store, dif_neg]
  omega

theorem store_add {i : ℕ} (h : i < l.length) : store m a l (a + i) = l[i] := by
  rw [store, dif_pos ⟨Nat.le_add_right a i, by omega⟩]
  congr 1
  omega

theorem load_store (h : l.length = n) : load (store m a l) a n = l := by
  refine List.ext_getElem (by simp [h]) fun i h₁ h₂ => ?_
  rw [getElem_load, store_add h₂]

theorem load_store_of_disjoint (h : a + n ≤ b ∨ b + l.length ≤ a) :
    load (store m b l) a n = load m a n := by
  refine load_congr fun x h₁ h₂ => ?_
  rcases h with h | h
  · exact store_of_lt (by omega)
  · exact store_of_ge (by omega)

@[simp] theorem store_nil : store m a [] = m := by
  funext x
  rw [store, dif_neg]
  simp

theorem store_append : store m a (l ++ l') = store (store m a l) (a + l.length) l' := by
  funext x
  rcases Nat.lt_or_ge x a with h | h
  · rw [store_of_lt h, store_of_lt (by omega), store_of_lt h]
  obtain ⟨i, rfl⟩ := Nat.exists_eq_add_of_le h
  rcases Nat.lt_or_ge i l.length with hi | hi
  · rw [store_add (by simp; omega), store_of_lt (by omega), store_add hi, List.getElem_append_left]
  obtain ⟨j, rfl⟩ := Nat.exists_eq_add_of_le hi
  rcases Nat.lt_or_ge j l'.length with hj | hj
  · rw [store_add (by simp; omega), ← Nat.add_assoc, store_add hj,
      List.getElem_append_right (by omega)]
    congr 1
    omega
  · rw [store_of_ge (by simp; omega), store_of_ge (by omega), store_of_ge (by omega)]

/-- The same range is overwritten again. -/
theorem store_store (h : l.length = l'.length) : store (store m a l) a l' = store m a l' := by
  funext x
  rcases Nat.lt_or_ge x a with h' | h'
  · rw [store_of_lt h', store_of_lt h', store_of_lt h']
  obtain ⟨i, rfl⟩ := Nat.exists_eq_add_of_le h'
  rcases Nat.lt_or_ge i l'.length with hi | hi
  · rw [store_add hi, store_add hi]
  · rw [store_of_ge (by omega), store_of_ge (by omega), store_of_ge (by omega)]

theorem store_comm (h : a + l.length ≤ b) :
    store (store m a l) b l' = store (store m b l') a l := by
  funext x
  rcases Nat.lt_or_ge x b with hx | hx
  · rw [store_of_lt hx, store, store, store_of_lt hx]
  obtain ⟨i, rfl⟩ := Nat.exists_eq_add_of_le hx
  have hr : store (store m b l') a l (b + i) = store m b l' (b + i) := store_of_ge (by omega)
  rw [hr]
  rcases Nat.lt_or_ge i l'.length with hi | hi
  · rw [store_add hi, store_add hi]
  · rw [store_of_ge (by omega), store_of_ge (by omega), store_of_ge (by omega)]

theorem load_store_congr (h : load m a n = load m' a n) (b : ℕ) (l : List β) :
    load (store m b l) a n = load (store m' b l) a n := by
  refine load_congr fun x h₁ h₂ => ?_
  obtain ⟨i, rfl⟩ := Nat.exists_eq_add_of_le h₁
  rw [store, store, apply_of_load h (by omega)]

/-- On a memory with `P`, the work reads and writes the `n` cells from `a` on only, and `P` is
about these cells only. -/
structure Within (P : (ℕ → β) → Prop) (a n : ℕ) (f : (ℕ → β) → ℕ → β) : Prop where
  outside : ∀ m x, P m → x < a ∨ a + n ≤ x → f m x = m x
  inside : ∀ m m', P m → load m a n = load m' a n → load (f m) a n = load (f m') a n
  about : ∀ m m', P m → load m a n = load m' a n → P m'

theorem Within.always {P : (ℕ → β) → Prop} {f : (ℕ → β) → ℕ → β} (h : Within (fun _ => True) a n f)
    (hp : ∀ m, P m) : Within P a n f where
  outside m x _ hx := h.outside m x trivial hx
  inside m m' _ hm := h.inside m m' trivial hm
  about _ m' _ _ := hp m'

section
variable {ι : Type*} (P : ι → (ℕ → β) → Prop) (place size : ι → ℕ) (work : ι → (ℕ → β) → ℕ → β)

/-- Work on pieces which stand one behind the other. -/
def workAll (l : List ι) (m : ℕ → β) : ℕ → β := l.foldl (fun m s => work s m) m

variable {P place size work} {ss : List ι} {s t : ι}

theorem Within.load_outside {Q : (ℕ → β) → Prop} {f : (ℕ → β) → ℕ → β} (h : Within Q a n f)
    (hm : Q m) (hb : b + k ≤ a ∨ a + n ≤ b) : load (f m) b k = load m b k :=
  load_congr fun x h₁ h₂ => h.outside m x hm (by omega)

/-- Work on one piece leaves the condition of the others. -/
theorem Within.keeps (hs : Within (P s) (place s) (size s) (work s))
    (ht : Within (P t) (place t) (size t) (work t)) (hst : place t + size t ≤ place s)
    (hm : P t m) (h : P s m) : P s (work t m) :=
  hs.about m _ h (ht.load_outside hm (.inr hst)).symm

theorem load_workAll_outside (hw : ∀ s ∈ ss, Within (P s) (place s) (size s) (work s))
    (hm : ∀ s ∈ ss, P s m) (hd : ss.Pairwise fun s t => place s + size s ≤ place t)
    (hb : ∀ s ∈ ss, b + k ≤ place s ∨ place s + size s ≤ b) :
    load (workAll work ss m) b k = load m b k := by
  induction ss generalizing m with
  | nil => rfl
  | cons t ss ih =>
    obtain ⟨ht, hd⟩ := List.pairwise_cons.mp hd
    obtain ⟨hwt, hw⟩ := List.forall_mem_cons.mp hw
    obtain ⟨hmt, hm⟩ := List.forall_mem_cons.mp hm
    obtain ⟨hbt, hb⟩ := List.forall_mem_cons.mp hb
    rw [workAll, List.foldl_cons, ← workAll,
      ih hw (fun s hs => (hw s hs).keeps hwt (ht s hs) hmt (hm s hs)) hd hb,
      hwt.load_outside hmt hbt]

/-- Every piece becomes what it would have become alone. -/
theorem load_workAll (place size : ι → ℕ) (hw : ∀ s ∈ ss, Within (P s) (place s) (size s) (work s))
    (hm : ∀ s ∈ ss, P s m) (hd : ss.Pairwise fun s t => place s + size s ≤ place t) (hs : s ∈ ss) :
    load (workAll work ss m) (place s) (size s) = load (work s m) (place s) (size s) := by
  induction ss generalizing m with
  | nil => cases hs
  | cons t ss ih =>
    obtain ⟨ht, hd'⟩ := List.pairwise_cons.mp hd
    obtain ⟨hwt, hws⟩ := List.forall_mem_cons.mp hw
    obtain ⟨hmt, hms⟩ := List.forall_mem_cons.mp hm
    have hm' (s : ι) (hs : s ∈ ss) := (hws s hs).keeps hwt (ht s hs) hmt (hms s hs)
    rw [workAll, List.foldl_cons, ← workAll]
    rcases List.mem_cons.mp hs with rfl | hs
    · exact load_workAll_outside hws hm' hd' fun u hu => .inl (ht u hu)
    · rw [ih hws hm' hd' hs]
      exact ((hws s hs).inside m _ (hms s hs) (hwt.load_outside hmt (.inr (ht s hs))).symm).symm

end
end Okm6ullOta.ByteMemory
