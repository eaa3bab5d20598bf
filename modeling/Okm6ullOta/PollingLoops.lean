import Mathlib.Tactic.Common

/-!
# Loops which poll until they leave

An endless loop whose body sees the number of the poll and either goes on with
new variables or leaves with a value. Such a loop is characterised by an
invariant and by a relation which says at which polls it leaves and with what.
-/
namespace Okm6ullOta.PollingLoops

variable {σ ρ : Type*}

/-- After `n` polls: the variables of the loop, or the poll at which it was left
and the value it was left with. -/
def polled (body : ℕ → σ → Except ρ σ) (s : σ) : ℕ → Except (ℕ × ρ) σ
  | 0 => .ok s
  | n + 1 =>
    match polled body s n with
    | .error e => .error e
    | .ok t =>
      match body n t with
      | .error r => .error (n, r)
      | .ok u => .ok u

/-- Under the invariant the body leaves at the polls named by `ends`, and only there. -/
structure Law (body : ℕ → σ → Except ρ σ) (I : ℕ → σ → Prop) (ends : ℕ → ρ → Prop) : Prop where
  leave : ∀ {n s r}, I n s → ends n r → body n s = .error r
  stay : ∀ {n s}, I n s → (∀ r, ¬ ends n r) → ∃ t, body n s = .ok t ∧ I (n + 1) t

variable {body : ℕ → σ → Except ρ σ} {I : ℕ → σ → Prop} {ends : ℕ → ρ → Prop} {s t : σ} {n : ℕ}

theorem Law.stays (h : Law body I ends) (hs : I 0 s) (hn : ∀ i < n, ∀ r, ¬ ends i r) :
    ∃ t, polled body s n = .ok t ∧ I n t := by
  induction n with
  | zero => exact ⟨s, rfl, hs⟩
  | succ n ih =>
    obtain ⟨t, ht, hI⟩ := ih fun i hi => hn i (Nat.lt_succ_of_lt hi)
    obtain ⟨u, hu, hI'⟩ := h.stay hI (hn n (Nat.lt_succ_self n))
    exact ⟨u, by simp only [polled, ht, hu], hI'⟩

/-- A loop which is still polling satisfies its invariant and had no poll to leave at. -/
theorem Law.reached (h : Law body I ends) (hs : I 0 s) (hp : polled body s n = .ok t) :
    I n t ∧ ∀ i < n, ∀ r, ¬ ends i r := by
  induction n generalizing t with
  | zero =>
    obtain rfl := Except.ok.inj hp
    exact ⟨hs, fun i hi => absurd hi (Nat.not_lt_zero i)⟩
  | succ n ih =>
    cases hn : polled body s n with
    | error e => simp [polled, hn] at hp
    | ok u =>
      obtain ⟨hI, hb⟩ := ih hn
      have hl : ∀ r, ¬ ends n r := by
        intro r hr
        simp [polled, hn, h.leave hI hr] at hp
      obtain ⟨v, hv, hI'⟩ := h.stay hI hl
      simp only [polled, hn, hv] at hp
      obtain rfl := Except.ok.inj hp
      refine ⟨hI', fun i hi => ?_⟩
      rcases Nat.lt_succ_iff_lt_or_eq.mp hi with hi | rfl
      · exact hb i hi
      · exact hl

theorem Law.polling_iff (h : Law body I ends) (hs : I 0 s) :
    (∃ t, polled body s n = .ok t) ↔ ∀ i < n, ∀ r, ¬ ends i r := by
  constructor
  · intro ⟨t, ht⟩
    exact (h.reached hs ht).2
  · intro hn
    obtain ⟨t, ht, -⟩ := h.stays hs hn
    exact ⟨t, ht⟩

theorem polled_error_lt {m : ℕ} {r : ρ} (h : polled body s n = .error (m, r)) : m < n := by
  induction n with
  | zero => simp [polled] at h
  | succ n ih =>
    cases hn : polled body s n with
    | error e =>
      simp only [polled, hn] at h
      rw [h] at hn
      exact Nat.lt_succ_of_lt (ih hn)
    | ok t =>
      cases hb : body n t with
      | ok u => simp [polled, hn, hb] at h
      | error r' =>
        simp only [polled, hn, hb, Except.error.injEq, Prod.mk.injEq] at h
        exact h.1 ▸ Nat.lt_succ_self n

/-- The loop is left at the first poll it may be left at, with the value of that poll. -/
theorem Law.left_iff (h : Law body I ends) (hs : I 0 s) {r : ρ} :
    polled body s (n + 1) = .error (n, r) ↔ ends n r ∧ ∀ i < n, ∀ r, ¬ ends i r := by
  constructor
  · intro hl
    cases hn : polled body s n with
    | error e =>
      simp only [polled, hn] at hl
      rw [hl] at hn
      exact absurd (polled_error_lt hn) (Nat.lt_irrefl n)
    | ok t =>
      obtain ⟨hI, hb⟩ := h.reached hs hn
      refine ⟨?_, hb⟩
      by_contra hr
      by_cases hx : ∃ r', ends n r'
      · obtain ⟨r', hr'⟩ := hx
        simp only [polled, hn, h.leave hI hr', Except.error.injEq, Prod.mk.injEq, true_and] at hl
        exact hr (hl ▸ hr')
      · obtain ⟨u, hu, -⟩ := h.stay hI (not_exists.mp hx)
        simp [polled, hn, hu] at hl
  · intro ⟨hr, hn⟩
    obtain ⟨t, ht, hI⟩ := h.stays hs hn
    simp only [polled, ht, h.leave hI hr]

/-- `p` has held at every poll up to `n` since it began to hold at `m`. -/
def Since (p : ℕ → Prop) (m n : ℕ) : Prop :=
  m ≤ n ∧ (∀ i, m ≤ i → i ≤ n → p i) ∧ (m = 0 ∨ ¬ p (m - 1))

variable {p : ℕ → Prop} {k m : ℕ}

theorem Since.start (hp : p n) (hn : n = 0 ∨ ¬ p (n - 1)) : Since p n n := by
  refine ⟨Nat.le_refl n, fun i h h' => ?_, hn⟩
  rw [Nat.le_antisymm h' h]
  exact hp

theorem Since.succ (h : Since p m n) (hp : p (n + 1)) : Since p m (n + 1) := by
  refine ⟨Nat.le_succ_of_le h.1, fun i hi hi' => ?_, h.2.2⟩
  rcases Nat.le_succ_iff.mp hi' with hi' | rfl
  · exact h.2.1 i hi hi'
  · exact hp

/-- A stretch began nowhere else. -/
theorem Since.unique (h : Since p m n) (k' : Since p k n) : m = k := by
  have before : ∀ {a b : ℕ}, Since p a n → Since p b n → ¬ a < b := by
    intro a b ha hb hab
    rcases hb.2.2 with h0 | h0
    · omega
    · exact h0 (ha.2.1 (b - 1) (by omega) (by have := hb.1; omega))
  have := before h k'
  have := before k' h
  omega

end Okm6ullOta.PollingLoops
