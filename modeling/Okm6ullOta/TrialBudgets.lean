import Okm6ullOta.TrialCounter

/-!
# Whose attempts the counter counts

The counter is cleared by rollbacks and by boots without a pending update. An
update started where the counter reads zero is rolled back only for its own
attempts, wherever its boots are cut. A confirm leaves the counter as it is, so
an update started in the session of a confirm inherits attempts.
-/
namespace Okm6ullOta.TrialBudgets
open BootEnvironment PowerCutScripts UBootCommands BootScript BootLog BootSteps LabelledRuns
open BoardRuns TrialCounter

/-- How many boots have calculated an attempt since the last update started. -/
def watch (k : ℕ) (b : Board) : Move → ℕ
  | .boot o cut => if (log b (.boot o cut)).any countsUp then k + 1 else k
  | .startOTA _ => 0
  | _ => k

/-- Updates start with an empty counter. -/
def Allowed (b : Board) : Move → Prop
  | .startOTA _ => tries b.disk = 0
  | _ => True

instance (b : Board) : (m : Move) → Decidable (Allowed b m)
  | .startOTA _ => Nat.decEq (tries b.disk) 0
  | .boot _ _ | .altboot _ _ | .confirm => .isTrue trivial

def Invariant (b : Board) (k : ℕ) : Prop := Pending b.disk → tries b.disk ≤ k

theorem Invariant.mono {b : Board} {k k' : ℕ} (h : Invariant b k) (hk : k ≤ k') :
    Invariant b k' := fun hp => (h hp).trans hk

/-- The attempts of a boot which reaches the slot mapping or the rollback. -/
theorem tail_invariant {o : Outcomes} {e d : Env} {b : Board} {l : List Event} {k : ℕ}
    (ht : TailStep o e d l b) (hd : Pending d → tries d ≤ k) : Invariant b k := by
  cases ht with
  | fellBack hk hq => exact fun hp => (rolledBack_not_pending _ _ hp).elim
  | _ => exact hd

theorem boot_invariant {b b' : Board} {k : ℕ} {o : Outcomes} {cut : ℕ} (hi : Invariant b k)
    (hn : next b (.boot o cut) = some b') : Invariant b' (watch k b (.boot o cut)) := by
  have hb := boot_move hn
  have hk : k ≤ watch k b (.boot o cut) := by
    simp only [watch]
    split_ifs <;> omega
  have hstored : Pending (stored b.disk b.disk) → tries (stored b.disk b.disk) ≤ k := by
    intro hp
    rw [tries_stored]
    exact hi ((stored_pending b.disk).mp hp)
  have hcounted (hp : Pending (settled b.disk)) : tries (counted (settled b.disk)) ≤ k + 1 := by
    have hc := tries_counted_le (settled b.disk)
    have hs := hi ((settled_pending b.disk).mp hp)
    rw [tries_settled] at hc
    omega
  have hrested (hp : ¬ Pending (settled b.disk)) : ¬ Pending (rested b.disk b.disk) :=
    fun h => hp ((settled_pending _).mpr ((rested_pending _).mp h))
  simp only [watch] at hk ⊢
  generalize log b (.boot o cut) = l at hb hk ⊢
  cases hb with
  | off => exact Invariant.mono hi hk
  | migrated => exact Invariant.mono hstored hk
  | counting hp => exact Invariant.mono hstored hk
  | exhausted hp hx hl =>
    rw [if_pos (by simp [countLog, countsUp])]
    exact fun _ => hcounted hp
  | gaveUp hp hx => exact fun h => (rolledBack_not_pending _ _ h).elim
  | trial hp hx ht =>
    rw [if_pos (by simp [countLog, countsUp])]
    exact tail_invariant ht fun _ => hcounted hp
  | normal hp ht =>
    exact tail_invariant ht fun h => (hrested hp h).elim

theorem step_invariant {b b' : Board} {k : ℕ} {m : Move} (hi : Invariant b k)
    (h : Step Allowed b m b') : Invariant b' (watch k b m) := by
  obtain ⟨ha, hn⟩ := h
  cases m with
  | boot o cut => exact boot_invariant hi hn
  | altboot o cut =>
    obtain ⟨hp, rfl | rfl⟩ := altboot_move hn
    · exact hi
    · exact fun h => (rolledBack_not_pending _ _ h).elim
  | startOTA w =>
    obtain ⟨hs, rfl⟩ := startOTA_move hn
    have ht : tries (w.apply b.disk) = tries b.disk := tries_of_same (apply_of_ne w _ (by decide))
    intro hp
    exact (ht.trans ha).le
  | confirm =>
    obtain ⟨hs, rfl⟩ := confirm_move hn
    exact fun h => (confirmed_not_pending _ h).elim

theorem run_invariant {d : Env} (hd : Pending d → tries d = 0) {ms : List Move} {p : Board × ℕ}
    (run : Run (Watched (Step Allowed) watch) (⟨d, none⟩, 0) ms p) : Invariant p.1 p.2 := by
  have hstart : Invariant ⟨d, none⟩ 0 := fun hp => (hd hp).le
  exact run.watched hstart fun _ _ _ _ => step_invariant

/-- A boot takes the rollback branch only with three attempts on record. -/
theorem givesUp_boot {o : Outcomes} {d : Env} {l : List Event} {b : Board}
    (h : BootStep o d d l b) (hg : l.any givesUp) : Pending d ∧ 3 ≤ tries d := by
  have hi : (installLog (defaulted d)).any givesUp = false :=
    List.any_eq_false.mpr (installLog_silent (fun _ => rfl) _)
  have hc : (clearLog (settled d)).any givesUp = false :=
    List.any_eq_false.mpr (clearLog_silent (fun _ => rfl) _)
  have hn : (countLog (settled d)).any givesUp = false := rfl
  have hpast (hp : Pending (settled d)) (hx : Exhausted (counted (settled d))) :
      Pending d ∧ 3 ≤ tries d := by
    rw [← tries_settled]
    exact ⟨(settled_pending d).mp hp, three_of_exhausted hx⟩
  cases h with
  | exhausted hp hx hl => exact hpast hp hx
  | gaveUp hp hx => exact hpast hp hx
  | trial hp hx ht => simp [hi, hn, tail_givesUp ht] at hg
  | normal hp ht => simp [hi, hc, tail_givesUp ht] at hg
  | _ => simp [hi, givesUp] at hg

/-- Where every update starts with an empty counter, the counter rolls an update
back only after three earlier boots with this update have calculated an attempt. -/
theorem own_attempts {d : Env} (hd : Pending d → tries d = 0) {ms : List Move} {b : Board} {k : ℕ}
    (run : Run (Watched (Step Allowed) watch) (⟨d, none⟩, 0) ms (b, k)) (o : Outcomes) (cut : ℕ)
    (hg : (log b (.boot o cut)).any givesUp) : 3 ≤ k := by
  have hi := run_invariant hd run
  obtain ⟨hp, h₃⟩ := givesUp_boot (boot_move rfl) hg
  exact h₃.trans (hi hp)

theorem own_attempts_three_boots : ∃ b k,
    Run (Watched (Step Allowed) watch) (⟨Env.fresh, none⟩, 0) threeTrials (b, k) ∧
    (log b (.boot everyFile 100)).any givesUp ∧ 3 ≤ k := by
  obtain ⟨⟨b, k⟩, run, hg⟩ : ∃ q : Board × ℕ,
      Run (Watched (Step Allowed) watch) (⟨Env.fresh, none⟩, 0) threeTrials q ∧
      (log q.1 (.boot everyFile 100)).any givesUp :=
    guarded_run (fun _ _ => of_decide_eq_true) _ _ _ (by decide)
  exact ⟨b, k, run, hg, own_attempts (by decide) run everyFile 100 hg⟩

/-- An update started in the session which confirmed the one before is rolled
back at its first boot. -/
theorem inherited_attempts : ∃ b k,
    Run (Watched (Step fun _ _ => True) watch) (⟨Env.fresh, none⟩, 0)
      (threeTrials ++ [.confirm, .startOTA (oneComponent .rootfs "B" "A")]) (b, k) ∧
    Pending b.disk ∧ (log b (.boot everyFile 100)).any givesUp ∧ k = 0 := by
  obtain ⟨⟨b, k⟩, run, hq⟩ : ∃ q : Board × ℕ,
      Run (Watched (Step fun _ _ => True) watch) (⟨Env.fresh, none⟩, 0)
        (threeTrials ++ [.confirm, .startOTA (oneComponent .rootfs "B" "A")]) q ∧
      decide (Pending q.1.disk ∧ (log q.1 (.boot everyFile 100)).any givesUp ∧ q.2 = 0) :=
    guarded_run (c := fun _ _ => true) (fun _ _ _ => trivial) _ _ _ (by decide)
  exact ⟨b, k, run, of_decide_eq_true hq⟩

end Okm6ullOta.TrialBudgets
