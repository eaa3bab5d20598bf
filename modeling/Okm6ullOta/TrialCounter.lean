import Okm6ullOta.BoardRuns

/-!
# The attempt counter over whole runs

Every boot with a pending update stores one more attempt before it can reach
`bootz`. The counter is written in hexadecimal and compared in decimal; both
agree on one digit, and a run which is not cut between the last save of the
counter and the rollback never stores more. The counter is cleared by rollbacks
and by boots without a pending update, not by a confirm.
-/
namespace Okm6ullOta.TrialCounter
open BootEnvironment PowerCutScripts UBootCommands BootScript BootLog BootSteps LabelledRuns
open BoardRuns TextNumerals

/-- The attempts an environment has on record. -/
def tries (e : Env) : ℕ := leading 16 (e .ota_try)

theorem tries_of_same {d e : Env} (h : e .ota_try = d .ota_try) : tries e = tries d := by
  rw [tries, h, tries]

theorem tries_settled (r : Env) : tries (settled r) = tries r :=
  tries_of_same (settled_of_ne r (by decide))

theorem tries_stored (r : Env) : tries (stored r r) = tries r := by
  unfold stored
  split_ifs
  · rfl
  · exact tries_settled r

theorem tries_counted (e : Env) : tries (counted e) = (tries e + 1) % 2 ^ 32 := by
  rw [tries, counted, Env.set_self, nextTry, leading_numeral (by decide) (by decide), tries]

theorem tries_counted_le (e : Env) : tries (counted e) ≤ tries e + 1 := by
  rw [tries_counted]
  exact Nat.mod_le ..

theorem tries_counted_eq {e : Env} (h : tries e ≤ 8) : tries (counted e) = tries e + 1 := by
  rw [tries_counted]
  omega

theorem tries_cleared (e : Env) : tries (cleared e) = 0 := by
  rw [tries, cleared, Env.set_self]
  rfl

theorem tries_rested (r : Env) : tries (rested r r) = 0 := by
  unfold rested
  split_ifs with h
  · rw [tries_stored, ← tries_settled, tries, h]
    rfl
  · exact tries_cleared _

theorem tries_rolledBack (last : Env → Component → String) (e : Env) :
    tries (rolledBack last e) = 0 := by
  have h : rolledBack last e .ota_try = "0" := by simp [rolledBack, closed]
  rw [tries, h]
  rfl

/-- The two radices agree as long as the new count is one decimal digit. -/
theorem exhausted_counted {e : Env} (h : tries e ≤ 8) :
    Exhausted (counted e) ↔ 3 ≤ tries e := by
  have hm : (tries e + 1) % 2 ^ 32 = tries e + 1 := by omega
  have hv : leading 10 (counted e .ota_try) = tries e + 1 := by
    rw [counted, Env.set_self, nextTry, ← tries, hm]
    exact leading_numeral_digit (by omega) (by omega) (by decide)
  rw [Exhausted, hv]
  omega

/-- A counter which passes the limit had three attempts on record. -/
theorem three_of_exhausted {e : Env} (h : Exhausted (counted e)) : 3 ≤ tries e := by
  by_contra hn
  exact hn ((exhausted_counted (by omega)).mp h)

/-- `bootz` is executed while an update is pending. -/
def bootsPending : Event → Bool
  | .booting ram _ => decide (Pending ram)
  | _ => false

/-- The attempt is calculated. -/
def countsUp : Event → Bool
  | .calculated .. => true
  | _ => false

/-- The rollback branch of the counter is taken. -/
def givesUp : Event → Bool
  | .exceeded .. => true
  | _ => false

/-- An attempt is stored right after it is calculated. -/
def banks : List Event → Bool
  | .calculated .. :: .saved _ :: _ => true
  | _ :: l => banks l
  | [] => false

/-- What no save passes, nothing before the counter branch passes. -/
theorem installLog_silent {p : Event → Bool} (hp : ∀ e, p (.saved e) = false) (r : Env) :
    ∀ x ∈ installLog r, ¬ p x := by
  intro x hx
  rw [installLog_saves hx, hp]
  decide

theorem clearLog_silent {p : Event → Bool} (hp : ∀ e, p (.saved e) = false) (r : Env) :
    ∀ x ∈ clearLog r, ¬ p x := by
  intro x hx
  rw [clearLog_saves hx, hp]
  decide

theorem banks_installLog (r : Env) : banks (installLog r) = false := by
  unfold installLog
  split_ifs <;> rfl

theorem banks_counting (r : Env) (x : Var) (v : String) :
    banks (installLog r ++ [.calculated x v]) = false := by
  unfold installLog
  split_ifs <;> rfl

theorem tail_bootz {o : Outcomes} {e d : Env} {l : List Event} {b : Board}
    (h : TailStep o e d l b) : l.countP bootsPending ≤ 1 := by
  cases h <;> simp [bootsPending, List.countP_cons] <;> split_ifs <;> omega

theorem tail_bootz_settled {o : Outcomes} {e d : Env} {l : List Event} {b : Board}
    (h : TailStep o e d l b) (he : ¬ Pending e) : l.countP bootsPending = 0 := by
  have hr : ¬ Pending (ready e) := fun hp => he ((ready_pending e).mp hp)
  cases h <;> simp [bootsPending, hr]

theorem tail_givesUp {o : Outcomes} {e d : Env} {l : List Event} {b : Board}
    (h : TailStep o e d l b) : l.any givesUp = false := by
  cases h <;> simp [givesUp]

/-- What happened since an update was started: how often `bootz` was executed
with it pending, and how many boots stored an attempt. -/
structure Trials where
  bootz : ℕ
  counts : ℕ

/-- A start while an update is pending does not open a new trial. -/
def watch (t : Trials) (b : Board) : Move → Trials
  | .boot o cut =>
    let l := log b (.boot o cut)
    ⟨t.bootz + l.countP bootsPending, t.counts + if banks l then 1 else 0⟩
  | .altboot _ _ => t
  | .startOTA _ => if Pending b.disk then t else ⟨0, 0⟩
  | .confirm => t

/-- The power is cut after a counter above the limit is saved and before the
rollback is. -/
def CutInWindow (b : Board) (o : Outcomes) (cut : ℕ) : Prop :=
  let d := (execution bootCmd b.disk o cut).state.board.disk
  .saved d ∈ log b (.boot o cut) ∧ Pending d ∧ Exhausted d

def Allowed (b : Board) : Move → Prop
  | .boot o cut => ¬ CutInWindow b o cut
  | .altboot _ _ => False
  | _ => True

structure Invariant (b : Board) (t : Trials) : Prop where
  session : b.session.isSome → tries b.disk ≤ 3
  pending : Pending b.disk → tries b.disk ≤ 3 ∧ t.bootz ≤ tries b.disk ∧ t.counts ≤ tries b.disk
  bounded : t.bootz ≤ 3

/-- A boot which stores nothing new keeps the trial as it is. -/
theorem Invariant.carried {b b' : Board} {t : Trials} (hi : Invariant b t)
    (hp : Pending b'.disk ↔ Pending b.disk) (ht : tries b'.disk = tries b.disk)
    (hs : b'.session = none) : Invariant b' t := by
  refine ⟨by simp [hs], ?_, hi.bounded⟩
  intro h
  rw [ht]
  exact hi.pending (hp.mp h)

/-- Without a pending update only the bound of the last trial is left. -/
theorem Invariant.closed {b : Board} {t : Trials} (hp : ¬ Pending b.disk)
    (ht : tries b.disk = 0) (hz : t.bootz ≤ 3) : Invariant b t :=
  ⟨fun _ => by omega, fun h => (hp h).elim, hz⟩

theorem trial_invariant {o : Outcomes} {e : Env} {b : Board} {l : List Event}
    {bootz counts k : ℕ} (ht : TailStep o (counted e) (counted e) l b) (hk : tries e = k)
    (hlt : k < 3) (hz : bootz ≤ k + 1) (hc : counts ≤ k + 1) : Invariant b ⟨bootz, counts⟩ := by
  have hn : tries (counted e) = k + 1 := by rw [tries_counted_eq (by omega), hk]
  have hkept (s : Option Session) : Invariant ⟨counted e, s⟩ ⟨bootz, counts⟩ :=
    ⟨fun _ => by simp only; omega, fun _ => by simp only; omega, by simp only; omega⟩
  cases ht with
  | fellBack hk hq =>
    exact .closed (rolledBack_not_pending _ _) (tries_rolledBack _ _) (by simp only; omega)
  | _ => exact hkept _

theorem normal_invariant {o : Outcomes} {e d : Env} {b : Board} {l : List Event} {t : Trials}
    (ht : TailStep o e d l b) (hp : ¬ Pending d) (h₀ : tries d = 0) (hz : t.bootz ≤ 3) :
    Invariant b t := by
  cases ht with
  | fellBack hk hq => exact .closed (rolledBack_not_pending _ _) (tries_rolledBack _ _) hz
  | _ => exact .closed hp h₀ hz

theorem boot_invariant {b b' : Board} {t : Trials} {o : Outcomes} {cut : ℕ}
    (hi : Invariant b t) (ha : ¬ CutInWindow b o cut) (hn : next b (.boot o cut) = some b') :
    Invariant b' (watch t b (.boot o cut)) := by
  have hb := boot_move hn
  obtain rfl := Option.some.inj hn
  have hsp := stored_pending b.disk
  have hst := tries_stored b.disk
  have hinstall : (installLog (defaulted b.disk)).countP bootsPending = 0 :=
    List.countP_eq_zero.mpr (installLog_silent (fun _ => rfl) _)
  have hcount : (countLog (settled b.disk)).countP bootsPending = 0 := rfl
  simp only [watch]
  unfold CutInWindow at ha
  generalize log b (.boot o cut) = l at hb ha ⊢
  generalize (execution bootCmd b.disk o cut).state.board = b' at hb ha ⊢
  cases hb with
  | off => exact hi.carried Iff.rfl rfl rfl
  | migrated =>
    rw [hinstall, banks_installLog]
    exact hi.carried hsp hst rfl
  | counting hp =>
    rw [List.countP_append, hinstall, banks_counting]
    exact hi.carried hsp hst rfl
  | exhausted hp hx hl =>
    refine (ha ⟨?_, (counted_pending _).mpr hp, hx⟩).elim
    simp [countLog]
  | gaveUp hp hx =>
    rw [List.countP_append, List.countP_append, hinstall, hcount]
    exact .closed (rolledBack_not_pending _ _) (tries_rolledBack _ _) hi.bounded
  | @trial hp hx l b' ht =>
    obtain ⟨h₃, hz, hc⟩ := hi.pending ((settled_pending b.disk).mp hp)
    have hts := tries_settled b.disk
    have hlt : ¬ 3 ≤ tries (settled b.disk) := fun h => hx ((exhausted_counted (by omega)).mpr h)
    have hone := tail_bootz ht
    rw [List.countP_append, List.countP_append, hinstall, hcount]
    refine trial_invariant ht hts (by omega) (by omega) ?_
    split_ifs <;> omega
  | normal hp ht =>
    have hl := tail_bootz_settled ht (fun h => hp ((cleared_pending _).mp h))
    have hclear : (clearLog (settled b.disk)).countP bootsPending = 0 :=
      List.countP_eq_zero.mpr (clearLog_silent (fun _ => rfl) _)
    rw [List.countP_append, List.countP_append, hinstall, hclear, hl]
    refine normal_invariant ht ?_ (tries_rested b.disk) hi.bounded
    exact fun h => hp ((settled_pending _).mpr ((rested_pending _).mp h))

theorem step_invariant {b b' : Board} {t : Trials} {m : Move} (hi : Invariant b t)
    (h : Step Allowed b m b') : Invariant b' (watch t b m) := by
  obtain ⟨ha, hn⟩ := h
  cases m with
  | boot o cut => exact boot_invariant hi ha hn
  | altboot o cut => exact ha.elim
  | startOTA w =>
    obtain ⟨hs, rfl⟩ := startOTA_move hn
    have ht : tries (w.apply b.disk) = tries b.disk := tries_of_same (apply_of_ne w _ (by decide))
    have h₃ := hi.session hs
    simp only [watch]
    split_ifs with hp
    · have hz := hi.pending hp
      exact ⟨fun _ => by simp only; omega, fun _ => by simp only; omega, hi.bounded⟩
    · exact ⟨fun _ => by simp only; omega, fun _ => by simp only; omega, by simp⟩
  | confirm =>
    obtain ⟨hs, rfl⟩ := confirm_move hn
    have ht : tries (confirmed b.disk) = tries b.disk :=
      tries_of_same (confirmed_of_ne (by decide) _)
    have h₃ := hi.session hs
    exact ⟨fun _ => by simp only; omega, fun hp => (confirmed_not_pending _ hp).elim, hi.bounded⟩

theorem run_invariant {d : Env} (hd : ¬ Pending d) {ms : List Move} {p : Board × Trials}
    (run : Run (Watched (Step Allowed) watch) (⟨d, none⟩, ⟨0, 0⟩) ms p) :
    Invariant p.1 p.2 := by
  have hstart : Invariant ⟨d, none⟩ ⟨0, 0⟩ := ⟨by simp, fun hp => (hd hp).elim, by simp⟩
  exact run.watched hstart fun _ _ _ _ => step_invariant

/-- Every `bootz` with a pending update comes after the save of its attempt. -/
theorem counted_before_bootz {o : Outcomes} {d ram : Env} {l : List Event} {b : Board}
    {k : Option String} (h : BootStep o d d l b) (hm : .booting ram k ∈ l) (hp : Pending ram)
    (ht : Pending d → tries d ≤ 3) :
    ∃ before e rest, l = before ++ .calculated .ota_try (e .ota_try) :: .saved e :: rest ∧
      (∀ ram k, .booting ram k ∉ before) ∧ tries e = tries d + 1 := by
  obtain ⟨before, rest, e, he, hl, rfl, -, -⟩ := boot_booting h hm
  have hpe := (ready_pending e).mp hp
  have hts := tries_settled d
  cases he with
  | trial hq hx =>
    have h₃ := ht ((settled_pending d).mp hq)
    refine ⟨installLog (defaulted d), counted (settled d), rest, ?_, ?_, ?_⟩
    · rw [hl, countLog, counted, Env.set_self, List.append_assoc]
      rfl
    · exact not_booting_install _
    · rw [tries_counted_eq (by omega), hts]
  | normal hq => exact (hq ((cleared_pending _).mp hpe)).elim

theorem exhausted_third {d : Env} (ht : tries d = 3) : Exhausted (counted (settled d)) := by
  rw [exhausted_counted (by rw [tries_settled]; omega), tries_settled, ht]

/-- With the attempts used up, a boot can only roll back. -/
theorem exhausted_boot {o : Outcomes} {d : Env} {l : List Event} {b : Board}
    (h : BootStep o d d l b) (hp : Pending d) (hx : Exhausted (counted (settled d))) :
    (∀ ram k, .booting ram k ∉ l) ∧
    ((∃ e, .saved e ∈ l ∧ ¬ Pending e) →
      b = ⟨rolledBack safeSlot (counted (settled d)), none⟩) := by
  have hps : Pending (settled d) := (settled_pending d).mpr hp
  constructor
  · intro ram k hm
    obtain ⟨before, rest, e, he, -⟩ := boot_booting h hm
    cases he with
    | trial _ hn => exact hn hx
    | normal hn => exact hn hps
  · rintro ⟨e, he, hn⟩
    have hi : .saved e ∉ installLog (defaulted d) := by
      intro hm
      obtain rfl := Event.saved.inj (installLog_saves hm)
      exact hn hps
    have hc : .saved e ∉ countLog (settled d) := by
      intro hm
      simp only [countLog, List.mem_cons, reduceCtorEq, Event.saved.injEq, List.not_mem_nil,
        or_false, false_or] at hm
      exact hn (hm ▸ (counted_pending _).mpr hps)
    cases h with
    | gaveUp => rfl
    | trial _ hn => exact (hn hx).elim
    | normal hn => exact (hn hps).elim
    | exhausted _ _ hl => rcases hl with rfl | rfl <;> simp [hi, hc] at he
    | _ => simp [hi] at he

theorem exhausted_bootLog {d : Env} (hp : Pending d) (hx : Exhausted (counted (settled d)))
    (o : Outcomes) :
    bootLog o d = installLog (defaulted d) ++ (countLog (settled d) ++
      [.exceeded (nextTry (settled d .ota_try)) 3,
        .saved (rolledBack safeSlot (counted (settled d)))]) := by
  have hps : Pending (settled d) := (settled_pending d).mpr hp
  have hs : installed (defaulted d) = settled d := rfl
  simp only [bootLog, trialLog, hs, hps, hx, if_true]
  rfl

theorem trial_bootLog {d : Env} (hp : Pending d) (hx : ¬ Exhausted (counted (settled d)))
    (o : Outcomes) : bootLog o d =
      installLog (defaulted d) ++ (countLog (settled d) ++ tailLog o (counted (settled d))) := by
  have hps : Pending (settled d) := (settled_pending d).mpr hp
  have hs : installed (defaulted d) = settled d := rfl
  rw [bootLog, hs, trialLog, if_pos hps, if_neg hx]
  rfl

/-- Bounded trial. Between the start of an update and its confirm or rollback
`bootz` is executed at most three times, every time after the save of one more
attempt in the same boot. Once three boots have stored an attempt and the
update is still pending, no boot reaches `bootz`, and one which is not cut
before the rollback is saved stores it. -/
theorem bounded_trial {d : Env} (hd : ¬ Pending d) {ms : List Move} {b : Board} {t : Trials}
    (run : Run (Watched (Step Allowed) watch) (⟨d, none⟩, ⟨0, 0⟩) ms (b, t)) :
    t.bootz ≤ 3 ∧
    (∀ o cut ram k, .booting ram k ∈ log b (.boot o cut) → Pending ram →
      ∃ before e rest,
        log b (.boot o cut) = before ++ .calculated .ota_try (e .ota_try) :: .saved e :: rest ∧
        (∀ ram k, .booting ram k ∉ before) ∧ tries e = tries b.disk + 1) ∧
    (3 ≤ t.counts → Pending b.disk → ∀ o cut,
      (∀ ram k, .booting ram k ∉ log b (.boot o cut)) ∧
      ((∃ e, .saved e ∈ log b (.boot o cut) ∧ ¬ Pending e) ∨ bootCmd.size ≤ cut →
        ∃ b', next b (.boot o cut) = some b' ∧ b'.session = none ∧
          b'.disk .upgrade_available = "0" ∧ b'.disk .ota_try = "0" ∧
          ∀ c : Component, b'.disk c.slot = orDefault (rollbackSource b.disk c) "A")) := by
  have hi := run_invariant hd run
  refine ⟨hi.bounded, ?_, ?_⟩
  · intro o cut ram k hm hp
    exact counted_before_bootz (boot_move rfl) hm hp fun h => (hi.pending h).1
  · intro hc hp o cut
    obtain ⟨h₃, -, hct⟩ := hi.pending hp
    have hx := exhausted_third (Nat.le_antisymm h₃ (hc.trans hct))
    have hb : BootStep o b.disk b.disk (log b (.boot o cut)) _ := boot_move rfl
    obtain ⟨hz, hr⟩ := exhausted_boot hb hp hx
    refine ⟨hz, ?_⟩
    intro h
    have hsaved : ∃ e, .saved e ∈ log b (.boot o cut) ∧ ¬ Pending e := by
      rcases h with h | h
      · exact h
      · refine ⟨rolledBack safeSlot (counted (settled b.disk)), ?_, rolledBack_not_pending _ _⟩
        rw [boot_log_size h, exhausted_bootLog hp hx]
        simp
    refine ⟨_, rfl, ?_⟩
    rw [hr hsaved]
    refine ⟨rfl, by simp [rolledBack, closed], by simp [rolledBack, closed], ?_⟩
    intro c
    refine (rolledBack_slot ..).trans ?_
    rw [restored, counted, set_try_rollbackSource, settled_rollbackSource]
    rfl

/-- A test of what is allowed, for the runs which are evaluated. -/
def clearOfWindow (b : Board) : Move → Bool
  | .boot o cut =>
    let d := (execution bootCmd b.disk o cut).state.board.disk
    !(decide (Pending d) && decide (Exhausted d))
  | .altboot _ _ => false
  | _ => true

theorem allowed_of_clear {b : Board} {m : Move} (h : clearOfWindow b m) : Allowed b m := by
  cases m with
  | boot o cut =>
    rintro ⟨-, hp, hx⟩
    simp [clearOfWindow, hp, hx] at h
  | altboot o cut => cases h
  | _ => trivial

theorem bounded_trial_three_boots : ∃ b t,
    Run (Watched (Step Allowed) watch) (⟨Env.fresh, none⟩, ⟨0, 0⟩) threeTrials (b, t) ∧
    3 ≤ t.counts ∧ Pending b.disk ∧ t.bootz ≤ 3 ∧
    ∃ b', next b (.boot everyFile 100) = some b' ∧ b'.disk .upgrade_available = "0" := by
  obtain ⟨⟨b, t⟩, run, ht⟩ : ∃ q : Board × Trials,
      Run (Watched (Step Allowed) watch) (⟨Env.fresh, none⟩, ⟨0, 0⟩) threeTrials q ∧
      decide (3 ≤ q.2.counts ∧ Pending q.1.disk) :=
    guarded_run (fun _ _ => allowed_of_clear) _ _ _ (by decide)
  obtain ⟨hc, hp⟩ := of_decide_eq_true ht
  obtain ⟨hz, -, hr⟩ := bounded_trial (by decide) run
  obtain ⟨b', hn, -, hu, -⟩ := (hr hc hp everyFile 100).2 (.inr (by decide))
  exact ⟨b, t, run, hc, hp, hz, b', hn, hu⟩

end Okm6ullOta.TrialCounter
