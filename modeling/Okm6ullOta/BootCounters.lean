import Okm6ullOta.TrialCounter

/-!
# U-Boot's bootcount beside the counter of the script

With the counter in the environment U-Boot counts a reset before it runs a
script: from the stored count while upgrade_available is set, from zero
otherwise, and only in the first case it stores the new count. Every save of the
script stores the count of the running boot along with the rest. A boot without
a pending update clears ota_try in this way, and leaves a bootcount of one.

Boots are not cut here.
-/
namespace Okm6ullOta.BootCounters
open BootEnvironment PowerCutScripts UBootCommands BootScript BootLog BootSteps LabelledRuns
open TextNumerals TrialCounter
open BoardRuns (OtaWrite confirmed everyFile kernelUpdate)

/-- The flag as U-Boot reads it. -/
def Flagged (d : Env) : Prop := leading 10 (d .upgrade_available) ≠ 0

instance (d : Env) : Decidable (Flagged d) := inferInstanceAs (Decidable (_ ≠ _))

def storedCount (d : Env) : ℕ := leading 10 (d .bootcount)

/-- The count of the boot a reset starts. -/
def resetCount (d : Env) : ℕ := (if Flagged d then storedCount d else 0) + 1

/-- The limit is exceeded, and U-Boot runs altbootcmd in place of boot.cmd. -/
def RunsAltbootcmd (d : Env) : Prop := 3 < resetCount d

instance (d : Env) : Decidable (RunsAltbootcmd d) := inferInstanceAs (Decidable (_ < _))

def resetRam (d : Env) : Env := d.set .bootcount (numeral 10 (resetCount d))

def resetDisk (d : Env) : Env := if Flagged d then resetRam d else d

/-- The board after a script which is not cut. -/
def full (p : Script Cmd) (d : Env) (o : Outcomes) : Board :=
  (eval (exec o) p (Machine.start (resetRam d) (resetDisk d))).state.board

/-- Only the altbootcmd which boot.cmd installs is known to this model. -/
def reset (d : Env) (o : Outcomes) : Option Board :=
  if RunsAltbootcmd d then
    if resetRam d .altbootcmd = altbootcmdText then some (full altbootcmd d o) else none
  else some (full bootCmd d o)

inductive Act where
  | reset (o : Outcomes)
  | startOTA (w : OtaWrite)
  | confirm

def next (b : Board) : Act → Option Board
  | .reset o => reset b.disk o
  | .startOTA w => if b.session.isSome then some { b with disk := w.apply b.disk } else none
  | .confirm => if b.session.isSome then some { b with disk := confirmed b.disk } else none

theorem full_bootCmd (d : Env) (o : Outcomes) :
    FullStep o (resetRam d) (resetDisk d) (full bootCmd d o) := by
  obtain ⟨hs, hl⟩ :=
    after_size (exec o) le_rfl (p := bootCmd) (Machine.start (resetRam d) (resetDisk d))
  have ht := (board_tracks o).after bootCmd.size bootCmd (Machine.start (resetRam d) (resetDisk d))
  rw [hs, hl, eval_bootCmd_log] at ht
  rw [full, ht]
  exact full_step o (resetRam d) (resetDisk d)

theorem full_altbootcmd (d : Env) (o : Outcomes) :
    full altbootcmd d o = ⟨rolledBack otherSlot (resetRam d), none⟩ := by
  rw [full, eval_altbootcmd]
  rfl

theorem resetRam_of_ne {x : Var} (h : x ≠ .bootcount) (d : Env) : resetRam d x = d x :=
  Env.set_of_ne h d _

theorem resetRam_pending (d : Env) : Pending (settled (resetRam d)) ↔ Pending d := by
  rw [settled_pending, Pending, resetRam_of_ne (by decide), Pending]

theorem resetRam_tries (d : Env) : tries (settled (resetRam d)) = tries d := by
  rw [tries_settled]
  exact tries_of_same (resetRam_of_ne (by decide) d)

/-- The attempt which is saved carries the count of the running boot. -/
theorem counted_storedCount (d : Env) :
    storedCount (counted (settled (resetRam d))) = resetCount d := by
  have hb : counted (settled (resetRam d)) .bootcount = numeral 10 (resetCount d) := by
    rw [counted, Env.set_of_ne (by decide), settled_of_ne _ (by decide), resetRam, Env.set_self]
  rw [storedCount, hb, leading_numeral (by decide) (by decide)]

/-- Both counters when an update is started, and the resets since. -/
structure Trial where
  count : ℕ
  tries : ℕ
  resets : ℕ

def watch (t : Trial) (b : Board) : Act → Trial
  | .reset _ => { t with resets := t.resets + 1 }
  | .startOTA _ => ⟨storedCount b.disk, tries b.disk, 0⟩
  | .confirm => t

/-- The flag of a board which was flashed empty. -/
def Plain (d : Env) : Prop :=
  d .upgrade_available = "" ∨ d .upgrade_available = "0" ∨ d .upgrade_available = "1"

/-- Each reset of a pending update counts once in both counters. -/
structure Counting (d : Env) (t : Trial) : Prop where
  tries : tries d = t.tries + t.resets
  count : storedCount d = t.count + t.resets
  within : TrialCounter.tries d ≤ 3
  below : 1 ≤ t.resets → t.count + t.resets ≤ 3

structure Invariant (b : Board) (t : Trial) : Prop where
  plain : Plain b.disk
  session : b.session.isSome → tries b.disk ≤ 3
  pending : Pending b.disk → Counting b.disk t

theorem flagged_iff {d : Env} (h : Plain d) : Flagged d ↔ Pending d := by
  unfold Flagged Pending
  rcases h with h | h | h <;> rw [h] <;> decide

theorem resetCount_pending {d : Env} (h : Plain d) (hp : Pending d) :
    resetCount d = storedCount d + 1 := by
  rw [resetCount, if_pos ((flagged_iff h).mpr hp)]

theorem resetCount_settled {d : Env} (h : Plain d) (hp : ¬ Pending d) : resetCount d = 1 := by
  rw [resetCount, if_neg (fun hf => hp ((flagged_iff h).mp hf))]

theorem Invariant.of_settled {b : Board} {t : Trial} (hf : Plain b.disk) (hp : ¬ Pending b.disk)
    (ht : tries b.disk = 0) : Invariant b t :=
  ⟨hf, fun _ => by omega, fun h => (hp h).elim⟩

theorem Invariant.of_rolledBack {b : Board} {t : Trial} {last : Env → Component → String} {e : Env}
    (hd : b.disk = rolledBack last e) : Invariant b t := by
  refine .of_settled ?_ ?_ ?_
  · rw [hd]
    exact .inr (.inl (by simp [rolledBack, closed]))
  · rw [hd]
    exact rolledBack_not_pending last e
  · rw [hd]
    exact tries_rolledBack last e

theorem settled_plain {r : Env} (hr : Plain r) : Plain (settled r) := by
  unfold Plain
  rw [settled_upgrade]
  rcases hr with h | h | h <;> rw [h] <;> decide

theorem resetRam_plain {d : Env} (h : Plain d) : Plain (resetRam d) := by
  unfold Plain
  rw [resetRam_of_ne (by decide)]
  exact h

/-- A boot without a pending update leaves none, and an empty counter of the script. -/
theorem Invariant.of_rested {d : Env} (h : Plain d) (hp : ¬ Pending d) {b : Board} {t : Trial}
    (hd : b.disk = rested (resetRam d) (resetDisk d)) : Invariant b t := by
  have hps : ¬ Pending (settled (resetRam d)) := fun hs => hp ((resetRam_pending d).mp hs)
  have hplain : Plain (settled (resetRam d)) := settled_plain (resetRam_plain h)
  have hdisk : resetDisk d = d := if_neg fun hf => hp ((flagged_iff h).mp hf)
  rw [hdisk, rested, stored] at hd
  split_ifs at hd with h₁ h₂
  · refine .of_settled (hd ▸ h) (hd ▸ hp) ?_
    rw [hd, ← resetRam_tries, tries, h₁]
    rfl
  · refine .of_settled (hd ▸ hplain) (hd ▸ hps) ?_
    rw [hd, tries, h₁]
    rfl
  · refine .of_settled ?_ ?_ (hd ▸ tries_cleared _)
    · rw [hd, Plain, cleared, Env.set_of_ne (by decide)]
      exact hplain
    · rw [hd, cleared_pending]
      exact hps

/-- A trial boot below both limits counts once in each counter. -/
theorem counted_invariant {b b' : Board} {t : Trial} {o : Outcomes} (hi : Invariant b t)
    (hp : Pending (settled (resetRam b.disk)))
    (hx : ¬ Exhausted (counted (settled (resetRam b.disk)))) (hc : ¬ RunsAltbootcmd b.disk)
    (hd : b'.disk = counted (settled (resetRam b.disk))) :
    Invariant b' (watch t b (.reset o)) := by
  have hpd : Pending b.disk := (resetRam_pending _).mp hp
  have ht := resetRam_tries b.disk
  have hr := resetCount_pending hi.plain hpd
  obtain ⟨h₁, h₂, h₃, h₄⟩ := hi.pending hpd
  unfold RunsAltbootcmd at hc
  have hlt : ¬ 3 ≤ tries (settled (resetRam b.disk)) :=
    fun h => hx ((exhausted_counted (by omega)).mpr h)
  have hn : tries (counted (settled (resetRam b.disk))) = tries b.disk + 1 := by
    rw [tries_counted_eq (by omega), ht]
  have hs := counted_storedCount b.disk
  refine ⟨?_, ?_, ?_⟩
  · rw [hd, Plain, counted, Env.set_of_ne (by decide)]
    exact settled_plain (resetRam_plain hi.plain)
  · intro _
    rw [hd]
    omega
  · intro _
    rw [hd]
    constructor
    · simp only [watch]
      omega
    · simp only [watch]
      omega
    · omega
    · simp only [watch]
      omega

theorem reset_invariant {b b' : Board} {t : Trial} {o : Outcomes} (hi : Invariant b t)
    (hn : reset b.disk o = some b') : Invariant b' (watch t b (.reset o)) := by
  unfold reset at hn
  split_ifs at hn with hc ha
  · obtain rfl := Option.some.inj hn
    exact .of_rolledBack (congrArg Board.disk (full_altbootcmd b.disk o))
  · obtain rfl := Option.some.inj hn
    have hb := full_bootCmd b.disk o
    generalize full bootCmd b.disk o = b' at hb ⊢
    cases hb with
    | gaveUp hp hx => exact .of_rolledBack rfl
    | normal hp ht =>
      exact .of_rested hi.plain (fun h => hp ((resetRam_pending _).mpr h)) (normal_disk ht hp)
    | trial hp hx ht =>
      rcases tail_disk ht with hd | ⟨-, hd⟩
      · exact counted_invariant hi hp hx hc hd
      · exact .of_rolledBack hd

theorem step_invariant {b b' : Board} {t : Trial} {a : Act} (hi : Invariant b t)
    (hn : next b a = some b') : Invariant b' (watch t b a) := by
  cases a with
  | reset o => exact reset_invariant hi hn
  | startOTA w =>
    simp only [next] at hn
    split_ifs at hn with hs
    obtain rfl := Option.some.inj hn
    have ht : tries (w.apply b.disk) = tries b.disk :=
      tries_of_same (BoardRuns.apply_of_ne w _ (by decide))
    have hc : storedCount (w.apply b.disk) = storedCount b.disk := by
      rw [storedCount, BoardRuns.apply_of_ne w _ (by decide), storedCount]
    have h₃ := hi.session hs
    refine ⟨.inr (.inr (BoardRuns.apply_pending w b.disk)), fun _ => ht ▸ h₃, fun _ => ?_⟩
    exact ⟨ht, hc, ht ▸ h₃, fun h => (Nat.not_succ_le_zero 0 h).elim⟩
  | confirm =>
    simp only [next] at hn
    split_ifs at hn with hs
    obtain rfl := Option.some.inj hn
    have ht : tries (confirmed b.disk) = tries b.disk :=
      tries_of_same (BoardRuns.confirmed_of_ne (by decide) _)
    have hp := BoardRuns.confirmed_not_pending b.disk
    have hu : confirmed b.disk .upgrade_available = "0" := Env.set_self ..
    exact ⟨.inr (.inl hu), fun _ => ht ▸ hi.session hs, fun h => (hp h).elim⟩

/-- The steps of a board under U-Boot's counter. -/
def Step (b : Board) (a : Act) (b' : Board) : Prop := next b a = some b'

theorem run_invariant {as : List Act} {p : Board × Trial}
    (run : Run (Watched Step watch) (⟨Env.fresh, none⟩, ⟨0, 0, 0⟩) as p) :
    Invariant p.1 p.2 := by
  have hstart : Invariant ⟨Env.fresh, none⟩ ⟨0, 0, 0⟩ := .of_settled (.inl rfl) (by decide) rfl
  exact run.watched hstart fun _ _ _ _ => step_invariant

/-- From an empty environment altbootcmd runs for a pending update only, and only
where three attempts are on record, if and only if the update was started with
no more resets than attempts on record, or with three attempts, or has not yet
been reset up to the limit. -/
theorem altbootcmd_iff {as : List Act} {b : Board} {t : Trial}
    (run : Run (Watched Step watch) (⟨Env.fresh, none⟩, ⟨0, 0, 0⟩) as (b, t)) :
    (¬ Pending b.disk → ¬ RunsAltbootcmd b.disk) ∧
    (Pending b.disk → ((RunsAltbootcmd b.disk → 3 ≤ tries b.disk) ↔
      t.count ≤ t.tries ∨ 3 ≤ t.tries ∨ t.count + t.resets ≤ 2)) := by
  have hi := run_invariant run
  unfold RunsAltbootcmd
  constructor
  · intro hp
    rw [resetCount_settled hi.plain hp]
    decide
  · intro hp
    have hc := resetCount_pending hi.plain hp
    obtain ⟨h₁, h₂, h₃, h₄⟩ := hi.pending hp
    simp only at hc h₁ h₂ h₃ h₄
    omega

theorem altbootcmd_not_at_second_reset : ∃ b t,
    Run (Watched Step watch) (⟨Env.fresh, none⟩, ⟨0, 0, 0⟩)
      [.reset everyFile, .startOTA kernelUpdate, .reset everyFile] (b, t) ∧
    Pending b.disk ∧ tries b.disk = 1 ∧ (RunsAltbootcmd b.disk → 3 ≤ tries b.disk) := by
  obtain ⟨⟨b, t⟩, run, hq⟩ : ∃ q : Board × Trial,
      Run (Watched Step watch) (⟨Env.fresh, none⟩, ⟨0, 0, 0⟩)
        [.reset everyFile, .startOTA kernelUpdate, .reset everyFile] q ∧
      decide (Pending q.1.disk ∧ tries q.1.disk = 1 ∧ q.2.count + q.2.resets ≤ 2) :=
    observed_run _ _ _ (by decide)
  obtain ⟨hp, ht, hle⟩ := of_decide_eq_true hq
  exact ⟨b, t, run, hp, ht, ((altbootcmd_iff run).2 hp).mpr (.inr (.inr hle))⟩

/-- The first update of a board is aborted at its third reset. -/
theorem altbootcmd_after_two_attempts : ∃ b t,
    Run (Watched Step watch) (⟨Env.fresh, none⟩, ⟨0, 0, 0⟩)
      [.reset everyFile, .startOTA kernelUpdate, .reset everyFile, .reset everyFile] (b, t) ∧
    Pending b.disk ∧ RunsAltbootcmd b.disk ∧ tries b.disk = 2 := by
  obtain ⟨⟨b, t⟩, run, hq⟩ : ∃ q : Board × Trial,
      Run (Watched Step watch) (⟨Env.fresh, none⟩, ⟨0, 0, 0⟩)
        [.reset everyFile, .startOTA kernelUpdate, .reset everyFile, .reset everyFile] q ∧
      decide (Pending q.1.disk ∧ RunsAltbootcmd q.1.disk ∧ tries q.1.disk = 2) :=
    observed_run _ _ _ (by decide)
  exact ⟨b, t, run, of_decide_eq_true hq⟩

end Okm6ullOta.BootCounters
