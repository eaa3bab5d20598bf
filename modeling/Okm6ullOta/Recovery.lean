import Okm6ullOta.SlotSafety
import Okm6ullOta.TrialCounter
import Okm6ullOta.HandOff
import Okm6ullOta.SteadyBoots

/-!
# An unattended board recovers

A board with a pending update on which Linux writes nothing any more. Whatever fails in
its executions of boot.cmd and of altbootcmd, and wherever the power is cut outside of the
window of the counter, four complete executions bring the old slots back, and from then on
every complete boot whose files load hands the old slots to Linux.
-/
namespace Okm6ullOta.Recovery
open BootEnvironment PowerCutScripts UBootCommands BootScript BootLog BootSteps LabelledRuns
open BoardRuns SlotSafety TrialCounter HandOff CommandLines
open SteadyBoots (rested_effective)

/-- Executions only, none of them cut between a counter above the limit and the rollback. -/
def Unattended (b : Board) : Move → Prop
  | .boot o cut => ¬ CutInWindow b o cut
  | .altboot _ _ => True
  | _ => False

/-- The execution is not cut. -/
def complete : Move → Bool
  | .boot _ cut => decide (bootCmd.size ≤ cut)
  | .altboot _ cut => decide (altbootcmd.size ≤ cut)
  | _ => false

/-- While the update is pending every complete execution has stored an attempt, and the
way back to `s` is kept; afterwards the board shows `s`. -/
structure Recovering (s : Slots) (k : ℕ) (d : Env) : Prop where
  trial : Pending d → Restores d s ∧ k ≤ tries d ∧ tries d ≤ 3
  shown : ¬ Pending d → effective d = s

variable {s : Slots} {k k' : ℕ} {d e : Env} {o : Outcomes} {b b' : Board} {cut : ℕ} {l : List Event}

theorem Recovering.mono (h : Recovering s k d) (hk : k' ≤ k) : Recovering s k' d where
  trial hp := by
    obtain ⟨hr, h₁, h₂⟩ := h.trial hp
    exact ⟨hr, hk.trans h₁, h₂⟩
  shown := h.shown

theorem Recovering.kept (h : Recovering s k d) (hk : slotView.Kept d e) (ht : tries e = tries d) :
    Recovering s k e where
  trial hp := by
    obtain ⟨hr, h₁, h₂⟩ := h.trial (hk.pending.mp hp)
    exact ⟨hk.restores s hr, ht ▸ h₁, ht ▸ h₂⟩
  shown hp := hk.current.trans (h.shown fun hd => hp (hk.pending.mpr hd))

theorem Recovering.fellBack (h : Recovering s k d) (hf : slotView.FellBack d e) (k' : ℕ) :
    Recovering s k' e where
  trial hp := (hf.settled hp).elim
  shown _ := hf.current s (h.trial hf.pending).1

/-- From the slot mapping of a boot on trial. -/
theorem Recovering.onTrial (h : Recovering s k d) (hp : Pending d)
    (hx : ¬ Exhausted (counted (settled d)))
    (ht : TailStep o (counted (settled d)) (counted (settled d)) l b) :
    Recovering s (k + 1) b.disk := by
  obtain ⟨hr, h₁, h₂⟩ := h.trial hp
  have hts := tries_settled d
  have hlt : ¬ 3 ≤ tries (settled d) := fun h => hx ((exhausted_counted (by omega)).mpr h)
  have hc := tries_counted_eq (e := settled d) (by omega)
  have hk : slotView.Kept d (counted (settled d)) := (settled_kept d).trans (counted_kept _)
  rcases tail_disk ht with hd | ⟨hp', hd⟩
  · rw [hd]
    exact ⟨fun _ => ⟨hk.restores s hr, by omega, by omega⟩,
      fun hn => absurd (hk.pending.mpr hp) hn⟩
  · rw [hd]
    have hready := hk.trans (ready_kept (counted_slot_ne_empty d))
    exact h.fellBack (hready.fellBack (rolledBack_fellBack safeSlot ((ready_pending _).mpr hp'))) _

theorem Recovering.gaveUp (h : Recovering s k d) (hp : Pending d) (k' : ℕ) :
    Recovering s k' (rolledBack safeSlot (counted (settled d))) := by
  have hk : slotView.Kept d (counted (settled d)) := (settled_kept d).trans (counted_kept _)
  exact h.fellBack (hk.fellBack (rolledBack_fellBack safeSlot (hk.pending.mpr hp))) k'

/-- With no update pending a boot keeps what the board shows. -/
theorem Recovering.idle (h : Recovering s k d) (hp : ¬ Pending d) (k' : ℕ) :
    Recovering s k' (rested d d) where
  trial hr := absurd ((rested_pending d).mp hr) hp
  shown _ := (rested_effective d).trans (h.shown hp)

theorem Recovering.normal (h : Recovering s k d) (hp : ¬ Pending (settled d))
    (ht : TailStep o (cleared (settled d)) (rested d d) l b) (k' : ℕ) : Recovering s k' b.disk := by
  rw [normal_disk ht hp]
  exact h.idle (fun hd => hp ((settled_pending d).mpr hd)) k'

/-- A boot, wherever it is cut outside of the window. -/
theorem boot_recovering (h : Recovering s k b.disk) (hw : ¬ CutInWindow b o cut)
    (hn : next b (.boot o cut) = some b') : Recovering s k b'.disk := by
  have hb := boot_move hn
  obtain rfl := Option.some.inj hn
  unfold CutInWindow at hw
  generalize log b (.boot o cut) = l at hb hw
  generalize (execution bootCmd b.disk o cut).state.board = b' at hb hw ⊢
  have hstored : Recovering s k (stored b.disk b.disk) :=
    h.kept (stored_kept b.disk) (tries_stored b.disk)
  cases hb with
  | off => exact h
  | migrated => exact hstored
  | counting hp => exact hstored
  | exhausted hp hx hl =>
    refine (hw ⟨?_, (counted_pending _).mpr hp, hx⟩).elim
    simp [countLog]
  | gaveUp hp hx => exact h.gaveUp ((settled_pending _).mp hp) k
  | trial hp hx ht => exact (h.onTrial ((settled_pending _).mp hp) hx ht).mono (Nat.le_succ k)
  | normal hp ht => exact h.normal hp ht k

/-- A boot which is not cut has stored an attempt or rolled back. -/
theorem full_recovering (h : Recovering s k b.disk) (hc : bootCmd.size ≤ cut)
    (hn : next b (.boot o cut) = some b') : Recovering s (k + 1) b'.disk := by
  obtain rfl := Option.some.inj hn
  have hl : (execution bootCmd b.disk o cut).log = bootLog o b.disk := boot_log_size hc
  rw [execution_board, hl]
  have hf := full_step o b.disk b.disk
  generalize (bootLog o b.disk).foldl Board.absorb ⟨b.disk, none⟩ = b' at hf ⊢
  cases hf with
  | gaveUp hp hx => exact h.gaveUp ((settled_pending _).mp hp) _
  | trial hp hx ht => exact h.onTrial ((settled_pending _).mp hp) hx ht
  | normal hp ht => exact h.normal hp ht _

/-- The installed altbootcmd, when it is not cut. -/
theorem altboot_full (hc : altbootcmd.size ≤ cut) (hn : next b (.altboot o cut) = some b') :
    Pending b.disk ∧ b' = ⟨rolledBack otherSlot b.disk, none⟩ := by
  refine ⟨(altboot_move hn).1, ?_⟩
  obtain ⟨-, hl⟩ := after_size (exec o) hc (Machine.start b.disk b.disk)
  rw [eval_altbootcmd] at hl
  simp only [next] at hn
  split_ifs at hn
  obtain rfl := Option.some.inj hn
  rw [execution_board, execution, hl]
  rfl

theorem altboot_recovering (h : Recovering s k b.disk) (hn : next b (.altboot o cut) = some b') :
    Recovering s (k + if complete (.altboot o cut) then 1 else 0) b'.disk := by
  obtain ⟨hp, hb⟩ := altboot_move hn
  have hf := rolledBack_fellBack otherSlot hp
  simp only [complete, decide_eq_true_eq]
  split_ifs with hc
  · rw [(altboot_full hc hn).2]
    exact h.fellBack hf _
  · rcases hb with rfl | rfl
    · exact h
    · exact h.fellBack hf _

theorem step_recovering {m : Move} (h : Recovering s k b.disk) (hs : Step Unattended b m b') :
    Recovering s (k + if complete m then 1 else 0) b'.disk := by
  obtain ⟨ha, hn⟩ := hs
  cases m with
  | boot o cut =>
    simp only [complete, decide_eq_true_eq]
    split_ifs with hc
    · exact full_recovering h hc hn
    · exact boot_recovering h ha hn
  | altboot o cut => exact altboot_recovering h hn
  | startOTA w => exact ha.elim
  | confirm => exact ha.elim

theorem run_recovering {ms : List Move} (h : Recovering s k b.disk)
    (run : Run (Step Unattended) b ms b') : Recovering s (k + ms.countP complete) b'.disk := by
  induction run with
  | nil => exact h
  | @snoc _ _ ms m _ hs ih =>
    have hstep := step_recovering ih hs
    rw [List.countP_append, ← Nat.add_assoc, List.countP_singleton]
    exact hstep

/-- A complete boot with no update pending whose files load. -/
theorem handed_off (hp : ¬ Pending b.disk) (he : effective b.disk = s)
    (hk : o.loads (imageFile (s .kernel)) = true) (hd : (dtbImage o).isSome)
    (hz : o.bootzReturns = false) (hc : bootCmd.size ≤ cut) :
    ∃ b' session, next b (.boot o cut) = some b' ∧ b'.session = some session ∧
      session.kernel = some (imageFile (s .kernel)) ∧
      argument "ota.kernel_slot" session.bootargs = some (s .kernel).letter ∧
      argument "root" session.bootargs = some (rootPartition (s .rootfs)) := by
  have hps : ¬ Pending (settled b.disk) := fun h => hp ((settled_pending _).mp h)
  obtain ⟨t, ht⟩ := Option.isSome_iff_exists.mp hd
  have hsel (c : Component) : Slot.select (cleared (settled b.disk) c.slot) = s c := by
    rw [← he]
    exact (Reaches.normal hps).select c
  have himage : kernelImage o (cleared (settled b.disk)) = some (imageFile (s .kernel)) := by
    have hslot : Slot.select (cleared (settled b.disk) .kernel_slot) = s .kernel := hsel .kernel
    rw [kernelImage, hslot, firstLoaded, if_pos hk]
  have hlog : (execution bootCmd b.disk o cut).log = bootLog o b.disk := boot_log_size hc
  have htail : tailLog o (cleared (settled b.disk)) =
      [.booting (ready (cleared (settled b.disk))) (some (imageFile (s .kernel))),
        .handedOff ⟨ready (cleared (settled b.disk)) .bootargs, some (imageFile (s .kernel)),
          some t⟩] := by
    rw [tailLog, himage, ht, if_neg (by simp), bootzLog, hz]
    rfl
  have hboard : (execution bootCmd b.disk o cut).state.board =
      ⟨rested b.disk b.disk, some ⟨ready (cleared (settled b.disk)) .bootargs,
        some (imageFile (s .kernel)), some t⟩⟩ := by
    rw [execution_board, hlog, bootLog, List.foldl_append, absorb_installLog,
      show installed (defaulted b.disk) = settled b.disk from rfl, trialLog, if_neg hps,
      List.foldl_append, absorb_clearLog, htail]
    rfl
  refine ⟨_, _, rfl, congrArg Board.session hboard, rfl, ?_, ?_⟩
  · rw [told_kernel]
    exact congrArg (fun c => some (Slot.letter c)) (hsel .kernel)
  · rw [told_root]
    exact congrArg (fun c => some (rootPartition c)) (hsel .rootfs)

/-- The history before the board is left alone: admissible updates, confirms, and
executions which are not cut in the window. -/
def Attended (b : Board) (m : Move) : Prop :=
  SlotSafety.Allowed b m ∧
    match m with
    | .boot o cut => ¬ CutInWindow b o cut
    | _ => True

theorem attended_tries {d : Env} (hd : ¬ Pending d) {ms : List Move} {p : Board × _}
    (run : Run (Watched (Step Attended) SlotSafety.watch)
      (⟨d, none⟩, ⟨effective d, effective d⟩) ms p) (hp : Pending p.1.disk) :
    tries p.1.disk ≤ 3 := by
  have hi := run.watched (I := fun b _ => ∃ t, TrialCounter.Invariant b t)
    ⟨⟨0, 0⟩, by simp, fun hp => (hd hp).elim, by simp⟩ (by
      rintro b l m b' ⟨t, hi⟩ ⟨⟨-, ha⟩, hn⟩
      cases m with
      | boot o cut => exact ⟨_, TrialCounter.boot_invariant hi ha hn⟩
      | altboot o cut =>
        obtain ⟨-, rfl | rfl⟩ := altboot_move hn
        · exact ⟨t, hi.carried Iff.rfl rfl rfl⟩
        · exact ⟨t, .closed (rolledBack_not_pending _ _) (tries_rolledBack _ _) hi.bounded⟩
      | startOTA w =>
        exact ⟨_, TrialCounter.step_invariant (m := .startOTA w) hi ⟨trivial, hn⟩⟩
      | confirm => exact ⟨_, TrialCounter.step_invariant (m := .confirm) hi ⟨trivial, hn⟩⟩)
  obtain ⟨t, hi⟩ := hi
  exact (hi.pending hp).1

/-- Whatever happened before: once Linux writes nothing any more, four complete executions of
boot.cmd or altbootcmd leave no update pending and show the slots which were confirmed last,
whatever the outcomes and however many other executions are cut. Every later complete boot
whose files load runs these slots. -/
theorem unattended_recovery {d : Env} (hd : ¬ Pending d) (hh : Honest d) {ms rs : List Move}
    {g : TrialUpdates.Ledger Slots}
    (history : Run (Watched (Step Attended) SlotSafety.watch)
      (⟨d, none⟩, ⟨effective d, effective d⟩) ms (b, g))
    (run : Run (Step Unattended) b rs b') (h4 : 4 ≤ rs.countP complete) :
    ¬ Pending b'.disk ∧ effective b'.disk = g.good ∧
      ∀ o cut, bootCmd.size ≤ cut → o.loads (imageFile (g.good .kernel)) = true →
        (dtbImage o).isSome → o.bootzReturns = false →
        ∃ b'' session, next b' (.boot o cut) = some b'' ∧ b''.session = some session ∧
          session.kernel = some (imageFile (g.good .kernel)) ∧
          argument "ota.kernel_slot" session.bootargs = some (g.good .kernel).letter ∧
          argument "root" session.bootargs = some (rootPartition (g.good .rootfs)) := by
  have hslots : Run (Watched (Step SlotSafety.Allowed) SlotSafety.watch)
      (⟨d, none⟩, ⟨effective d, effective d⟩) ms (b, g) :=
    history.mono fun _ _ _ h => ⟨⟨h.1.1.1, h.1.2⟩, h.2⟩
  have hagrees := (SlotSafety.run_invariant hd hh hslots).agrees
  have h₀ : Recovering g.good 0 b.disk :=
    ⟨fun hp => ⟨(hagrees.trial hp).2, Nat.zero_le _, attended_tries hd history hp⟩,
      hagrees.settled⟩
  have h := run_recovering h₀ run
  have hdone : ¬ Pending b'.disk := fun hp => by
    have ht := h.trial hp
    omega
  exact ⟨hdone, h.shown hdone,
    fun o cut hc hk ht hz => handed_off hdone (h.shown hdone) hk ht hz hc⟩

/-- A test of what is unattended, for the runs which are evaluated. -/
def leftAlone (b : Board) : Move → Bool
  | .boot o cut => clearOfWindow b (.boot o cut)
  | _ => false

theorem unattended_of_leftAlone {m : Move} (h : leftAlone b m) : Unattended b m := by
  cases m with
  | boot o cut => exact TrialCounter.allowed_of_clear (m := .boot o cut) h
  | _ => cases h

/-- Boots of an update nobody confirms. The second one is cut before it has counted, and the
fifth one makes up for it. -/
def unconfirmed : List Move :=
  [.boot everyFile 100, .boot everyFile 8, .boot everyFile 100, .boot everyFile 100,
    .boot everyFile 100]

theorem unattended_recovery_unconfirmed : ∃ b g b' b'' session,
    Run (Watched (Step Attended) SlotSafety.watch)
      (⟨Env.fresh, none⟩, ⟨effective Env.fresh, effective Env.fresh⟩)
      [.boot everyFile 100, .startOTA kernelUpdate] (b, g) ∧
    Pending b.disk ∧ effective b.disk .kernel = .B ∧ Run (Step Unattended) b unconfirmed b' ∧
    ¬ Pending b'.disk ∧ effective b'.disk = effective Env.fresh ∧
    next b' (.boot everyFile 100) = some b'' ∧ b''.session = some session ∧
    session.kernel = some (imageFile .A) := by
  have clear : ¬ CutInWindow ⟨Env.fresh, none⟩ everyFile 100 :=
    TrialCounter.allowed_of_clear (m := .boot everyFile 100) (by decide)
  have history := SlotSafety.kernelStarted_run Attended ⟨trivial, clear⟩
    ⟨SlotSafety.kernelUpdate_admissible, trivial⟩
  obtain ⟨b', run, -⟩ : ∃ b', Run (Step Unattended) SlotSafety.kernelStarted unconfirmed b' ∧
      (true : Bool) :=
    tested_run (fun _ _ => unattended_of_leftAlone) _ unconfirmed (fun _ => true) (by decide)
  obtain ⟨hn, he, hafter⟩ :=
    unattended_recovery (by decide) (fun h => absurd h (by decide)) history run (by decide)
  obtain ⟨b'', session, hnext, hs, hk, -, -⟩ :=
    hafter everyFile 100 (by decide) rfl rfl rfl
  exact ⟨_, _, b', b'', session, history, by decide, by decide, run, hn, he, hnext, hs, hk⟩

end Okm6ullOta.Recovery
