import Okm6ullOta.BoardRuns
import Okm6ullOta.TrialUpdates

/-!
# A/B safety over whole runs

The persisted environment as a view of trial updates: an update is pending
while its flag is up, a component shows its effective slot, and the rollback
variables name the way back. Boots and altbootcmd only keep this view or fall
back, wherever they are cut, so the environment agrees with the ledger of what
was started and confirmed in every reachable state.
-/
namespace Okm6ullOta.SlotSafety
open BootEnvironment UBootCommands BootScript BootLog BootSteps LabelledRuns BoardRuns TrialUpdates

abbrev Slots := Component → Slot

/-- A rollback to `s` needs no last resort: a variable names each slot. -/
def Restores (e : Env) (s : Slots) : Prop :=
  ∀ c, rollbackSource e c ≠ "" ∧ Slot.select (rollbackSource e c) = s c

def slotView : View Env Slots := ⟨Pending, effective, Restores⟩

/-- The view depends on the flag, the slots and the rollback variables only. -/
theorem kept_of_same {d e : Env} (hp : Pending e ↔ Pending d) (hc : effective e = effective d)
    (hr : rollbackSource e = rollbackSource d) : slotView.Kept d e :=
  ⟨hp, hc, fun s h c => by rw [hr]; exact h c⟩

theorem settled_kept (r : Env) : slotView.Kept r (settled r) :=
  kept_of_same (settled_pending r) (settled_effective r) (settled_rollbackSource r)

theorem stored_kept (r : Env) : slotView.Kept r (stored r r) :=
  kept_of_same (stored_pending r) (stored_effective r) (stored_rollbackSource r)

/-- The attempt counter is not part of the view. -/
theorem set_try_kept (e : Env) (v : String) : slotView.Kept e (e.set .ota_try v) := by
  apply kept_of_same
  · simp [Pending]
  · exact set_try_effective e v
  · exact set_try_rollbackSource e v

theorem counted_kept (e : Env) : slotView.Kept e (counted e) := set_try_kept e _

theorem cleared_kept (e : Env) : slotView.Kept e (cleared e) := set_try_kept e _

theorem rested_kept (r : Env) : slotView.Kept r (rested r r) := by
  unfold rested
  split_ifs
  · exact stored_kept r
  · exact (settled_kept r).trans (cleared_kept _)

/-- Mapping the slots keeps the view of an environment whose slots are set. -/
theorem ready_kept {e : Env} (h : ∀ c : Component, e c.slot ≠ "") :
    slotView.Kept e (ready e) := by
  apply kept_of_same
  · exact ready_pending e
  · funext c
    rw [effective, ready_slot, orDefault_of_ne (Slot.letter_ne_empty _), Slot.select_letter,
      effective, orDefault_of_ne (h c)]
  · exact ready_rollbackSource e

/-- Every rollback, whatever its last resort, falls back to the named slots. -/
theorem rolledBack_fellBack (last : Env → Component → String) {e : Env} (hp : Pending e) :
    slotView.FellBack e (rolledBack last e) := by
  refine ⟨hp, rolledBack_not_pending last e, ?_⟩
  intro s hs
  funext c
  obtain ⟨hn, hc⟩ := hs c
  have hr : restored last e c = rollbackSource e c := orDefault_of_ne hn _
  change effective (rolledBack last e) c = s c
  rw [effective, rolledBack_slot, hr, orDefault_of_ne hn, hc]

/-- From the slot mapping on, the stored environment is kept or falls back. -/
theorem tail_upkeep {o : Outcomes} {d e f : Env} {l : List Event} {b : Board}
    (hde : slotView.Kept d e) (hdf : slotView.Kept d f) (hs : ∀ c : Component, e c.slot ≠ "")
    (h : TailStep o e f l b) : slotView.Upkeep d b.disk := by
  cases h with
  | idle => exact .inl hdf
  | booted hk => exact .inl hdf
  | handedOff hk ht => exact .inl hdf
  | fellBack hk hp =>
    exact .inr ((hde.trans (ready_kept hs)).fellBack (rolledBack_fellBack safeSlot hp))

theorem boot_upkeep {o : Outcomes} {d : Env} {l : List Event} {b : Board}
    (h : BootStep o d d l b) : slotView.Upkeep d b.disk := by
  have hc : slotView.Kept d (counted (settled d)) := (settled_kept d).trans (counted_kept _)
  cases h with
  | off => exact .inl (.refl d)
  | migrated => exact .inl (stored_kept d)
  | counting hp => exact .inl (stored_kept d)
  | exhausted hp hx hl => exact .inl hc
  | gaveUp hp hx =>
    exact .inr (hc.fellBack (rolledBack_fellBack safeSlot
      ((hc.pending).mpr ((settled_pending d).mp hp))))
  | trial hp hx ht => exact tail_upkeep hc hc (counted_slot_ne_empty d) ht
  | normal hp ht =>
    exact tail_upkeep ((settled_kept d).trans (cleared_kept _)) (rested_kept d)
      (cleared_slot_ne_empty d) ht

/-- An environment boot.cmd has migrated. -/
def Migrated (e : Env) : Prop :=
  e .ota_env_ready = "2" ∧ e .altbootcmd = altbootcmdText

/-- Nobody else has marked an environment as migrated. -/
def Honest (e : Env) : Prop := e .ota_env_ready = "2" → e .altbootcmd = altbootcmdText

theorem Migrated.honest {e : Env} (h : Migrated e) : Honest e := fun _ => h.2

theorem migrated_of_same {d e : Env} (hr : e .ota_env_ready = d .ota_env_ready)
    (ha : e .altbootcmd = d .altbootcmd) (h : Migrated d) : Migrated e :=
  ⟨hr.trans h.1, ha.trans h.2⟩

theorem settled_migrated {r : Env} (h : Honest r) : Migrated (settled r) :=
  ⟨settled_ready r, settled_altbootcmd h⟩

theorem stored_migrated {r : Env} (h : Honest r) : Migrated (stored r r) := by
  unfold stored
  split_ifs with hr
  · exact ⟨hr, h hr⟩
  · exact settled_migrated h

theorem counted_migrated {e : Env} (h : Migrated e) : Migrated (counted e) :=
  migrated_of_same (by simp [counted]) (by simp [counted]) h

theorem rested_migrated {r : Env} (h : Honest r) : Migrated (rested r r) := by
  unfold rested
  split_ifs
  · exact stored_migrated h
  · exact migrated_of_same (by simp [cleared]) (by simp [cleared]) (settled_migrated h)

theorem ready_migrated {e : Env} (h : Migrated e) : Migrated (ready e) :=
  migrated_of_same (by simp [ready, prepared, mapped]) (by simp [ready, prepared, mapped]) h

theorem rolledBack_migrated (last : Env → Component → String) {e : Env} (h : Migrated e) :
    Migrated (rolledBack last e) :=
  migrated_of_same (by simp [rolledBack, closed]) (by simp [rolledBack, closed]) h

theorem tail_migrated {o : Outcomes} {e d : Env} {l : List Event} {b : Board}
    (he : Migrated e) (hd : Migrated d) (h : TailStep o e d l b) : Migrated b.disk := by
  cases h with
  | fellBack hk hp => exact rolledBack_migrated safeSlot (ready_migrated he)
  | _ => exact hd

/-- A boot which leaves a trace leaves a migrated environment. -/
theorem boot_migrated {o : Outcomes} {d : Env} {l : List Event} {b : Board} (hd : Honest d)
    (h : BootStep o d d l b) : b = ⟨d, none⟩ ∨ Migrated b.disk := by
  have hs := settled_migrated hd
  cases h with
  | off => exact .inl rfl
  | migrated => exact .inr (stored_migrated hd)
  | counting hp => exact .inr (stored_migrated hd)
  | exhausted hp hx hl => exact .inr (counted_migrated hs)
  | gaveUp hp hx => exact .inr (rolledBack_migrated safeSlot (counted_migrated hs))
  | trial hp hx ht => exact .inr (tail_migrated (counted_migrated hs) (counted_migrated hs) ht)
  | normal hp ht =>
    exact .inr (tail_migrated (migrated_of_same (by simp [cleared]) (by simp [cleared]) hs)
      (rested_migrated hd) ht)

/-- An update which may be started: none is pending, the new slots are slot
letters, and the rollback variables name the slots in use for both components. -/
structure Admissible (d : Env) (w : OtaWrite) : Prop where
  settled : ¬ Pending d
  letters : ∀ c v, w.slot c = some v → v = "A" ∨ v = "B"
  restores : Restores (w.apply d) (effective d)

def Allowed (b : Board) : Move → Prop
  | .startOTA w => Admissible b.disk w
  | _ => True

/-- The ledger of the updater: an update targets the slots it writes, and the
slots in use where it writes none. -/
def watch (l : Ledger Slots) (b : Board) : Move → Ledger Slots
  | .startOTA w => l.start fun c => (w.slot c).elim (l.good c) Slot.select
  | .confirm => if Pending b.disk then l.confirm else l
  | _ => l

structure Invariant (b : Board) (l : Ledger Slots) : Prop where
  agrees : slotView.Agrees l b.disk
  honest : Honest b.disk
  migrated : b.session.isSome ∨ Pending b.disk → Migrated b.disk

theorem apply_effective (w : OtaWrite) (d : Env)
    (hw : ∀ c v, w.slot c = some v → v = "A" ∨ v = "B") (c : Component) :
    effective (w.apply d) c = (w.slot c).elim (effective d c) Slot.select := by
  have hb : w.apply d .boot_slot = d .boot_slot := apply_of_ne w d (by decide)
  rw [effective, apply_slot, hb]
  cases hc : w.slot c with
  | none => rfl
  | some v =>
    have hv : v ≠ "" := by rcases hw c v hc with rfl | rfl <;> decide
    rw [Option.getD_some, orDefault_of_ne hv]
    rfl

theorem confirmed_migrated {d : Env} (h : Migrated d) : Migrated (confirmed d) :=
  migrated_of_same (confirmed_of_ne (by decide) d) (confirmed_of_ne (by decide) d) h

theorem apply_migrated (w : OtaWrite) {d : Env} (h : Migrated d) : Migrated (w.apply d) :=
  migrated_of_same (apply_of_ne w d (by decide)) (apply_of_ne w d (by decide)) h

theorem step_invariant {b b' : Board} {l : Ledger Slots} {m : Move} (hi : Invariant b l)
    (h : Step Allowed b m b') : Invariant b' (watch l b m) := by
  obtain ⟨ha, hn⟩ := h
  cases m with
  | boot o cut =>
    have hb := boot_move hn
    refine ⟨hi.agrees.upkeep (boot_upkeep hb), ?_, ?_⟩
    · rcases boot_migrated hi.honest hb with rfl | hm
      · exact hi.honest
      · exact hm.honest
    · intro hs
      rcases boot_migrated hi.honest hb with rfl | hm
      · exact hi.migrated (.inr (by simpa using hs))
      · exact hm
  | altboot o cut =>
    obtain ⟨hp, rfl | rfl⟩ := altboot_move hn
    · exact ⟨hi.agrees, hi.honest, fun _ => hi.migrated (.inr hp)⟩
    · have hm := rolledBack_migrated otherSlot (hi.migrated (.inr hp))
      exact ⟨hi.agrees.fellBack (rolledBack_fellBack otherSlot hp), hm.honest, fun _ => hm⟩
  | startOTA w =>
    obtain ⟨hs, rfl⟩ := startOTA_move hn
    have hm := apply_migrated w (hi.migrated (.inl hs))
    refine ⟨?_, hm.honest, fun _ => hm⟩
    have hg : effective b.disk = l.good := hi.agrees.settled ha.settled
    have ht : effective (w.apply b.disk) = fun c => (w.slot c).elim (l.good c) Slot.select :=
      funext fun c => by rw [apply_effective w b.disk ha.letters, hg]
    have hst := hi.agrees.start ha.settled (apply_pending w b.disk) ha.restores
    change slotView.Agrees (l.start (effective (w.apply b.disk))) _ at hst
    rwa [ht] at hst
  | confirm =>
    obtain ⟨hs, rfl⟩ := confirm_move hn
    have hm := confirmed_migrated (hi.migrated (.inl hs))
    refine ⟨?_, hm.honest, fun _ => hm⟩
    change slotView.Agrees (if Pending b.disk then l.confirm else l) _
    split_ifs with hp
    · exact hi.agrees.confirm hp (confirmed_not_pending b.disk) (confirmed_effective b.disk)
    · refine ⟨fun hc => (confirmed_not_pending b.disk hc).elim, fun _ => ?_⟩
      exact (confirmed_effective _).trans (hi.agrees.settled hp)

theorem run_invariant {d : Env} (hd : ¬ Pending d) (hh : Honest d) {ms : List Move}
    {p : Board × Ledger Slots}
    (run : Run (Watched (Step Allowed) watch) (⟨d, none⟩, ⟨effective d, effective d⟩) ms p) :
    Invariant p.1 p.2 := by
  have hstart : Invariant ⟨d, none⟩ ⟨effective d, effective d⟩ :=
    ⟨⟨fun hp => (hd hp).elim, fun _ => rfl⟩, hh, fun hs => by simp [hd] at hs⟩
  exact run.watched hstart fun _ _ _ _ => step_invariant

/-- The slots `bootz` is told are the effective ones of the stored environment. -/
theorem booting_slots {o : Outcomes} {d ram : Env} {l : List Event} {b : Board}
    {k : Option String} (h : BootStep o d d l b) (hm : .booting ram k ∈ l) (c : Component) :
    ram c.slot = (effective d c).letter := by
  obtain ⟨_, _, e, he, -, rfl, -, -⟩ := boot_booting h hm
  rw [ready_slot, he.select]

/-- A/B safety. While an update is pending the board shows its target, every
rollback leads back to the confirmed slots, and the installed altbootcmd is the
one boot.cmd stores; otherwise it shows the confirmed slots. A boot which
reaches `bootz` boots exactly what the board shows. -/
theorem ab_safety {d : Env} (hd : ¬ Pending d) (hh : Honest d) {ms : List Move} {b : Board}
    {l : Ledger Slots}
    (run : Run (Watched (Step Allowed) watch) (⟨d, none⟩, ⟨effective d, effective d⟩) ms (b, l)) :
    (Pending b.disk → effective b.disk = l.target ∧ Restores b.disk l.good ∧ Migrated b.disk) ∧
    (¬ Pending b.disk → effective b.disk = l.good) ∧
    (∀ o cut ram k, .booting ram k ∈ log b (.boot o cut) →
      ∀ c : Component, ram c.slot = (effective b.disk c).letter) := by
  have hi := run_invariant hd hh run
  refine ⟨?_, hi.agrees.settled, ?_⟩
  · intro hp
    obtain ⟨ht, hr⟩ := hi.agrees.trial hp
    exact ⟨ht, hr, hi.migrated (.inr hp)⟩
  · intro o cut ram k hm
    exact booting_slots (boot_move rfl) hm

/-- A board with an empty environment behind its first boot. -/
def firstBoot : Board := (execution bootCmd Env.fresh everyFile 100).state.board

/-- The kernel update is started in the session of the first boot. -/
def kernelStarted : Board := ⟨kernelUpdate.apply firstBoot.disk, firstBoot.session⟩

/-- The first boot with the update. -/
def kernelBooted : Board := (execution bootCmd kernelStarted.disk everyFile 100).state.board

def freshLedger : Ledger Slots := ⟨effective Env.fresh, effective Env.fresh⟩

def kernelLedger : Ledger Slots := watch freshLedger firstBoot (.startOTA kernelUpdate)

theorem kernelUpdate_admissible : Admissible firstBoot.disk kernelUpdate := by
  refine ⟨by decide, ?_, ?_⟩
  · intro c v h
    cases c
    · exact .inr (Option.some.inj h).symm
    · cases h
  · intro c
    cases c <;> decide

theorem kernelStarted_run (allowed : Board → Move → Prop)
    (hb : allowed ⟨Env.fresh, none⟩ (.boot everyFile 100))
    (hu : allowed firstBoot (.startOTA kernelUpdate)) :
    Run (Watched (Step allowed) watch) (⟨Env.fresh, none⟩, freshLedger)
      [.boot everyFile 100, .startOTA kernelUpdate] (kernelStarted, kernelLedger) := by
  have hfirst : Run (Watched (Step allowed) watch) (⟨Env.fresh, none⟩, freshLedger)
      [.boot everyFile 100] (firstBoot, freshLedger) := .single ⟨⟨hb, rfl⟩, rfl⟩
  exact hfirst.snoc ⟨⟨hu, startOTA_next (by decide) kernelUpdate⟩, rfl⟩

theorem ab_safety_kernel_update : ∃ b l,
    Run (Watched (Step Allowed) watch)
      (⟨Env.fresh, none⟩, ⟨effective Env.fresh, effective Env.fresh⟩)
      [.boot everyFile 100, .startOTA kernelUpdate, .boot everyFile 100] (b, l) ∧
    Pending b.disk ∧ effective b.disk .kernel = .B ∧ effective b.disk = l.target ∧
    Restores b.disk l.good := by
  have hstarted := kernelStarted_run Allowed trivial kernelUpdate_admissible
  have run : Run (Watched (Step Allowed) watch) (⟨Env.fresh, none⟩, freshLedger)
      [.boot everyFile 100, .startOTA kernelUpdate, .boot everyFile 100]
        (kernelBooted, kernelLedger) :=
    hstarted.snoc ⟨⟨trivial, rfl⟩, rfl⟩
  have hp : Pending kernelBooted.disk := by decide
  have h := (ab_safety (by decide) (fun h => absurd h (by decide)) run).1 hp
  exact ⟨_, _, run, hp, by decide, h.1, h.2.1⟩

end Okm6ullOta.SlotSafety
