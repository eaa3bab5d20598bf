import Okm6ullOta.SlotSafety
import Okm6ullOta.TrialCounter

/-!
# The three ways a pending update is rolled back

The counter branch, `ota_rollback` and the installed altbootcmd take both slots
from the rollback variables. They differ where a component has none: the first
two return it to slot A, altbootcmd to the slot its variable does not name. No
rollback variable is ever cleared, so a component which an update left alone is
returned to what an earlier update stored for it.
-/
namespace Okm6ullOta.RollbackPaths
open BootEnvironment PowerCutScripts UBootCommands BootScript BootLog BootSteps LabelledRuns
open BoardRuns TrialCounter

inductive Path where
  | counter | returned | altbootcmd
  deriving DecidableEq, Repr

/-- The slot a path returns a component to which has no rollback variable. -/
def Path.last : Path → Env → Component → String
  | counter => safeSlot
  | returned => safeSlot
  | altbootcmd => otherSlot

/-- `bootz` is executed. -/
def boots : Event → Bool
  | .booting .. => true
  | _ => false

def Takes (b : Board) (m : Move) : Path → Prop
  | .counter => ∃ o cut, m = .boot o cut ∧ (log b m).any givesUp
  | .returned => ∃ o cut, m = .boot o cut ∧ (log b m).any boots
  | .altbootcmd => ∃ o cut, m = .altboot o cut

/-- The move ends the pending update by a rollback on this path. -/
structure RollsBack (p : Path) (b : Board) (m : Move) (b' : Board) : Prop where
  pending : Pending b.disk
  moves : next b m = some b'
  takes : Takes b m p
  ended : ¬ Pending b'.disk

theorem Path.last_ne_empty (p : Path) (e : Env) (c : Component) : p.last e c ≠ "" := by
  have hA : "A" ≠ "" := by decide
  cases p with
  | altbootcmd => exact otherSlot_ne_empty e c
  | _ => exact hA

/-- A boot which ends a pending update has stored a rollback to slot A or what
the rollback variables name. -/
theorem boot_ended {o : Outcomes} {d : Env} {l : List Event} {b : Board}
    (h : BootStep o d d l b) (hp : Pending d) (hn : ¬ Pending b.disk) :
    ∃ e, rollbackSource e = rollbackSource d ∧ b.disk = rolledBack safeSlot e := by
  have hps : Pending (settled d) := (settled_pending d).mpr hp
  have hcs : rollbackSource (counted (settled d)) = rollbackSource d := by
    rw [counted, set_try_rollbackSource, settled_rollbackSource]
  have hcp : Pending (counted (settled d)) := (counted_pending _).mpr hps
  have hsp : Pending (stored d d) := (stored_pending d).mpr hp
  cases h with
  | off => exact (hn hp).elim
  | migrated => exact (hn hsp).elim
  | counting _ => exact (hn hsp).elim
  | exhausted _ hx hl => exact (hn hcp).elim
  | gaveUp _ hx => exact ⟨_, hcs, rfl⟩
  | trial _ hx ht =>
    rcases tail_disk ht with hd | ⟨-, hd⟩
    · exact (hn (hd ▸ hcp)).elim
    · exact ⟨_, (ready_rollbackSource _).trans hcs, hd⟩
  | normal hq ht => exact (hq hps).elim

/-- One specification for all paths: what is stored depends on the rollback
variables and, where there is none, on the last resort of the path. -/
theorem RollsBack.restores {p : Path} {b b' : Board} {m : Move} (h : RollsBack p b m b') :
    ∃ last e, b'.disk = rolledBack last e ∧ (∀ c, last e c = p.last b.disk c) ∧
      rollbackSource e = rollbackSource b.disk := by
  obtain ⟨hp, hm, ht, hn⟩ := h
  have hboot {o : Outcomes} {cut : ℕ} (hm : next b (.boot o cut) = some b') :
      ∃ last e, b'.disk = rolledBack last e ∧ (∀ c, last e c = safeSlot b.disk c) ∧
        rollbackSource e = rollbackSource b.disk := by
    obtain ⟨e, hs, hd⟩ := boot_ended (boot_move hm) hp hn
    exact ⟨safeSlot, e, hd, fun _ => rfl, hs⟩
  cases p with
  | counter =>
    obtain ⟨o, cut, rfl, -⟩ := ht
    exact hboot hm
  | returned =>
    obtain ⟨o, cut, rfl, -⟩ := ht
    exact hboot hm
  | altbootcmd =>
    obtain ⟨o, cut, rfl⟩ := ht
    obtain ⟨-, rfl | rfl⟩ := altboot_move hm
    · exact (hn hp).elim
    · exact ⟨otherSlot, b.disk, rfl, fun _ => rfl, rfl⟩

theorem RollsBack.slots {p : Path} {b b' : Board} {m : Move} (h : RollsBack p b m b')
    (c : Component) : effective b'.disk c =
      Slot.select (orDefault (rollbackSource b.disk c) (p.last b.disk c)) := by
  obtain ⟨last, e, hd, hl, hs⟩ := h.restores
  have hne : last e c ≠ "" := by
    rw [hl]
    exact p.last_ne_empty b.disk c
  rw [hd, rolledBack_effective hne, restored, hl, hs]

theorem RollsBack.closed {p : Path} {b b' : Board} {m : Move} (h : RollsBack p b m b') :
    b'.disk .upgrade_available = "0" ∧ b'.disk .ota_try = "0" ∧ b'.disk .bootcount = "0" := by
  obtain ⟨last, e, hd, -⟩ := h.restores
  rw [hd]
  simp [rolledBack, BootLog.closed]

/-- Between the start of an update and its end nobody writes but the scripts. -/
def Trial (_ : Board) : Move → Prop
  | .boot _ _ => True
  | .altboot _ _ => True
  | _ => False

instance (b : Board) : (m : Move) → Decidable (Trial b m)
  | .boot _ _ | .altboot _ _ => .isTrue trivial
  | .startOTA _ | .confirm => .isFalse id

theorem boot_still_pending {o : Outcomes} {d : Env} {l : List Event} {b : Board}
    (h : BootStep o d d l b) (hp : Pending b.disk) :
    Pending d ∧ effective b.disk = effective d ∧ rollbackSource b.disk = rollbackSource d := by
  have hstored (hp : Pending (stored d d)) : Pending d ∧ effective (stored d d) = effective d ∧
      rollbackSource (stored d d) = rollbackSource d :=
    ⟨(stored_pending d).mp hp, stored_effective d, stored_rollbackSource d⟩
  have hcounted (hp : Pending (settled d)) : Pending d ∧
      effective (counted (settled d)) = effective d ∧
      rollbackSource (counted (settled d)) = rollbackSource d := by
    rw [counted, set_try_effective, set_try_rollbackSource, settled_effective,
      settled_rollbackSource]
    exact ⟨(settled_pending d).mp hp, rfl, rfl⟩
  cases h with
  | off => exact ⟨hp, rfl, rfl⟩
  | migrated => exact hstored hp
  | counting hq => exact hstored hp
  | exhausted hq hx hl => exact hcounted hq
  | gaveUp hq hx => exact (rolledBack_not_pending _ _ hp).elim
  | trial hq hx ht =>
    rcases tail_disk ht with hd | ⟨-, hd⟩
    · rw [hd]
      exact hcounted hq
    · rw [hd] at hp
      exact (rolledBack_not_pending _ _ hp).elim
  | normal hq ht =>
    rw [normal_disk ht hq, rested_pending, ← settled_pending] at hp
    exact (hq hp).elim

/-- As long as the update of `d` is pending, its slots and its way back stand. -/
def Stands (d : Env) (b : Board) : Prop :=
  Pending b.disk → effective b.disk = effective d ∧ rollbackSource b.disk = rollbackSource d

theorem trial_stands {d : Env} {b b' : Board} {m : Move} (hs : Stands d b)
    (h : Step Trial b m b') : Stands d b' := by
  obtain ⟨ha, hn⟩ := h
  intro hp
  cases m with
  | startOTA w => exact ha.elim
  | confirm => exact ha.elim
  | altboot o cut =>
    obtain ⟨hq, rfl | rfl⟩ := altboot_move hn
    · exact hs hq
    · exact (rolledBack_not_pending _ _ hp).elim
  | boot o cut =>
    obtain ⟨hq, he, hr⟩ := boot_still_pending (boot_move hn) hp
    obtain ⟨he', hr'⟩ := hs hq
    exact ⟨he.trans he', hr.trans hr'⟩

/-- A rollback from `d` on this path leaves a component in its slot. -/
def Survives (p : Path) (d : Env) (c : Component) : Prop :=
  if rollbackSource d c ≠ "" then Slot.select (rollbackSource d c) = effective d c
  else if p = .altbootcmd then d c.slot ≠ "B" ∧ effective d c = .B
  else effective d c = .A

theorem survives_iff {p : Path} {d : Env} {c : Component} :
    Slot.select (orDefault (rollbackSource d c) (p.last d c)) = effective d c ↔
      Survives p d c := by
  unfold Survives
  split_ifs with hs hp
  · rw [orDefault_of_ne hs]
  · rw [not_not] at hs
    rw [hs, orDefault_empty, hp]
    change Slot.select (otherSlot d c) = _ ↔ _
    unfold otherSlot
    split_ifs with hb
    · have he : effective d c = .B := by
        rw [effective, hb]
        rfl
      simp [hb, he, Slot.select]
    · simp [hb, Slot.select, eq_comm]
  · rw [not_not] at hs
    have hl : p.last d c = "A" := by
      cases p with
      | altbootcmd => exact (hp rfl).elim
      | _ => rfl
    rw [hs, orDefault_empty, hl, eq_comm]
    rfl

theorem oneComponent_rollbackSource {old : String} (h : old ≠ "") (c : Component) (new : String)
    (d : Env) : rollbackSource ((oneComponent c new old).apply d) c = old := by
  rw [rollbackSource, apply_rollback]
  simp [oneComponent, orDefault_of_ne h]

theorem oneComponent_effective (c : Component) (new old : String) (d : Env) :
    effective ((oneComponent c new old).apply d) c.other = effective d c.other := by
  have hc : c.other ≠ c := by cases c <;> decide
  have hb : (oneComponent c new old).apply d .boot_slot = d .boot_slot :=
    apply_of_ne _ d (by decide)
  rw [effective, apply_slot, hb]
  simp [oneComponent, hc, effective]

/-- An update of one component which returns it to the slot it is leaving: its
rollback restores that component, and leaves the other one in its slot exactly
when the rollback variables or the last resort of the path happen to name it. -/
theorem rollback_restores_iff {c : Component} {new : String} {b₀ b₁ b b' : Board}
    {ms : List Move} {m : Move} {p : Path}
    (start : next b₀ (.startOTA (oneComponent c new (effective b₀.disk c).letter)) = some b₁)
    (run : Run (Step Trial) b₁ ms b) (back : RollsBack p b m b') :
    (effective b'.disk c = effective b₀.disk c ∧
      effective b'.disk c.other = effective b₀.disk c.other) ↔ Survives p b.disk c.other := by
  obtain ⟨-, rfl⟩ := startOTA_move start
  have hstands : Stands _ b := run.invariant (fun _ => ⟨rfl, rfl⟩) fun _ _ _ => trial_stands
  obtain ⟨he, hr⟩ := hstands back.pending
  have hc : effective b'.disk c = effective b₀.disk c := by
    rw [back.slots, hr, oneComponent_rollbackSource (Slot.letter_ne_empty _),
      orDefault_of_ne (Slot.letter_ne_empty _), Slot.select_letter]
  have ho : effective b.disk c.other = effective b₀.disk c.other := by
    rw [he, oneComponent_effective]
  rw [← survives_iff, ← back.slots, ho]
  exact and_iff_right hc

instance (p : Path) (d : Env) (c : Component) : Decidable (Survives p d c) :=
  inferInstanceAs (Decidable (ite _ _ (ite _ _ _)))

/-- A test: the update is started, tried, and rolled back by its counter. -/
def triedAndRolledBack (c : Component) (new : String) (wanted : Board → Board → Bool)
    (b₀ : Board) : Bool :=
  (next b₀ (.startOTA (oneComponent c new (effective b₀.disk c).letter))).any fun b₁ =>
    (replay (tested (fun b m => decide (Trial b m)) next) b₁ threeBoots).any fun b =>
      (next b (.boot everyFile 100)).any fun b' =>
        decide (Pending b.disk ∧ (log b (.boot everyFile 100)).any givesUp ∧
          ¬ Pending b'.disk) && wanted b b'

theorem rollsBack_of_tried {c : Component} {new : String} {wanted : Board → Board → Bool}
    {b₀ : Board} (h : triedAndRolledBack c new wanted b₀) : ∃ b₁ b b',
    next b₀ (.startOTA (oneComponent c new (effective b₀.disk c).letter)) = some b₁ ∧
    Run (Step Trial) b₁ threeBoots b ∧ RollsBack .counter b (.boot everyFile 100) b' ∧
    wanted b b' := by
  obtain ⟨b₁, start, h⟩ := (Option.any_eq_true ..).mp h
  obtain ⟨b, run, h⟩ : ∃ b, Run (Step Trial) b₁ threeBoots b ∧ _ :=
    tested_run (fun _ _ => of_decide_eq_true) _ _ _ h
  obtain ⟨b', hn, h⟩ := (Option.any_eq_true ..).mp h
  rw [Bool.and_eq_true, decide_eq_true_eq] at h
  obtain ⟨⟨hp, hg, he⟩, hw⟩ := h
  exact ⟨b₁, b, b', start, run, ⟨hp, hn, ⟨_, _, rfl, hg⟩, he⟩, hw⟩

theorem rollback_restores_kernel_update : ∃ b₀ b₁ b b',
    Run (Step fun _ _ => True) ⟨Env.fresh, none⟩ [.boot everyFile 100] b₀ ∧
    next b₀ (.startOTA (oneComponent .kernel "B" (effective b₀.disk .kernel).letter)) = some b₁ ∧
    Run (Step Trial) b₁ threeBoots b ∧ RollsBack .counter b (.boot everyFile 100) b' ∧
    effective b'.disk .kernel = effective b₀.disk .kernel ∧
    effective b'.disk .rootfs = effective b₀.disk .rootfs := by
  obtain ⟨b₀, run₀, h₀⟩ := free_run _ _
    (triedAndRolledBack .kernel "B" fun b _ => decide (Survives .counter b.disk .rootfs))
    (show (replay (tested (fun _ _ => true) next) ⟨Env.fresh, none⟩ [.boot everyFile 100]).any _
      by decide)
  obtain ⟨b₁, b, b', start, run, back, hs⟩ := rollsBack_of_tried h₀
  have hc := (rollback_restores_iff start run back).mpr (of_decide_eq_true hs)
  exact ⟨b₀, b₁, b, b', run₀, start, run, back, hc⟩

/-- After a confirmed update of the rootfs, the rollback of an update of the
kernel returns the rootfs to the slot it was in before. -/
theorem rollback_of_stale_variable : ∃ b₀ b₁ b b',
    Run (Step fun _ _ => True) ⟨Env.fresh, none⟩
      [.boot everyFile 100, .startOTA (oneComponent .rootfs "B" "A"), .boot everyFile 100,
        .confirm, .boot everyFile 100] b₀ ∧
    ¬ Pending b₀.disk ∧ effective b₀.disk .rootfs = .B ∧
    next b₀ (.startOTA (oneComponent .kernel "B" (effective b₀.disk .kernel).letter)) = some b₁ ∧
    Run (Step Trial) b₁ threeBoots b ∧ RollsBack .counter b (.boot everyFile 100) b' ∧
    effective b'.disk .rootfs = .A := by
  obtain ⟨b₀, run₀, h₀⟩ := free_run _ _
    (fun b₀ => decide (¬ Pending b₀.disk ∧ effective b₀.disk .rootfs = .B) &&
      triedAndRolledBack .kernel "B" (fun _ b' => decide (effective b'.disk .rootfs = .A)) b₀)
    (show (replay (tested (fun _ _ => true) next) ⟨Env.fresh, none⟩
      [.boot everyFile 100, .startOTA (oneComponent .rootfs "B" "A"), .boot everyFile 100,
        .confirm, .boot everyFile 100]).any _ by decide)
  rw [Bool.and_eq_true, decide_eq_true_eq] at h₀
  obtain ⟨⟨hp, hB⟩, h₀⟩ := h₀
  obtain ⟨b₁, b, b', start, run, back, hA⟩ := rollsBack_of_tried h₀
  exact ⟨b₀, b₁, b, b', run₀, hp, hB, start, run, back, of_decide_eq_true hA⟩

/-- The image and the root partition the next boot maps. -/
def nextKernel (e : Env) : String := mapped (cleared (settled e)) .ota_kernel

def nextRoot (e : Env) : String := mapped (cleared (settled e)) .ota_root

/-- The same choice at the next boot, and the same counters. -/
structure Agree (e f : Env) : Prop where
  kernel : nextKernel e = nextKernel f
  root : nextRoot e = nextRoot f
  upgrade : e .upgrade_available = f .upgrade_available
  tries : e .ota_try = f .ota_try
  bootcount : e .bootcount = f .bootcount

theorem cleared_select (e : Env) (c : Component) :
    Slot.select (cleared (settled e) c.slot) = effective e c := by
  rw [cleared, set_try_slot, settled_select]

theorem nextKernel_eq (e : Env) : nextKernel e = imageFile (effective e .kernel) := by
  rw [← cleared_select]
  simp [nextKernel, mapped, Component.slot]

theorem nextRoot_eq (e : Env) : nextRoot e = rootPartition (effective e .rootfs) := by
  rw [← cleared_select]
  simp [nextRoot, mapped, Component.slot]

theorem imageFile_injective : Function.Injective imageFile := by
  intro s t h
  cases s <;> cases t <;> first | rfl | exact absurd h (by decide)

theorem rootPartition_injective : Function.Injective rootPartition := by
  intro s t h
  cases s <;> cases t <;> first | rfl | exact absurd h (by decide)

theorem agree_iff {p q : Path} {b₁ b₂ b b' : Board} {m n : Move} (h : RollsBack p b₁ m b)
    (k : RollsBack q b₂ n b') :
    Agree b.disk b'.disk ↔ ∀ c, effective b.disk c = effective b'.disk c := by
  obtain ⟨hu, ht, hb⟩ := h.closed
  obtain ⟨ku, kt, kb⟩ := k.closed
  constructor
  · rintro ⟨hk, hr, -⟩ c
    rw [nextKernel_eq, nextKernel_eq] at hk
    rw [nextRoot_eq, nextRoot_eq] at hr
    cases c with
    | kernel => exact imageFile_injective hk
    | rootfs => exact rootPartition_injective hr
  · intro he
    refine ⟨?_, ?_, hu.trans ku.symm, ht.trans kt.symm, hb.trans kb.symm⟩
    · rw [nextKernel_eq, nextKernel_eq, he]
    · rw [nextRoot_eq, nextRoot_eq, he]

theorem last_set_try (p : Path) (d : Env) (v : String) (c : Component) :
    p.last (d.set .ota_try v) c = p.last d c := by
  have hc : c.slot ≠ .ota_try := by cases c <;> decide
  cases p with
  | altbootcmd => exact otherSlot_set hc d v
  | _ => rfl

theorem counter_rollsBack {d : Env} (hp : Pending d) (ht : tries d = 3) (o : Outcomes) :
    ∃ b, RollsBack .counter ⟨d, none⟩ (.boot o bootCmd.size) b := by
  have hx := exhausted_third ht
  have hl : log ⟨d, none⟩ (.boot o bootCmd.size) = bootLog o d := boot_log_size le_rfl
  have hn : next ⟨d, none⟩ (.boot o bootCmd.size) =
      some (execution bootCmd d o bootCmd.size).state.board := rfl
  have hb := boot_move hn
  rw [hl] at hb
  have hsaved : .saved (rolledBack safeSlot (counted (settled d))) ∈ bootLog o d := by
    rw [exhausted_bootLog hp hx]
    simp
  have hd := (exhausted_boot hb hp hx).2 ⟨_, hsaved, rolledBack_not_pending _ _⟩
  refine ⟨_, hp, rfl, ⟨o, _, rfl, ?_⟩, ?_⟩
  · rw [hl, exhausted_bootLog hp hx]
    simp [givesUp]
  · rw [hd]
    exact rolledBack_not_pending _ _

theorem returned_rollsBack {d : Env} {o : Outcomes} (hp : Pending d) (ht : tries d ≤ 2)
    (hk : (kernelImage o (counted (settled d))).isSome) (hf : (dtbImage o).isSome)
    (hz : o.bootzReturns) : ∃ b, RollsBack .returned ⟨d, none⟩ (.boot o bootCmd.size) b := by
  have hps : Pending (settled d) := (settled_pending d).mpr hp
  have hpr : Pending (ready (counted (settled d))) :=
    (ready_pending _).mpr ((counted_pending _).mpr hps)
  have hx : ¬ Exhausted (counted (settled d)) := by
    rw [exhausted_counted (by rw [tries_settled]; omega), tries_settled]
    omega
  have htail : tailLog o (counted (settled d)) =
      [.booting (ready (counted (settled d))) (kernelImage o (counted (settled d))),
        .saved (rolledBack safeSlot (ready (counted (settled d))))] := by
    have hn : ¬ ((kernelImage o (counted (settled d))).isNone ∨ (dtbImage o).isNone) := by
      simp [Option.isNone_iff_eq_none, Option.isSome_iff_ne_none.mp hk,
        Option.isSome_iff_ne_none.mp hf]
    rw [tailLog, if_neg hn, bootzLog, if_pos hz, ← ready, if_pos hpr]
  have hl : log ⟨d, none⟩ (.boot o bootCmd.size) =
      installLog (defaulted d) ++ (countLog (settled d) ++ tailLog o (counted (settled d))) := by
    rw [boot_log_size le_rfl, trial_bootLog hp hx]
  have hd : (execution bootCmd d o bootCmd.size).state.board.disk =
      rolledBack safeSlot (ready (counted (settled d))) := by
    rw [execution_board, show (execution bootCmd d o bootCmd.size).log = _ from hl, htail,
      List.foldl_append, List.foldl_append]
    rfl
  refine ⟨_, hp, rfl, ⟨o, _, rfl, ?_⟩, ?_⟩
  · rw [hl, htail]
    simp [boots]
  · rw [hd]
    exact rolledBack_not_pending _ _

theorem altbootcmd_rollsBack {d : Env} (hp : Pending d) (ha : d .altbootcmd = altbootcmdText)
    (o : Outcomes) : ∃ b, RollsBack .altbootcmd ⟨d, none⟩ (.altboot o altbootcmd.size) b :=
  ⟨_, hp, altboot_next hp ha o, ⟨o, _, rfl⟩, rolledBack_not_pending _ _⟩

/-- The slots a rollback leaves do not depend on the counter it starts from. -/
theorem RollsBack.slots_set_try {p : Path} {d : Env} {v : String} {m : Move} {b : Board}
    (h : RollsBack p ⟨d.set .ota_try v, none⟩ m b) (c : Component) : effective b.disk c =
      Slot.select (orDefault (rollbackSource d c) (p.last d c)) := by
  rw [h.slots, set_try_rollbackSource, last_set_try]

/-- A component without a rollback variable is returned to different slots. -/
theorem last_resorts_differ {d : Env} (hp : Pending d) (ha : d .altbootcmd = altbootcmdText)
    {c : Component} (hs : rollbackSource d c = "") (hc : d c.slot ≠ "B") : ∃ m n b b',
    RollsBack .counter ⟨d.set .ota_try "3", none⟩ m b ∧
    RollsBack .altbootcmd ⟨d.set .ota_try "3", none⟩ n b' ∧ ¬ Agree b.disk b'.disk := by
  have hp' : Pending (d.set .ota_try "3") := by simpa [Pending] using hp
  have ha' : d.set .ota_try "3" .altbootcmd = altbootcmdText := by simpa using ha
  have ht : tries (d.set .ota_try "3") = 3 := by
    rw [tries, Env.set_self]
    rfl
  obtain ⟨b, hb⟩ := counter_rollsBack hp' ht everyFile
  obtain ⟨b', hb'⟩ := altbootcmd_rollsBack hp' ha' everyFile
  refine ⟨_, _, b, b', hb, hb', ?_⟩
  intro h
  have he := (agree_iff hb hb').mp h c
  rw [hb.slots_set_try, hb'.slots_set_try, hs] at he
  simp [Path.last, safeSlot, otherSlot, hc, Slot.select] at he

/-- From an environment with a pending update, whatever its counter holds, all
rollbacks agree exactly when every component has a rollback variable, or its
slot variable is `B`. -/
theorem rollbacks_agree_iff {d : Env} (hp : Pending d) (ha : d .altbootcmd = altbootcmdText) :
    (∀ p q v w m n b b', RollsBack p ⟨d.set .ota_try v, none⟩ m b →
      RollsBack q ⟨d.set .ota_try w, none⟩ n b' → Agree b.disk b'.disk) ↔
    ∀ c, rollbackSource d c ≠ "" ∨ d c.slot = "B" := by
  constructor
  · intro h c
    by_contra hn
    rw [not_or, not_not] at hn
    obtain ⟨m, n, b, b', hb, hb', hne⟩ := last_resorts_differ hp ha hn.1 hn.2
    exact hne (h _ _ _ _ _ _ _ _ hb hb')
  · intro h p q v w m n b b' hb hb'
    rw [agree_iff hb hb']
    intro c
    rw [hb.slots_set_try, hb'.slots_set_try]
    rcases h c with hs | hs
    · rw [orDefault_of_ne hs, orDefault_of_ne hs]
    · have hl (p : Path) : p.last d c = "A" := by
        cases p <;> simp [Path.last, safeSlot, otherSlot, hs]
      rw [hl, hl]

/-- What is stored once an update is started from the first session of a board. -/
def firstUpdate (w : OtaWrite) : Env :=
  w.apply (execution bootCmd Env.fresh everyFile 100).state.board.disk

theorem firstUpdate_altbootcmd (w : OtaWrite) : firstUpdate w .altbootcmd = altbootcmdText := by
  have hn : next ⟨Env.fresh, none⟩ (.boot everyFile 100) =
      some (execution bootCmd Env.fresh everyFile 100).state.board := rfl
  have hh : SlotSafety.Honest Env.fresh := fun h => absurd h (by decide)
  have hs : (execution bootCmd Env.fresh everyFile 100).state.board.session.isSome := by decide
  have ha : firstUpdate w .altbootcmd =
      (execution bootCmd Env.fresh everyFile 100).state.board.disk .altbootcmd :=
    apply_of_ne w _ (by decide)
  rw [ha]
  rcases SlotSafety.boot_migrated hh (boot_move hn) with hb | hm
  · rw [hb] at hs
    cases hs
  · exact hm.2

theorem rollbacks_agree_kernel_update : ∃ b b',
    RollsBack .returned ⟨(firstUpdate kernelUpdate).set .ota_try "0", none⟩
      (.boot notAnImage bootCmd.size) b ∧
    RollsBack .altbootcmd ⟨(firstUpdate kernelUpdate).set .ota_try "1", none⟩
      (.altboot everyFile altbootcmd.size) b' ∧
    Agree b.disk b'.disk := by
  have hp : Pending (firstUpdate kernelUpdate) := apply_pending _ _
  have ha := firstUpdate_altbootcmd kernelUpdate
  have hset (v : String) : Pending ((firstUpdate kernelUpdate).set .ota_try v) := by
    simpa [Pending] using hp
  have ht : tries ((firstUpdate kernelUpdate).set .ota_try "0") ≤ 2 := by
    rw [tries, Env.set_self]
    decide
  have ha' : (firstUpdate kernelUpdate).set .ota_try "1" .altbootcmd = altbootcmdText := by
    simpa using ha
  have hk (e : Env) : (kernelImage notAnImage e).isSome := rfl
  obtain ⟨b, hb⟩ := returned_rollsBack (hset "0") ht (hk _) rfl rfl
  obtain ⟨b', hb'⟩ := altbootcmd_rollsBack (hset "1") ha' everyFile
  have hnamed (c : Component) : rollbackSource (firstUpdate kernelUpdate) c ≠ "" := by
    cases c <;> decide
  have h := (rollbacks_agree_iff hp ha).mpr fun c => .inl (hnamed c)
  exact ⟨b, b', hb, hb', h _ _ _ _ _ _ _ _ hb hb'⟩

/-- After the start of an update of the rootfs alone, altbootcmd moves the kernel. -/
theorem altbootcmd_toggles : ¬ ∀ d : Env, Pending d → d .altbootcmd = altbootcmdText →
    ∀ p q v w m n b b', RollsBack p ⟨d.set .ota_try v, none⟩ m b →
      RollsBack q ⟨d.set .ota_try w, none⟩ n b' → Agree b.disk b'.disk := by
  intro h
  have hp : Pending (firstUpdate (oneComponent .rootfs "B" "A")) := apply_pending _ _
  have ha := firstUpdate_altbootcmd (oneComponent .rootfs "B" "A")
  obtain ⟨m, n, b, b', hb, hb', hn⟩ :=
    last_resorts_differ (c := .kernel) hp ha (by decide) (by decide)
  exact hn (h _ hp ha _ _ _ _ _ _ _ _ hb hb')

end Okm6ullOta.RollbackPaths
