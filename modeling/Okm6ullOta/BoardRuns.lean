import Okm6ullOta.BootSteps
import Okm6ullOta.LabelledRuns

/-!
# The board: boots, power cuts and what Linux writes

A move is an execution of boot.cmd or of the installed altbootcmd after a
reset, cut after any number of commands, or a write by the Linux updater from a
running session. The updater is not part of this repository: it starts an
update by writing slots, rollback slots and the flag, and confirms one by
clearing the flag. Which of these writes a run contains is a parameter of the
step relation.
-/
namespace Okm6ullOta.BoardRuns
open BootEnvironment PowerCutScripts UBootCommands BootScript BootLog BootSteps LabelledRuns

/-- The slot variables one update writes. -/
structure OtaWrite where
  slot : Component → Option String
  rollback : Component → Option String
  legacy : Option String

def put (e : Env) (x : Var) : Option String → Env
  | none => e
  | some v => e.set x v

theorem put_self (e : Env) (x : Var) (v : Option String) : put e x v x = v.getD (e x) := by
  cases v <;> simp [put]

theorem put_of_ne {x y : Var} (h : y ≠ x) (e : Env) (v : Option String) : put e x v y = e y := by
  cases v <;> simp [put, h]

/-- All writes of an update land together. -/
def OtaWrite.apply (w : OtaWrite) (e : Env) : Env :=
  let e := put e .kernel_slot (w.slot .kernel)
  let e := put e .rootfs_slot (w.slot .rootfs)
  let e := put e .kernel_rollback_slot (w.rollback .kernel)
  let e := put e .rootfs_rollback_slot (w.rollback .rootfs)
  let e := put e .rollback_slot w.legacy
  e.set .upgrade_available "1"

theorem apply_slot (w : OtaWrite) (e : Env) (c : Component) :
    w.apply e c.slot = (w.slot c).getD (e c.slot) := by
  cases c <;> simp [OtaWrite.apply, Component.slot, put_of_ne, put_self]

theorem apply_rollback (w : OtaWrite) (e : Env) (c : Component) :
    w.apply e c.rollback = (w.rollback c).getD (e c.rollback) := by
  cases c <;> simp [OtaWrite.apply, Component.rollback, put_of_ne, put_self]

theorem apply_pending (w : OtaWrite) (e : Env) : Pending (w.apply e) := by
  simp [OtaWrite.apply, Pending]

theorem apply_of_ne {x : Var} (w : OtaWrite) (e : Env)
    (h : x ∉ [Var.kernel_slot, .rootfs_slot, .kernel_rollback_slot, .rootfs_rollback_slot,
      .rollback_slot, .upgrade_available]) : w.apply e x = e x := by
  simp only [List.mem_cons, List.not_mem_nil, or_false, not_or] at h
  obtain ⟨h₁, h₂, h₃, h₄, h₅, h₆⟩ := h
  simp [OtaWrite.apply, put_of_ne, h₁, h₂, h₃, h₄, h₅, h₆]

def confirmed (e : Env) : Env := e.set .upgrade_available "0"

theorem confirmed_not_pending (e : Env) : ¬ Pending (confirmed e) := by
  simp [confirmed, Pending]

theorem confirmed_of_ne {x : Var} (h : x ≠ .upgrade_available) (e : Env) :
    confirmed e x = e x := Env.set_of_ne h e "0"

theorem confirmed_effective (d : Env) : effective (confirmed d) = effective d := by
  funext c
  cases c <;> simp [effective, confirmed, Component.slot]

inductive Move where
  | boot (o : Outcomes) (cut : ℕ)
  | altboot (o : Outcomes) (cut : ℕ)
  | startOTA (w : OtaWrite)
  | confirm

/-- An execution of a script out of reset, cut after so many commands. -/
def execution (p : Script Cmd) (d : Env) (o : Outcomes) (cut : ℕ) : Config Cmd Machine Event :=
  after (exec o) cut (PowerCutScripts.boot p (Machine.start d d))

/-- U-Boot runs what is stored in altbootcmd while an update is pending; only
the text boot.cmd installs is known to this model. -/
def next (b : Board) : Move → Option Board
  | .boot o cut => some (execution bootCmd b.disk o cut).state.board
  | .altboot o cut =>
    if Pending b.disk ∧ b.disk .altbootcmd = altbootcmdText then
      some (execution altbootcmd b.disk o cut).state.board
    else none
  | .startOTA w => if b.session.isSome then some { b with disk := w.apply b.disk } else none
  | .confirm => if b.session.isSome then some { b with disk := confirmed b.disk } else none

/-- What an execution has logged when its power is cut. -/
def log (b : Board) : Move → List Event
  | .boot o cut => (execution bootCmd b.disk o cut).log
  | .altboot o cut => (execution altbootcmd b.disk o cut).log
  | _ => []

/-- The moves of a system which allows some of them in each state. -/
def Step (allowed : Board → Move → Prop) (b : Board) (m : Move) (b' : Board) : Prop :=
  allowed b m ∧ next b m = some b'

theorem execution_board (p : Script Cmd) (d : Env) (o : Outcomes) (cut : ℕ) :
    (execution p d o cut).state.board =
      (execution p d o cut).log.foldl Board.absorb ⟨d, none⟩ :=
  (board_tracks o).after cut p (Machine.start d d)

theorem boot_log_cut (d : Env) (o : Outcomes) (cut : ℕ) :
    (execution bootCmd d o cut).log <+: bootLog o d := by
  have h := after_log_prefix (exec o) cut bootCmd (Machine.start d d)
  rwa [eval_bootCmd_log] at h

theorem boot_log_size {b : Board} {o : Outcomes} {cut : ℕ} (h : bootCmd.size ≤ cut) :
    log b (.boot o cut) = bootLog o b.disk := by
  obtain ⟨-, hl⟩ := after_size (exec o) h (Machine.start b.disk b.disk)
  rw [eval_bootCmd_log] at hl
  exact hl

/-- What one boot can do. -/
theorem boot_move {b b' : Board} {o : Outcomes} {cut : ℕ}
    (h : next b (.boot o cut) = some b') :
    BootStep o b.disk b.disk (log b (.boot o cut)) b' := by
  obtain rfl := Option.some.inj h
  rw [execution_board]
  exact boot_step (boot_log_cut b.disk o cut)

/-- An altbootcmd which is cut has saved its rollback or has done nothing. -/
theorem altboot_move {b b' : Board} {o : Outcomes} {cut : ℕ}
    (h : next b (.altboot o cut) = some b') :
    Pending b.disk ∧ (b' = ⟨b.disk, none⟩ ∨ b' = ⟨rolledBack otherSlot b.disk, none⟩) := by
  simp only [next] at h
  split_ifs at h with hg
  obtain rfl := Option.some.inj h
  refine ⟨hg.1, ?_⟩
  have hp := after_log_prefix (exec o) cut altbootcmd (Machine.start b.disk b.disk)
  rw [eval_altbootcmd] at hp
  rw [execution_board]
  rcases List.prefix_cons_iff.mp hp with hl | ⟨t, hl, ht⟩
  · left
    rw [execution, hl]
    rfl
  · right
    rw [execution, hl, List.prefix_nil.mp ht]
    rfl

/-- An altbootcmd which is not cut. -/
theorem altboot_next {b : Board} (hp : Pending b.disk) (ha : b.disk .altbootcmd = altbootcmdText)
    (o : Outcomes) : next b (.altboot o altbootcmd.size) =
      some ⟨rolledBack otherSlot b.disk, none⟩ := by
  obtain ⟨-, hl⟩ := after_size (exec o) le_rfl (Machine.start b.disk b.disk)
  rw [eval_altbootcmd] at hl
  simp only [next, hp, ha, and_self, if_true, execution_board]
  rw [execution, hl]
  rfl

theorem startOTA_next {b : Board} (h : b.session.isSome) (w : OtaWrite) :
    next b (.startOTA w) = some { b with disk := w.apply b.disk } := by
  simp only [next, h, if_true]

theorem confirm_next {b : Board} (h : b.session.isSome) :
    next b .confirm = some { b with disk := confirmed b.disk } := by
  simp only [next, h, if_true]

theorem startOTA_move {b b' : Board} {w : OtaWrite} (h : next b (.startOTA w) = some b') :
    b.session.isSome ∧ b' = { b with disk := w.apply b.disk } := by
  simp only [next] at h
  split_ifs at h with hs
  exact ⟨hs, (Option.some.inj h).symm⟩

theorem confirm_move {b b' : Board} (h : next b .confirm = some b') :
    b.session.isSome ∧ b' = { b with disk := confirmed b.disk } := by
  simp only [next] at h
  split_ifs at h with hs
  exact ⟨hs, (Option.some.inj h).symm⟩

/-- Every file is there and loads, and Linux takes over. -/
def everyFile : Outcomes := ⟨fun _ => true, fun _ => true, false⟩

/-- Everything loads, and `bootz` refuses the image. -/
def notAnImage : Outcomes := ⟨fun _ => true, fun _ => true, true⟩

/-- Kernel slot B on trial, with both components to return to slot A. -/
def kernelUpdate : OtaWrite where
  slot
    | .kernel => some "B"
    | .rootfs => none
  rollback _ := some "A"
  legacy := none

/-- An update of one component, as an updater writes it which leaves the other
component alone. -/
def oneComponent (c : Component) (new old : String) : OtaWrite where
  slot d := if d = c then some new else none
  rollback d := if d = c then some old else none
  legacy := none

def threeBoots : List Move := [.boot everyFile 100, .boot everyFile 100, .boot everyFile 100]

/-- A first boot, an update of the kernel, and three boots on trial. -/
def threeTrials : List Move := [.boot everyFile 100, .startOTA kernelUpdate] ++ threeBoots

end Okm6ullOta.BoardRuns
