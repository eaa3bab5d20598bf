import Okm6ullOta.BootScript

/-!
# What boot.cmd does to the environment, in closed form

Every stage of the script is a function of the RAM copy it starts from. The
stages compose to the log of an uncut execution, from which everything a power
cut can leave is read off.
-/
namespace Okm6ullOta.BootLog
open BootEnvironment PowerCutScripts UBootCommands BootScript TextNumerals
open Script (one ifThen ifElse orElse block)

/-- Set `x` where it is unset. -/
def fill (e : Env) (x : Var) (v : String) : Env := if e x = "" then e.set x v else e

theorem fill_self (e : Env) (x : Var) (v : String) : fill e x v x = orDefault (e x) v := by
  unfold fill orDefault
  split_ifs <;> simp [*]

theorem fill_of_ne {x y : Var} (h : y ≠ x) (e : Env) (v : String) : fill e x v y = e y := by
  unfold fill
  split_ifs <;> simp [h]

def defaulted (e : Env) : Env :=
  let e := fill e .boot_slot "A"
  let e := fill e .kernel_slot (e .boot_slot)
  let e := fill e .rootfs_slot (e .boot_slot)
  let e := fill e .upgrade_available "0"
  fill e .bootlimit "3"

def installed (e : Env) : Env :=
  if e .ota_env_ready = "2" then e
  else (e.set .altbootcmd altbootcmdText).set .ota_env_ready "2"

def installLog (e : Env) : List Event :=
  if e .ota_env_ready = "2" then [] else [.saved (installed e)]

/-- The text `setexpr` writes for one more attempt. -/
def nextTry (v : String) : String := numeral 16 ((leading 16 v + 1) % 2 ^ 32)

def counted (e : Env) : Env := e.set .ota_try (nextTry (e .ota_try))

/-- The test the script makes of the counter. -/
def Exhausted (e : Env) : Prop := 3 < leading 10 (e .ota_try)

instance (e : Env) : Decidable (Exhausted e) := inferInstanceAs (Decidable (_ < _))

def cleared (e : Env) : Env := e.set .ota_try "0"

theorem cleared_of_zero {e : Env} (h : e .ota_try = "0") : cleared e = e := Env.set_same h

def clearLog (e : Env) : List Event :=
  if e .ota_try = "0" then [] else [.saved (cleared e)]

/-- The value a rollback writes to the slot of a component. -/
def restored (last : Env → Component → String) (e : Env) (c : Component) : String :=
  orDefault (rollbackSource e c) (last e c)

/-- The last resort of the two rollbacks inside boot.cmd. -/
def safeSlot : Env → Component → String := fun _ _ => "A"

/-- The last resort of altbootcmd. -/
def otherSlot (e : Env) (c : Component) : String := if e c.slot = "B" then "A" else "B"

def closed (e : Env) : Env :=
  (((e.set .boot_slot (e .rootfs_slot)).set .upgrade_available "0").set .bootcount "0").set
    .ota_try "0"

def rolledBack (last : Env → Component → String) (e : Env) : Env :=
  closed ((e.set .kernel_slot (restored last e .kernel)).set .rootfs_slot (restored last e .rootfs))

def imageFile : Slot → String
  | .A => "zImage_A"
  | .B => "zImage_B"

def rootPartition : Slot → String
  | .A => "/dev/mmcblk1p2"
  | .B => "/dev/mmcblk1p3"

def mapped (e : Env) : Env :=
  let k := Slot.select (e .kernel_slot)
  let r := Slot.select (e .rootfs_slot)
  ((((e.set .kernel_slot k.letter).set .ota_kernel (imageFile k)).set .rootfs_slot r.letter).set
    .ota_root (rootPartition r)).set .boot_slot r.letter

/-- The RAM copy `bootz` is executed with, once the slots are mapped. -/
def prepared (e : Env) : Env :=
  let e := e.set .ota_rollback otaRollbackText
  e.set .bootargs (expand e bootargsWord)

/-- The file two attempts to load leave at a place. -/
def firstLoaded (o : Outcomes) (file fallback : String) : Option String :=
  if o.loads file then some file else if o.loads fallback then some fallback else none

def kernelImage (o : Outcomes) (e : Env) : Option String :=
  firstLoaded o (imageFile (Slot.select (e .kernel_slot))) "zImage"

def dtbImage (o : Outcomes) : Option String :=
  firstLoaded o "imx6ull-14x14-evk-emmc.dtb" "imx6ull-14x14-evk.dtb"

/-- `bootz` executed with the RAM copy `p`, and what follows. -/
def bootzLog (o : Outcomes) (p : Env) (kernel fdt : Option String) : List Event :=
  .booting p kernel ::
    if o.bootzReturns then if Pending p then [.saved (rolledBack safeSlot p)] else []
    else [.handedOff ⟨p .bootargs, kernel, fdt⟩]

/-- From the slot mapping on: nothing unless both loads succeed. -/
def tailLog (o : Outcomes) (e : Env) : List Event :=
  if (kernelImage o e).isNone ∨ (dtbImage o).isNone then []
  else bootzLog o (prepared (mapped e)) (kernelImage o e) (dtbImage o)

def trialLog (o : Outcomes) (e : Env) : List Event :=
  if Pending e then
    .calculated .ota_try (nextTry (e .ota_try)) :: .saved (counted e) ::
      if Exhausted (counted e) then
        [.exceeded (nextTry (e .ota_try)) 3, .saved (rolledBack safeSlot (counted e))]
      else tailLog o (counted e)
  else clearLog e ++ tailLog o (cleared e)

def bootLog (o : Outcomes) (e : Env) : List Event :=
  installLog (defaulted e) ++ trialLog o (installed (defaulted e))

section
variable (o : Outcomes)

/-- What a stage which only computes in RAM leaves. -/
def inRam (m : Machine) (e : Env) : Outcome Machine Event := ⟨{ m with ram := e }, [], false⟩

@[simp] theorem inRam_andThen (m : Machine) (e : Env) (f : Machine → Outcome Machine Event) :
    (inRam m e).andThen f = f { m with ram := e } :=
  andThen_quiet ..

@[simp] theorem eval_setenv (x : Var) (text : String) (m : Machine) :
    eval (exec o) (setenv x text) m = inRam m (m.ram.set x text) := by
  simp [setenv, eval_one, exec, Reply.outcome, inRam]

@[simp] theorem eval_copyenv (x y : Var) (m : Machine) :
    eval (exec o) (copyenv x y) m = inRam m (m.ram.set x (m.ram y)) := by
  simp [copyenv, eval_one, exec, Reply.outcome, inRam]

@[simp] theorem eval_echo (w : Word) (m : Machine) :
    eval (exec o) (one (.echo w)) m = ⟨m, [], false⟩ := by
  simp [eval_one, exec, Reply.outcome]

theorem eval_testEq (w : Word) (text : String) (p q : Script Cmd) (m : Machine) :
    eval (exec o) (ifElse (.testEq w text) p q) m =
      if expand m.ram w = text then eval (exec o) p m else eval (exec o) q m := by
  simp [eval_ifElse, exec, Reply.outcome]

theorem eval_testNe (w : Word) (text : String) (p q : Script Cmd) (m : Machine) :
    eval (exec o) (ifElse (.testNe w text) p q) m =
      if expand m.ram w = text then eval (exec o) q m else eval (exec o) p m := by
  simp [eval_ifElse, exec, Reply.outcome]

/-- One default of the script. -/
theorem eval_fill (x : Var) (w : Word) (m : Machine) :
    eval (exec o) (ifThen (.testEq [.var x] "") (one (.setenv x w))) m =
      inRam m (fill m.ram x (expand m.ram w)) := by
  simp only [ifThen, eval_testEq, eval_one, exec, Reply.outcome, expand_var, fill, eval_done]
  split_ifs <;> rfl

theorem eval_slotDefaults (m : Machine) :
    eval (exec o) slotDefaults m = inRam m (defaulted m.ram) := by
  simp only [slotDefaults, eval_block_cons, setenv, copyenv, eval_fill, inRam_andThen,
    eval_block_nil, expand_lit, expand_var]
  rfl

theorem eval_installAltbootcmd (m : Machine) :
    eval (exec o) installAltbootcmd m =
      ⟨{ m with
          ram := installed m.ram
          board := (installLog m.ram).foldl Board.absorb m.board },
        installLog m.ram, false⟩ := by
  simp only [installAltbootcmd, ifThen, eval_testNe, expand_var, installed, installLog]
  split_ifs
  · rfl
  · simp [eval_block_cons, eval_one, exec, Reply.outcome, Board.absorb]

/-- What every rollback ends with. -/
def saveAndReset (m : Machine) (e : Env) : Outcome Machine Event :=
  ⟨{ m with ram := e, board := { m.board with disk := e } }, [.saved e], true⟩

theorem eval_restoreSlot (c : Component) (last : Script Cmd) (m : Machine) (v : String)
    (hl : eval (exec o) last m = inRam m (m.ram.set c.slot v)) :
    eval (exec o) (restoreSlot c last) m =
      inRam m (m.ram.set c.slot (orDefault (rollbackSource m.ram c) v)) := by
  simp only [restoreSlot, eval_testNe, expand_var, eval_copyenv, hl, rollbackSource, orDefault]
  split_ifs <;> simp_all

theorem eval_closeRollback (m : Machine) :
    eval (exec o) closeRollback m = saveAndReset m (closed m.ram) := by
  simp [closeRollback, eval_block_cons, eval_one, exec, Reply.outcome, saveAndReset, closed]

theorem eval_toggleSlot (c : Component) (m : Machine) :
    eval (exec o) (toggleSlot c) m = inRam m (m.ram.set c.slot (otherSlot m.ram c)) := by
  simp only [toggleSlot, eval_testEq, expand_var, eval_setenv, otherSlot]
  split_ifs <;> rfl

theorem rollbackSource_set_slot (e : Env) (c d : Component) (v : String) :
    rollbackSource (e.set d.slot v) c = rollbackSource e c := by
  cases c <;> cases d <;> simp [rollbackSource, Component.slot, Component.rollback]

/-- The three rollbacks are one procedure up to the last resort: `lastK` and
`lastR` are the scripts of the two last resorts. -/
theorem eval_rollback (last : Env → Component → String) (lastK lastR : Script Cmd)
    (hk : ∀ m, eval (exec o) lastK m = inRam m (m.ram.set .kernel_slot (last m.ram .kernel)))
    (hr : ∀ m, eval (exec o) lastR m = inRam m (m.ram.set .rootfs_slot (last m.ram .rootfs)))
    (hs : ∀ e v, last (e.set .kernel_slot v) .rootfs = last e .rootfs) (m : Machine) :
    eval (exec o) (block [BootScript.echo "OTA rollback", restoreSlot .kernel lastK,
      restoreSlot .rootfs lastR, closeRollback]) m = saveAndReset m (rolledBack last m.ram) := by
  have hK (m : Machine) := eval_restoreSlot o .kernel lastK m _ (hk m)
  have hR (m : Machine) := eval_restoreSlot o .rootfs lastR m _ (hr m)
  have hb (v : String) := rollbackSource_set_slot m.ram .rootfs .kernel v
  simp only [Component.slot] at hK hR hb
  simp only [eval_block_cons, BootScript.echo, eval_echo, andThen_quiet, hK, hR, inRam_andThen,
    hb, hs, eval_closeRollback, saveAndReset, andThen_halted, rolledBack, restored]

theorem otherSlot_set {x : Var} {c : Component} (h : c.slot ≠ x) (e : Env) (v : String) :
    otherSlot (e.set x v) c = otherSlot e c := by
  unfold otherSlot
  rw [Env.set_of_ne h]

theorem eval_altbootcmd (m : Machine) :
    eval (exec o) altbootcmd m = saveAndReset m (rolledBack otherSlot m.ram) :=
  eval_rollback o otherSlot _ _ (eval_toggleSlot o .kernel) (eval_toggleSlot o .rootfs)
    (otherSlot_set (by decide)) m

theorem eval_otaRollback (m : Machine) :
    eval (exec o) otaRollback m = saveAndReset m (rolledBack safeSlot m.ram) :=
  eval_rollback o safeSlot _ _ (eval_setenv o .kernel_slot "A") (eval_setenv o .rootfs_slot "A")
    (fun _ _ => rfl) m

/-- The counter branch differs from `ota_rollback` in what it prints. -/
theorem eval_counterRollback (m : Machine) :
    eval (exec o) counterRollback m = saveAndReset m (rolledBack safeSlot m.ram) := by
  rw [← eval_otaRollback o m]
  simp only [counterRollback, otaRollback, eval_block_cons, BootScript.echo, eval_echo]

/-- The outcome of a stage which leaves `e` in RAM and logs `l`. -/
def logged (m : Machine) (e : Env) (l : List Event) (halted : Bool) : Outcome Machine Event :=
  ⟨{ m with ram := e, board := l.foldl Board.absorb m.board }, l, halted⟩

theorem eval_countAttempt (m : Machine) :
    eval (exec o) countAttempt m =
      logged m (counted m.ram)
        [.calculated .ota_try (nextTry (m.ram .ota_try)), .saved (counted m.ram)] false := by
  have hv : leading 16 (orDefault (m.ram .ota_try) "0") = leading 16 (m.ram .ota_try) := by
    unfold orDefault
    split_ifs with h
    · rw [h]
      rfl
    · rfl
  have hc : (fill m.ram .ota_try "0").set .ota_try (nextTry (m.ram .ota_try)) = counted m.ram := by
    unfold fill counted
    split_ifs <;> simp [Env.set]
  simp only [countAttempt, setenv, eval_block_cons, eval_fill, inRam_andThen, eval_one, exec,
    expand_var, expand_lit, fill_self, hv]
  rw [← nextTry, hc]
  rfl

theorem eval_otaPending (m : Machine) :
    eval (exec o) otaPending m =
      if Pending m.ram then
        if Exhausted (counted m.ram) then
          logged m (rolledBack safeSlot (counted m.ram))
            [.calculated .ota_try (nextTry (m.ram .ota_try)), .saved (counted m.ram),
              .exceeded (nextTry (m.ram .ota_try)) 3,
              .saved (rolledBack safeSlot (counted m.ram))] true
        else
          logged m (counted m.ram)
            [.calculated .ota_try (nextTry (m.ram .ota_try)), .saved (counted m.ram)] false
      else logged m (cleared m.ram) (clearLog m.ram) false := by
  have hp : (m.ram .upgrade_available = "1") = Pending m.ram := rfl
  have ht : counted m.ram .ota_try = nextTry (m.ram .ota_try) := Env.set_self ..
  simp only [otaPending, eval_testEq, eval_testNe, ifThen, expand_var, hp]
  split_ifs with h₁ h₂ h₃
  · have hx : 3 < leading 10 (nextTry (m.ram .ota_try)) := ht ▸ h₂
    simp only [eval_block_cons, eval_countAttempt, eval_ifElse, eval_counterRollback, exec, logged,
      Reply.outcome, expand_var, ht, hx, if_true, andThen_running, saveAndReset, andThen_halted]
    rfl
  · have hx : ¬ 3 < leading 10 (nextTry (m.ram .ota_try)) := ht ▸ h₂
    simp only [eval_block_cons, eval_countAttempt, eval_ifElse, exec, logged,
      Reply.outcome, expand_var, ht, hx, if_false, andThen_running, eval_done]
    rfl
  · rw [clearLog, if_pos h₃, cleared_of_zero h₃]
    rfl
  · rw [clearLog, if_neg h₃]
    simp only [eval_block_cons, eval_setenv, inRam_andThen, eval_one, exec, Reply.outcome]
    rfl

/-- Normalising one slot: every text but `B` becomes `A`. -/
theorem eval_mapSlot (x y : Var) (f : Slot → String) (m : Machine) :
    eval (exec o) (ifElse (.testEq [.var x] "B") (setenv y (f .B))
      (block [setenv x "A", setenv y (f .A)])) m =
    inRam m ((m.ram.set x (Slot.select (m.ram x)).letter).set y (f (Slot.select (m.ram x)))) := by
  simp only [eval_testEq, expand_var, Slot.select]
  split_ifs with h
  · rw [eval_setenv, Env.set_same (v := Slot.B.letter) h]
  · simp only [eval_block_cons, eval_setenv, inRam_andThen]
    rfl

theorem eval_mapSlots (m : Machine) :
    eval (exec o) mapSlots m = inRam m (mapped m.ram) := by
  have hK (m : Machine) : eval (exec o) mapKernel m = _ :=
    eval_mapSlot o .kernel_slot .ota_kernel imageFile m
  have hR (m : Machine) : eval (exec o) mapRootfs m = _ :=
    eval_mapSlot o .rootfs_slot .ota_root rootPartition m
  simp only [mapSlots, eval_block_cons, hK, hR, inRam_andThen, eval_copyenv, eval_echo]
  simp [mapped, inRam]

/-- Two attempts to load over a place, the second one of them fatal. -/
theorem eval_load (p : Place) (file : Word) (fallback : String) (loaded warn : Word) (m : Machine) :
    eval (exec o) (ifElse (.fatload p file) (one (.echo loaded))
      (block [one (.echo warn), orElse (.fatload p [.lit fallback]) .reset])) m =
    ⟨m.load p (firstLoaded o (expand m.ram file) fallback), [],
      (firstLoaded o (expand m.ram file) fallback).isNone⟩ := by
  simp only [eval_ifElse, exec, Reply.outcome, andThen_quiet, firstLoaded]
  split_ifs with h₁ h₂
  · rw [eval_echo]
    rfl
  · simp only [eval_block_cons, eval_echo, andThen_quiet, eval_orElse, exec, Reply.outcome,
      expand_lit, h₂, if_true, Machine.load_load, eval_block_nil]
    rfl
  · simp only [eval_block_cons, eval_echo, andThen_quiet, eval_orElse, exec, Reply.outcome,
      expand_lit, h₂, Bool.false_eq_true, if_false, Machine.load_load, andThen_halted]
    rfl

theorem eval_bootz (m : Machine) :
    eval (exec o) (one .bootz) m =
      if o.bootzReturns then logged m m.ram [.booting m.ram m.kernel] false
      else logged m m.ram [.booting m.ram m.kernel, .handedOff m.session] true := by
  simp only [eval_one, exec]
  split_ifs <;> rfl

/-- What follows a `bootz` which returns. -/
theorem eval_returned (m : Machine) (hr : m.ram .ota_rollback = otaRollbackText) :
    (eval (exec o) (block [BootScript.echo "ERROR: bootz failed",
      ifThen (.testEq [.var .upgrade_available] "1")
        (ifThen (.testEq [.var .ota_rollback] otaRollbackText) otaRollback),
      one .reset]) m).log = if Pending m.ram then [.saved (rolledBack safeSlot m.ram)] else [] := by
  have hp : (m.ram .upgrade_available = "1") = Pending m.ram := rfl
  simp only [eval_block_cons, BootScript.echo, eval_echo, andThen_quiet, ifThen, eval_testEq,
    expand_var, hp, hr, if_true]
  split_ifs
  · rw [eval_otaRollback]
    rfl
  · simp only [eval_done, andThen_quiet, eval_block_cons, eval_one, exec, Reply.outcome,
      andThen_halted]

theorem eval_handOff (m : Machine) :
    (eval (exec o) handOff m).log = bootzLog o (prepared m.ram) m.kernel m.fdt := by
  have hr : (prepared m.ram) .ota_rollback = otaRollbackText := by simp [prepared]
  have hb : eval (exec o) (one (.setenv .bootargs bootargsWord))
      { m with ram := m.ram.set .ota_rollback otaRollbackText } = inRam m (prepared m.ram) := rfl
  rw [handOff, eval_block_cons, eval_setenv, inRam_andThen, eval_block_cons, hb, inRam_andThen,
    eval_block_cons, eval_bootz, bootzLog]
  by_cases hz : o.bootzReturns
  · have ht (b : Board) := eval_returned o ⟨prepared m.ram, b, m.kernel, m.fdt⟩ hr
    simp only [hz, if_true, logged, andThen_running, ht, List.singleton_append]
  · simp only [hz, Bool.false_eq_true, if_false, logged, andThen_halted]
    rfl

theorem eval_tail (m : Machine) :
    (eval (exec o) (block [mapSlots, loadKernel, loadDtb, handOff]) m).log = tailLog o m.ram := by
  have hk : (mapped m.ram) .ota_kernel = imageFile (Slot.select (m.ram .kernel_slot)) := by
    simp [mapped]
  have hK : eval (exec o) loadKernel { m with ram := mapped m.ram } =
      ⟨{ m with ram := mapped m.ram, kernel := kernelImage o m.ram }, [],
        (kernelImage o m.ram).isNone⟩ := by
    refine (eval_load o .loadaddr [.var .ota_kernel] "zImage" _ _ _).trans ?_
    simp only [expand_var, hk]
    rfl
  have hD (m : Machine) : eval (exec o) loadDtb m =
      ⟨{ m with fdt := dtbImage o }, [], (dtbImage o).isNone⟩ :=
    eval_load o .fdt_addr [.lit "imx6ull-14x14-evk-emmc.dtb"] "imx6ull-14x14-evk.dtb" _ _ m
  rw [eval_block_cons, eval_mapSlots, inRam_andThen, eval_block_cons, hK, tailLog]
  cases kernelImage o m.ram with
  | none => rfl
  | some k =>
    rw [Option.isNone_some, andThen_quiet, eval_block_cons, hD]
    cases dtbImage o with
    | none => rfl
    | some t =>
      rw [Option.isNone_some, andThen_quiet, eval_block_one, eval_handOff]
      rfl

/-- The uncut log of boot.cmd. -/
theorem eval_bootCmd_log (m : Machine) : (eval (exec o) bootCmd m).log = bootLog o m.ram := by
  rw [bootCmd, eval_block_cons, BootScript.echo, eval_echo, andThen_quiet, eval_block_cons,
    eval_slotDefaults, inRam_andThen, eval_block_cons, eval_installAltbootcmd, andThen_running,
    bootLog, eval_block_cons, eval_otaPending, trialLog]
  split_ifs with h₁ h₂
  · simp only [logged, andThen_halted]
  · simp only [logged, andThen_running, eval_tail, List.cons_append, List.nil_append]
  · simp only [logged, andThen_running, eval_tail]

end
end Okm6ullOta.BootLog
