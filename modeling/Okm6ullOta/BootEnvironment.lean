import Mathlib.Logic.Function.Basic
import Mathlib.Tactic.Common

/-!
# The U-Boot environment and the slots it selects

An environment gives a string to every variable of the boot script. An unset
variable reads as the empty string, which is all that `${x}` and `test` can
see of it, and `setenv x` with an empty value unsets `x`. Expansion copies the
value: the slot letters and counters the tools write are single words.
-/
namespace Okm6ullOta.BootEnvironment

/-- The variables which boot.cmd and its two stored scripts read or write. -/
inductive Var where
  | boot_slot | kernel_slot | rootfs_slot
  | rollback_slot | kernel_rollback_slot | rootfs_rollback_slot
  | upgrade_available | ota_try | bootcount | bootlimit
  | altbootcmd | ota_env_ready | ota_rollback
  | ota_kernel | ota_root | bootargs | console | baudrate
  deriving DecidableEq, Repr

abbrev Env := Var → String

def Env.set (e : Env) (x : Var) (v : String) : Env := Function.update e x v

@[simp] theorem Env.set_self (e : Env) (x : Var) (v : String) : e.set x v x = v := by
  simp [Env.set]

@[simp] theorem Env.set_of_ne {x y : Var} (h : y ≠ x) (e : Env) (v : String) :
    e.set x v y = e y := by
  simp [Env.set, h]

theorem Env.set_same {e : Env} {x : Var} {v : String} (h : e x = v) : e.set x v = e :=
  h ▸ Function.update_eq_self x e

/-- The environment of a freshly flashed board, as far as the script sees it. -/
def Env.fresh : Env := fun _ => ""

inductive Piece where
  | lit (text : String)
  | var (x : Var)
  deriving DecidableEq, Repr

abbrev Word := List Piece

def expand (e : Env) : Word → String
  | [] => ""
  | .lit text :: w => text ++ expand e w
  | .var x :: w => e x ++ expand e w

@[simp] theorem expand_nil (e : Env) : expand e [] = "" := rfl

@[simp] theorem expand_lit (e : Env) (text : String) : expand e [.lit text] = text := by
  simp [expand]

@[simp] theorem expand_var (e : Env) (x : Var) : expand e [.var x] = e x := by
  simp [expand]

/-- `v`, or `w` where `v` is empty: the defaulting idiom of the script. -/
def orDefault (v w : String) : String := if v = "" then w else v

@[simp] theorem orDefault_empty (w : String) : orDefault "" w = w := rfl

theorem orDefault_of_ne {v : String} (h : v ≠ "") (w : String) : orDefault v w = v := if_neg h

@[simp] theorem orDefault_eq_empty {v w : String} : orDefault v w = "" ↔ v = "" ∧ w = "" := by
  unfold orDefault
  split_ifs with h <;> simp [h]

inductive Slot where
  | A | B
  deriving DecidableEq, Repr

def Slot.letter : Slot → String
  | .A => "A"
  | .B => "B"

/-- Every text but `B` selects slot A. -/
def Slot.select (v : String) : Slot := if v = "B" then .B else .A

@[simp] theorem Slot.select_letter (s : Slot) : Slot.select s.letter = s := by
  cases s <;> rfl

@[simp] theorem Slot.letter_ne_empty (s : Slot) : s.letter ≠ "" := by
  cases s <;> decide

/-- The two components which are updated and rolled back separately. -/
inductive Component where
  | kernel | rootfs
  deriving DecidableEq, Repr

namespace Component

def slot : Component → Var
  | kernel => .kernel_slot
  | rootfs => .rootfs_slot

def rollback : Component → Var
  | kernel => .kernel_rollback_slot
  | rootfs => .rootfs_rollback_slot

def other : Component → Component
  | kernel => rootfs
  | rootfs => kernel

end Component

/-- The effective slot of a component: its own variable, or the legacy one. -/
def effective (e : Env) (c : Component) : Slot :=
  Slot.select (orDefault (e c.slot) (e .boot_slot))

/-- The slot named for a rollback, empty if there is none: the variable of the
component, or the legacy one. -/
def rollbackSource (e : Env) (c : Component) : String :=
  orDefault (e c.rollback) (e .rollback_slot)

def Pending (e : Env) : Prop := e .upgrade_available = "1"

instance (e : Env) : Decidable (Pending e) := inferInstanceAs (Decidable (_ = _))

end Okm6ullOta.BootEnvironment
