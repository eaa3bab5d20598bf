import Okm6ullOta.UBootCommands

/-!
# boot.cmd

The script as the board runs it, in the order of its lines. The two scripts it
stores in variables, `altbootcmd` and `ota_rollback`, are given twice: as the
texts `setenv` stores, and as the commands these texts are. `run` executes the
commands only where the variable holds the text.
-/
namespace Okm6ullOta.BootScript
open BootEnvironment PowerCutScripts UBootCommands
open Script (one ifThen ifElse orElse block)

def echo (text : String) : Script Cmd := one (.echo [.lit text])

def setenv (x : Var) (text : String) : Script Cmd := one (.setenv x [.lit text])

/-- `setenv x ${y}` -/
def copyenv (x y : Var) : Script Cmd := one (.setenv x [.var y])

/-- Slot and flag defaults of an environment which lacks them. -/
def slotDefaults : Script Cmd := block [
  ifThen (.testEq [.var .boot_slot] "") (setenv .boot_slot "A"),
  ifThen (.testEq [.var .kernel_slot] "") (copyenv .kernel_slot .boot_slot),
  ifThen (.testEq [.var .rootfs_slot] "") (copyenv .rootfs_slot .boot_slot),
  ifThen (.testEq [.var .upgrade_available] "") (setenv .upgrade_available "0"),
  ifThen (.testEq [.var .bootlimit] "") (setenv .bootlimit "3")]

/-- The cascade all rollbacks share: the variable of the component, the legacy
variable, and a last resort of their own. -/
def restoreSlot (c : Component) (last : Script Cmd) : Script Cmd :=
  ifElse (.testNe [.var c.rollback] "") (copyenv c.slot c.rollback)
    (ifElse (.testNe [.var .rollback_slot] "") (copyenv c.slot .rollback_slot) last)

/-- The end of all rollbacks. -/
def closeRollback : Script Cmd := block [
  copyenv .boot_slot .rootfs_slot,
  setenv .upgrade_available "0",
  setenv .bootcount "0",
  setenv .ota_try "0",
  one .saveenv,
  one .reset]

/-- The last resort of altbootcmd: the slot which is not in use. -/
def toggleSlot (c : Component) : Script Cmd :=
  ifElse (.testEq [.var c.slot] "B") (setenv c.slot "A") (setenv c.slot "B")

def altbootcmd : Script Cmd := block [
  echo "OTA rollback",
  restoreSlot .kernel (toggleSlot .kernel),
  restoreSlot .rootfs (toggleSlot .rootfs),
  closeRollback]

def altbootcmdText : String := "
        echo \"OTA rollback\";

        if test \"${kernel_rollback_slot}\" != \"\"; then
            setenv kernel_slot ${kernel_rollback_slot};
        else if test \"${rollback_slot}\" != \"\"; then
            setenv kernel_slot ${rollback_slot};
        else
            if test \"${kernel_slot}\" = \"B\"; then
                setenv kernel_slot A;
            else
                setenv kernel_slot B;
            fi;
        fi; fi;

        if test \"${rootfs_rollback_slot}\" != \"\"; then
            setenv rootfs_slot ${rootfs_rollback_slot};
        else if test \"${rollback_slot}\" != \"\"; then
            setenv rootfs_slot ${rollback_slot};
        else
            if test \"${rootfs_slot}\" = \"B\"; then
                setenv rootfs_slot A;
            else
                setenv rootfs_slot B;
            fi;
        fi; fi;

        setenv boot_slot ${rootfs_slot};
        setenv upgrade_available 0;
        setenv bootcount 0;
        setenv ota_try 0;
        saveenv;
        reset
    "

def installAltbootcmd : Script Cmd :=
  ifThen (.testNe [.var .ota_env_ready] "2") (block [
    setenv .altbootcmd altbootcmdText,
    setenv .ota_env_ready "2",
    one .saveenv])

/-- The counter branch: the attempts of the pending update are used up. -/
def counterRollback : Script Cmd := block [
  echo "OTA rollback: boot failed too many times",
  restoreSlot .kernel (setenv .kernel_slot "A"),
  restoreSlot .rootfs (setenv .rootfs_slot "A"),
  closeRollback]

def countAttempt : Script Cmd := block [
  ifThen (.testEq [.var .ota_try] "") (setenv .ota_try "0"),
  one (.setexprAdd .ota_try [.var .ota_try] 1),
  one .saveenv,
  one (.echo [.lit "OTA try ", .var .ota_try, .lit "/3"])]

def otaPending : Script Cmd :=
  ifElse (.testEq [.var .upgrade_available] "1")
    (block [countAttempt, ifThen (.testGt [.var .ota_try] 3) counterRollback])
    (ifThen (.testNe [.var .ota_try] "0") (block [
      setenv .ota_try "0",
      one .saveenv]))

def mapKernel : Script Cmd :=
  ifElse (.testEq [.var .kernel_slot] "B")
    (setenv .ota_kernel "zImage_B")
    (block [setenv .kernel_slot "A", setenv .ota_kernel "zImage_A"])

def mapRootfs : Script Cmd :=
  ifElse (.testEq [.var .rootfs_slot] "B")
    (setenv .ota_root "/dev/mmcblk1p3")
    (block [setenv .rootfs_slot "A", setenv .ota_root "/dev/mmcblk1p2"])

def mapSlots : Script Cmd := block [
  mapKernel,
  mapRootfs,
  copyenv .boot_slot .rootfs_slot,
  one (.echo [.lit "OTA boot kernel_slot=", .var .kernel_slot, .lit " kernel=", .var .ota_kernel,
    .lit " rootfs_slot=", .var .rootfs_slot, .lit " root=", .var .ota_root])]

def loadKernel : Script Cmd :=
  ifElse (.fatload .loadaddr [.var .ota_kernel])
    (one (.echo [.lit "Loaded ", .var .ota_kernel]))
    (block [
      one (.echo [.lit "WARN: ", .var .ota_kernel, .lit " not found, fallback to zImage"]),
      orElse (.fatload .loadaddr [.lit "zImage"]) .reset])

def loadDtb : Script Cmd :=
  ifElse (.fatload .fdt_addr [.lit "imx6ull-14x14-evk-emmc.dtb"])
    (echo "Loaded imx6ull-14x14-evk-emmc.dtb")
    (block [
      echo "WARN: emmc dtb not found, fallback to imx6ull-14x14-evk.dtb",
      orElse (.fatload .fdt_addr [.lit "imx6ull-14x14-evk.dtb"]) .reset])

def otaRollback : Script Cmd := block [
  echo "OTA rollback",
  restoreSlot .kernel (setenv .kernel_slot "A"),
  restoreSlot .rootfs (setenv .rootfs_slot "A"),
  closeRollback]

def otaRollbackText : String :=
  "echo \"OTA rollback\"; if test \"${kernel_rollback_slot}\" != \"\"; then setenv kernel_slot ${kernel_rollback_slot}; else if test \"${rollback_slot}\" != \"\"; then setenv kernel_slot ${rollback_slot}; else setenv kernel_slot A; fi; fi; if test \"${rootfs_rollback_slot}\" != \"\"; then setenv rootfs_slot ${rootfs_rollback_slot}; else if test \"${rollback_slot}\" != \"\"; then setenv rootfs_slot ${rollback_slot}; else setenv rootfs_slot A; fi; fi; setenv boot_slot ${rootfs_slot}; setenv upgrade_available 0; setenv bootcount 0; setenv ota_try 0; saveenv; reset"

def bootargsWord : Word := [
  .lit "console=", .var .console, .lit ",", .var .baudrate,
  .lit " root=", .var .ota_root, .lit " rootwait rw quiet loglevel=3",
  .lit " ota.slot=", .var .rootfs_slot,
  .lit " ota.kernel_slot=", .var .kernel_slot,
  .lit " ota.rootfs_slot=", .var .rootfs_slot, .lit " panic=5"]

/-- `bootz`, and what follows where it returns. -/
def handOff : Script Cmd := block [
  setenv .ota_rollback otaRollbackText,
  one (.setenv .bootargs bootargsWord),
  one .bootz,
  echo "ERROR: bootz failed",
  ifThen (.testEq [.var .upgrade_available] "1")
    (ifThen (.testEq [.var .ota_rollback] otaRollbackText) otaRollback),
  one .reset]

def bootCmd : Script Cmd := block [
  echo "Running OKM6ULL OTA boot script",
  slotDefaults,
  installAltbootcmd,
  otaPending,
  mapSlots,
  loadKernel,
  loadDtb,
  handOff]

end Okm6ullOta.BootScript
