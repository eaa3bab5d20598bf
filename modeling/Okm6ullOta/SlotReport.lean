import Mathlib.Data.List.DropRight
import Okm6ullOta.HandOff
import Okm6ullOta.LineEdits

/-!
# The slots okmx6ull-banner.sh reads back from /proc/cmdline

The banner extracts three fields with `.*key\([^ ]*\).*`: the key is sought
anywhere in the line, blanks do not delimit it, and the last occurrence counts.
boot.cmd writes the three keys behind the console values, so whatever these
hold, the last occurrences are its own.
-/
namespace Okm6ullOta.SlotReport
open BootEnvironment UBootCommands BootLog BootSteps BoardRuns HandOff LineEdits

/-- What `$(...)` leaves of an output: its trailing newlines go. -/
def substituted (output : List Char) : List Char := output.rdropWhile (· == '\n')

/-- `sed -n 's/.*key\([^ ]*\).*/\1/p'` on one line. -/
def sed (key : String) (line : List Char) : Option (List Char) :=
  (afterLast key.toList line).map fun l => l.takeWhile (· != ' ')

/-- The matching lines of the command line, each ended by a newline again. -/
def extract (key : String) (cmdline : List Char) : List Char :=
  ((cmdline.splitOn '\n').filterMap (sed key)).flatMap (· ++ ['\n'])

/-- One field of the banner, from the text of /proc/cmdline. -/
def field (key : String) (procCmdline : String) : String :=
  let cmdline := substituted procCmdline.toList
  let value := substituted (extract key cmdline)
  if value.isEmpty then "unknown" else String.ofList value

def ota_slot : String → String := field "ota.slot="

def kernel_slot : String → String := field "ota.kernel_slot="

def rootfs_slot : String → String := field "ota.rootfs_slot="

/-- The kernel exposes its command line as one line. -/
def procCmdline (bootargs : String) : String := bootargs ++ "\n"

theorem substituted_line {l : List Char} (h : '\n' ∉ l) : substituted (l ++ ['\n']) = l := by
  rw [substituted, List.rdropWhile_concat_pos _ _ _ (by decide), List.rdropWhile_eq_self_iff]
  intro hl hn
  have hm := List.getLast_mem hl
  rw [eq_of_beq hn] at hm
  exact h hm

/-- A command line of one line has the field its last key gives it. -/
theorem field_line {key bootargs : String} {v : List Char} (hb : '\n' ∉ bootargs.toList)
    (hs : sed key bootargs.toList = some v) (hv : '\n' ∉ v) (hne : v ≠ []) :
    field key (procCmdline bootargs) = String.ofList v := by
  have hp : (procCmdline bootargs).toList = bootargs.toList ++ ['\n'] := String.toList_append ..
  have hx : extract key bootargs.toList = v ++ ['\n'] := by
    rw [extract, List.splitOn_eq_singleton hb, List.filterMap_cons, hs]
    simp
  simp only [field, hp, substituted_line hb, hx, substituted_line hv,
    List.isEmpty_eq_false_iff.mpr hne]
  rfl

theorem sed_append {key : String} {l v : List Char} (h : sed key l = some v) (x : List Char) :
    sed key (x ++ l) = some v := by
  obtain ⟨r, hr, hv⟩ := Option.map_eq_some_iff.mp h
  rw [sed, afterLast_append hr, Option.map_some, hv]

theorem slotArguments_one_line (k r : Slot) : '\n' ∉ (slotArguments k r).toList := by
  simp only [slotArguments, String.toList_append]
  cases k <;> cases r <;> decide

/-- The last occurrence of each key is the argument of that name. -/
theorem sed_slotArguments (k r : Slot) :
    sed "ota.slot=" (slotArguments k r).toList = some r.letter.toList ∧
      sed "ota.kernel_slot=" (slotArguments k r).toList = some k.letter.toList ∧
      sed "ota.rootfs_slot=" (slotArguments k r).toList = some r.letter.toList := by
  simp only [slotArguments, String.toList_append]
  cases k <;> cases r <;> decide

theorem letter_one_line (s : Slot) : '\n' ∉ s.letter.toList := by
  cases s <;> decide

/-- A field which the slot arguments set reads back behind any text, however the
shell has passed on the blanks of the console values. -/
theorem field_behind {x key : String} {k r s : Slot}
    (hs : sed key (slotArguments k r).toList = some s.letter.toList) (hx : '\n' ∉ x.toList) :
    field key (procCmdline (x ++ slotArguments k r)) = s.letter := by
  have hl : '\n' ∉ (x ++ slotArguments k r).toList := by
    simp [hx, slotArguments_one_line]
  have hr : sed key (x ++ slotArguments k r).toList = some s.letter.toList := by
    rw [String.toList_append]
    exact sed_append hs _
  rw [field_line hl hr (letter_one_line s) (by cases s <;> decide), String.ofList_toList]

/-- What stands before the slot arguments is one line. -/
theorem console_one_line {e : Env} (hc : '\n' ∉ (e .console).toList)
    (hb : '\n' ∉ (e .baudrate).toList) :
    '\n' ∉ ("console=" ++ e .console ++ "," ++ e .baudrate ++ " ").toList := by
  simp [hc, hb]

theorem reaches_console {r e : Env} {before : List Event} {x : Var} (h : Reaches r before e)
    (hx : x = .console ∨ x = .baudrate) : e x = r x := by
  have hs : settled r x = r x := settled_of_ne r (by rcases hx with rfl | rfl <;> decide)
  have ht : x ≠ .ota_try := by rcases hx with rfl | rfl <;> decide
  rw [← hs]
  cases h with
  | trial => exact Env.set_of_ne ht _ _
  | normal => exact Env.set_of_ne ht _ _

/-- The three fields of the banner are the slots of the RAM copy `bootz` runs with,
which are the slots the stored environment selects. -/
theorem slots_reported (b : Board) (o : Outcomes) (cut : ℕ) (ram : Env) (image : Option String)
    (hm : .booting ram image ∈ log b (.boot o cut))
    (hc : '\n' ∉ (b.disk .console).toList) (hb : '\n' ∉ (b.disk .baudrate).toList) :
    ota_slot (procCmdline (ram .bootargs)) = ram .rootfs_slot ∧
      kernel_slot (procCmdline (ram .bootargs)) = ram .kernel_slot ∧
      rootfs_slot (procCmdline (ram .bootargs)) = ram .rootfs_slot ∧
      ∀ c : Component, ram c.slot = (effective b.disk c).letter ∧
        (ram c.slot = "A" ∨ ram c.slot = "B") := by
  obtain ⟨before, rest, e, he, -, rfl, -⟩ := boot_booting (boot_move rfl) hm
  rw [← reaches_console he (.inl rfl)] at hc
  rw [← reaches_console he (.inr rfl)] at hb
  have hx := console_one_line hc hb
  have hk : ready e .kernel_slot = (Slot.select (e .kernel_slot)).letter := ready_slot e .kernel
  have hr : ready e .rootfs_slot = (Slot.select (e .rootfs_slot)).letter := ready_slot e .rootfs
  obtain ⟨h₁, h₂, h₃⟩ :=
    sed_slotArguments (Slot.select (e .kernel_slot)) (Slot.select (e .rootfs_slot))
  rw [hk, hr, ready_bootargs]
  refine ⟨field_behind h₁ hx, field_behind h₂ hx, field_behind h₃ hx, fun c => ?_⟩
  rw [ready_slot, he.select]
  refine ⟨rfl, ?_⟩
  cases effective b.disk c
  · exact .inl rfl
  · exact .inr rfl

/-- A console value which names both slots as an argument of the kernel would. -/
def misled : Board :=
  ⟨Env.fresh.set .console "ttymxc0 ota.slot=X ota.kernel_slot=Y ota.rootfs_slot=Z", none⟩

theorem misled_boots : .booting (ready (cleared (settled misled.disk))) (some "zImage_A") ∈
    log misled (.boot everyFile 100) := by
  rw [boot_log_size (by decide), bootLog, trialLog, if_neg (by decide)]
  refine List.mem_append_right _ (List.mem_append_right _ ?_)
  rw [tailLog, if_neg (by decide)]
  exact List.mem_cons_self

theorem slots_reported_misleading_console :
    ota_slot (procCmdline (ready (cleared (settled misled.disk)) .bootargs)) =
      ready (cleared (settled misled.disk)) .rootfs_slot :=
  (slots_reported misled everyFile 100 _ _ misled_boots (by decide) (by decide)).1

end Okm6ullOta.SlotReport
