import Okm6ullOta.LineEdits
import Mathlib.Logic.Function.Iterate

/-!
# The rules do_configure:prepend adds to cmd/Makefile

Two objects are added in the same way: the lines which name the object are
deleted, then its rule is appended after every anchor. The rule of the second
object is anchored at the rule of the first, so a second run deletes the anchor
before it has deleted what hangs on it. Both rules are placed again.
-/
namespace Okm6ullOta.UBootMakefile
open LineEdits

abbrev Line := List Char

def gpio : Line := "gpio.o".toList

def command_blink_led : Line := "command_blink_led.o".toList

def command_button_jump_kernel : Line := "command_button_jump_kernel.o".toList

def blinkRule : Line := "obj-$(CONFIG_CMD_GPIO) += command_blink_led.o".toList

def buttonRule : Line := "obj-y += command_button_jump_kernel.o".toList

/-- Drop the lines of an object and place its rule after every anchor. -/
def placeRule (object anchor rule : Line) (file : List Line) : List Line :=
  appendAfter anchor rule (deleteLines object file)

def placeBlink : List Line → List Line := placeRule command_blink_led gpio blinkRule

def placeButton : List Line → List Line :=
  placeRule command_button_jump_kernel command_blink_led buttonRule

/-- The edits of cmd/Makefile in do_configure:prepend. -/
def configure (file : List Line) : List Line := placeButton (placeBlink file)

/-- The lines which name neither object. -/
def foreignLines (file : List Line) : List Line :=
  deleteLines command_button_jump_kernel (deleteLines command_blink_led file)

/-- Both rules, placed into lines which name neither object. -/
def withRules (file : List Line) : List Line :=
  appendAfter command_blink_led buttonRule (appendAfter gpio blinkRule file)

/-- No anchor of the first rule names the second object. -/
def Separate (file : List Line) : Prop :=
  ∀ l ∈ file, ¬ (gpio <:+: l ∧ command_button_jump_kernel <:+: l)

theorem blinkRule_names : command_blink_led <:+: blinkRule := by decide

theorem blinkRule_not_button : ¬ command_button_jump_kernel <:+: blinkRule := by decide

theorem buttonRule_names : command_button_jump_kernel <:+: buttonRule := by decide

theorem buttonRule_not_gpio : ¬ gpio <:+: buttonRule := by decide

/-- The deletion for the second object passes the append of the first rule. -/
theorem delete_button_append {file : List Line}
    (h : ∀ l ∈ file, gpio <:+: l → ¬ command_button_jump_kernel <:+: l) :
    deleteLines command_button_jump_kernel (appendAfter gpio blinkRule file) =
      appendAfter gpio blinkRule (deleteLines command_button_jump_kernel file) :=
  deleteLines_appendAfter_comm blinkRule_not_button h

theorem configure_eq {file : List Line} (h : Separate file) :
    configure file = withRules (foreignLines file) := by
  have ha : ∀ l ∈ deleteLines command_blink_led file,
      gpio <:+: l → ¬ command_button_jump_kernel <:+: l :=
    fun l hl hg hb => h l (mem_deleteLines.mp hl).1 ⟨hg, hb⟩
  rw [configure, placeButton, placeBlink, placeRule, placeRule, delete_button_append ha]
  rfl

/-- A second run finds its own rules, and replaces them by the same ones. -/
theorem configure_configure (file : List Line) :
    configure (configure file) = withRules (foreignLines file) := by
  -- the lines the rule of the second object is appended to
  let lines := deleteLines command_button_jump_kernel (placeBlink file)
  have hc : configure file = appendAfter command_blink_led buttonRule lines := rfl
  have ha : ∀ l ∈ deleteLines command_blink_led (configure file),
      gpio <:+: l → ¬ command_button_jump_kernel <:+: l := by
    intro l hl hg
    rw [hc] at hl
    rcases mem_appendAfter (mem_deleteLines.mp hl).1 with hm | rfl
    · exact (mem_deleteLines.mp hm).2
    · exact (buttonRule_not_gpio hg).elim
  have hf : foreignLines (configure file) = foreignLines file := calc
    foreignLines (configure file)
      = deleteLines command_blink_led (deleteLines command_button_jump_kernel
          (appendAfter command_blink_led buttonRule lines)) := deleteLines_comm ..
    _ = deleteLines command_blink_led (deleteLines command_button_jump_kernel lines) := by
      rw [deleteLines_appendAfter buttonRule_names]
    _ = deleteLines command_blink_led (deleteLines command_button_jump_kernel
          (placeBlink file)) := by rw [deleteLines_idem]
    _ = deleteLines command_button_jump_kernel (deleteLines command_blink_led
          (placeBlink file)) := deleteLines_comm ..
    _ = foreignLines file := by
      rw [placeBlink, placeRule, deleteLines_appendAfter blinkRule_names, deleteLines_idem]
      rfl
  rw [configure, placeButton, placeRule, placeBlink, placeRule, delete_button_append ha]
  exact congrArg withRules hf

theorem configure_iterate {file : List Line} (h : Separate file) {n : ℕ} (hn : 1 ≤ n) :
    configure^[n] file = configure file := by
  induction n, hn using Nat.le_induction with
  | base => rfl
  | succ n hn ih =>
    rw [Function.iterate_succ_apply', ih, configure_configure, configure_eq h]

/-- What both rules do to a file which names no object and has one anchor. -/
theorem withRules_once {before after : List Line} {anchor : Line} (hg : gpio <:+: anchor)
    (hb : ∀ l ∈ before, ¬ gpio <:+: l) (ha : ∀ l ∈ after, ¬ gpio <:+: l)
    (hn : ∀ l ∈ before ++ anchor :: after, ¬ command_blink_led <:+: l) :
    withRules (before ++ anchor :: after) = before ++ [anchor, blinkRule, buttonRule] ++ after := by
  obtain ⟨hbn, han⟩ := List.forall_mem_append.mp hn
  obtain ⟨hc, han⟩ := List.forall_mem_cons.mp han
  have hbc : ∀ l ∈ before ++ [anchor], ¬ command_blink_led <:+: l :=
    List.forall_mem_append.mpr ⟨hbn, List.forall_mem_singleton.mpr hc⟩
  have h : appendAfter command_blink_led buttonRule ((before ++ [anchor]) ++ blinkRule :: after) =
      (before ++ [anchor]) ++ [blinkRule, buttonRule] ++ after :=
    appendAfter_once blinkRule_names hbc han
  rw [withRules, appendAfter_once hg hb ha]
  simpa using h

theorem countP_eq_one_split {p : Line → Bool} {file : List Line} (h : file.countP p = 1) :
    ∃ before l after, file = before ++ l :: after ∧ p l ∧
      (∀ k ∈ before, ¬ p k) ∧ ∀ k ∈ after, ¬ p k := by
  induction file with
  | nil => simp at h
  | cons l file ih =>
    by_cases hl : p l
    · rw [List.countP_cons_of_pos hl] at h
      have h₀ : file.countP p = 0 := by omega
      exact ⟨[], l, file, rfl, hl, by simp, List.countP_eq_zero.mp h₀⟩
    · rw [List.countP_cons_of_neg hl] at h
      obtain ⟨before, k, after, rfl, hk, hb, ha⟩ := ih h
      refine ⟨l :: before, k, after, rfl, hk, ?_, ha⟩
      exact List.forall_mem_cons.mpr ⟨hl, hb⟩

theorem foreignLines_of_absent {file : List Line}
    (hn : ∀ l ∈ file, ¬ command_blink_led <:+: l ∧ ¬ command_button_jump_kernel <:+: l) :
    foreignLines file = file := by
  rw [foreignLines, deleteLines_of_absent fun l hl => (hn l hl).1,
    deleteLines_of_absent fun l hl => (hn l hl).2]

/-- One rule for each object, where the other lines name none. -/
theorem countP_rules {object : Line} {before after : List Line} {anchor : Line}
    (hn : ∀ l ∈ before ++ anchor :: after, ¬ object <:+: l)
    (hr : [blinkRule, buttonRule].countP (fun l => object <:+: l) = 1) :
    (before ++ [anchor, blinkRule, buttonRule] ++ after).countP (fun l => object <:+: l) = 1 := by
  have h₀ : (before ++ anchor :: after).countP (fun l => object <:+: l) = 0 := by
    rw [List.countP_eq_zero]
    intro l hl
    simpa using hn l hl
  have hs : before ++ [anchor, blinkRule, buttonRule] ++ after =
      before ++ ([anchor] ++ ([blinkRule, buttonRule] ++ after)) := by simp
  have ha : before ++ anchor :: after = before ++ ([anchor] ++ after) := rfl
  rw [ha, List.countP_append, List.countP_append] at h₀
  rw [hs, List.countP_append, List.countP_append, List.countP_append, hr]
  omega

/-- Running the edits again changes nothing. In a file which names neither object
and has one anchor, any number of runs places one rule for each object behind
the anchor, in order, and keeps all lines. -/
theorem configure_harmless {file : List Line} (h : Separate file) :
    configure (configure file) = configure file ∧
    ((∀ l ∈ file, ¬ command_blink_led <:+: l ∧ ¬ command_button_jump_kernel <:+: l) →
      file.countP (fun l => gpio <:+: l) = 1 → ∀ n, 1 ≤ n →
        ∃ before anchor after, file = before ++ anchor :: after ∧ gpio <:+: anchor ∧
          configure^[n] file = before ++ [anchor, blinkRule, buttonRule] ++ after ∧
          (configure^[n] file).countP (fun l => command_blink_led <:+: l) = 1 ∧
          (configure^[n] file).countP (fun l => command_button_jump_kernel <:+: l) = 1) := by
  constructor
  · rw [configure_configure, configure_eq h]
  · intro hn hc n h₁
    obtain ⟨before, anchor, after, rfl, hg, hb, ha⟩ := countP_eq_one_split hc
    simp only [decide_eq_true_eq] at hg hb ha
    have hf : configure^[n] (before ++ anchor :: after) =
        before ++ [anchor, blinkRule, buttonRule] ++ after := by
      rw [configure_iterate h h₁, configure_eq h, foreignLines_of_absent hn]
      exact withRules_once hg hb ha fun l hl => (hn l hl).1
    refine ⟨before, anchor, after, rfl, hg, hf, ?_, ?_⟩
    · rw [hf]
      exact countP_rules (fun l hl => (hn l hl).1) (by decide)
    · rw [hf]
      exact countP_rules (fun l hl => (hn l hl).2) (by decide)

/-- Lines as they stand in cmd/Makefile. -/
def threeLines : List Line := ["obj-$(CONFIG_CMD_FUSE) += fuse.o".toList,
  "obj-$(CONFIG_CMD_GPIO) += gpio.o".toList, "obj-$(CONFIG_CMD_GPT) += gpt.o".toList]

theorem configure_harmless_threeLines : configure (configure threeLines) = configure threeLines ∧
    ∃ before anchor after, threeLines = before ++ anchor :: after ∧
      configure^[2] threeLines = before ++ [anchor, blinkRule, buttonRule] ++ after := by
  have hs : Separate threeLines := by
    unfold Separate
    decide
  obtain ⟨hi, hr⟩ := configure_harmless hs
  obtain ⟨before, anchor, after, hf, -, hc, -⟩ := hr (by decide) (by decide) 2 (by decide)
  exact ⟨hi, before, anchor, after, hf, hc⟩

end Okm6ullOta.UBootMakefile
