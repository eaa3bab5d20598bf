import Mathlib.Data.List.Infix
import Mathlib.Data.List.Flatten
import Mathlib.Tactic.Common

/-!
# Line edits with literal keys

What a stream editor does, for keys without special characters and lines over
any alphabet: it replaces the first occurrence of a key in every line, deletes
the lines with a key, appends a line after every line with a key, and extracts
what follows the last occurrence of a key. An appended line is not read again
by the edit which appends it.
-/
namespace Okm6ullOta.LineEdits

variable {α : Type*} [DecidableEq α]

/-- `s/key/replacement/` -/
def substitute (key replacement : List α) : List α → List α
  | [] => if key = [] then replacement else []
  | c :: cs =>
    if key <+: c :: cs then replacement ++ (c :: cs).drop key.length
    else c :: substitute key replacement cs

variable {key replacement l x y : List α}

theorem substitute_of_not_infix (h : ¬ key <:+: l) : substitute key replacement l = l := by
  induction l with
  | nil =>
    have hk : key ≠ [] := by
      rintro rfl
      exact h List.nil_infix
    rw [substitute, if_neg hk]
  | cons c cs ih =>
    have hc : ¬ key <+: c :: cs := fun hp => h hp.isInfix
    have hs : ¬ key <:+: cs := fun hi => h (List.infix_cons hi)
    rw [substitute, if_neg hc, ih hs]

/-- The occurrence which is replaced. -/
theorem substitute_of_infix (h : key <:+: l) :
    ∃ x y, l = x ++ key ++ y ∧ substitute key replacement l = x ++ replacement ++ y := by
  induction l with
  | nil =>
    obtain rfl := List.infix_nil.mp h
    exact ⟨[], [], rfl, by simp [substitute]⟩
  | cons c cs ih =>
    by_cases hp : key <+: c :: cs
    · obtain ⟨y, hy⟩ := hp
      refine ⟨[], y, hy.symm, ?_⟩
      rw [substitute, if_pos ⟨y, hy⟩, ← hy, List.drop_left, List.nil_append]
    · have hi : key <:+: cs := (List.infix_cons_iff.mp h).resolve_left hp
      obtain ⟨x, y, hl, hs⟩ := ih hi
      refine ⟨c :: x, y, by simp [hl], ?_⟩
      rw [substitute, if_neg hp, hs]
      rfl

/-- Where no occurrence starts, the text is kept. -/
theorem substitute_append (h : ∀ t, t ≠ [] → t <:+ x → ¬ key <+: t ++ y) :
    substitute key replacement (x ++ y) = x ++ substitute key replacement y := by
  induction x with
  | nil => rfl
  | cons c x ih =>
    have hc : ¬ key <+: c :: (x ++ y) := h (c :: x) (List.cons_ne_nil c x) (List.suffix_refl _)
    rw [List.cons_append, substitute, if_neg hc, ih, List.cons_append]
    intro t ht hs
    exact h t ht (hs.trans (List.suffix_cons c x))

theorem substitute_prefix (h : key ≠ []) :
    substitute key replacement (key ++ y) = replacement ++ y := by
  obtain ⟨c, cs, rfl⟩ := List.exists_cons_of_ne_nil h
  have hp : c :: cs <+: c :: (cs ++ y) := List.prefix_append (c :: cs) y
  rw [List.cons_append, substitute, if_pos hp, ← List.cons_append, List.drop_left]

structure Edit (α : Type*) where
  key : List α
  replacement : List α
  deriving DecidableEq, Repr

def Edit.apply (e : Edit α) (l : List α) : List α := substitute e.key e.replacement l

def applyAll (es : List (Edit α)) (l : List α) : List α := es.foldl (fun l e => e.apply l) l

theorem applyAll_cons (e : Edit α) (es : List (Edit α)) (l : List α) :
    applyAll (e :: es) l = applyAll es (e.apply l) := rfl

theorem applyAll_append (es fs : List (Edit α)) (l : List α) :
    applyAll (es ++ fs) l = applyAll fs (applyAll es l) := List.foldl_append ..

/-- A mark which every replacement has less often than its key. -/
def Consumes (p : α → Bool) (e : Edit α) : Prop := e.replacement.countP p < e.key.countP p

theorem Consumes.lt {p : α → Bool} {e : Edit α} (h : Consumes p e) (hi : e.key <:+: l) :
    (e.apply l).countP p < l.countP p := by
  obtain ⟨x, y, hl, hs⟩ : ∃ x y, l = x ++ e.key ++ y ∧ e.apply l = x ++ e.replacement ++ y :=
    substitute_of_infix hi
  unfold Consumes at h
  rw [hs, hl]
  simp only [List.countP_append]
  omega

theorem Consumes.le {p : α → Bool} {e : Edit α} (h : Consumes p e) (l : List α) :
    (e.apply l).countP p ≤ l.countP p := by
  by_cases hi : e.key <:+: l
  · exact (h.lt hi).le
  · rw [Edit.apply, substitute_of_not_infix hi]

theorem consumes_applyAll {p : α → Bool} {es : List (Edit α)} (h : ∀ e ∈ es, Consumes p e)
    (l : List α) : (applyAll es l).countP p ≤ l.countP p := by
  induction es generalizing l with
  | nil => exact le_rfl
  | cons e es ih =>
    have he := h e List.mem_cons_self
    exact (ih (fun f hf => h f (List.mem_cons_of_mem e hf)) _).trans (he.le l)

/-- A script which consumes a mark cannot undo what it has done: it leaves a
line alone only if no key occurs in it. -/
theorem applyAll_eq_self_iff {p : α → Bool} {es : List (Edit α)} (h : ∀ e ∈ es, Consumes p e) :
    applyAll es l = l ↔ ∀ e ∈ es, ¬ e.key <:+: l := by
  induction es with
  | nil => simp [applyAll]
  | cons e es ih =>
    have he := h e List.mem_cons_self
    have hes : ∀ f ∈ es, Consumes p f := fun f hf => h f (List.mem_cons_of_mem e hf)
    rw [applyAll_cons, List.forall_mem_cons, ← ih hes]
    constructor
    · intro hl
      have hn : ¬ e.key <:+: l := by
        intro hi
        have hle := consumes_applyAll hes (e.apply l)
        have hlt := he.lt hi
        rw [hl] at hle
        omega
      refine ⟨hn, ?_⟩
      rwa [Edit.apply, substitute_of_not_infix hn] at hl
    · rintro ⟨hn, hl⟩
      rwa [Edit.apply, substitute_of_not_infix hn]

/-- `/key/d` -/
def deleteLines (key : List α) (file : List (List α)) : List (List α) :=
  file.filter fun l => ¬ key <:+: l

/-- `/key/a text` -/
def appendAfter (key text : List α) (file : List (List α)) : List (List α) :=
  file.flatMap fun l => if key <:+: l then [l, text] else [l]

variable {key₁ key₂ text : List α} {file : List (List α)}

theorem mem_deleteLines : l ∈ deleteLines key file ↔ l ∈ file ∧ ¬ key <:+: l := by
  simp [deleteLines]

theorem mem_appendAfter (h : l ∈ appendAfter key text file) : l ∈ file ∨ l = text := by
  obtain ⟨k, hk, hl⟩ := List.mem_flatMap.mp h
  split_ifs at hl
  · rcases List.mem_cons.mp hl with rfl | hl
    · exact .inl hk
    · exact .inr (List.mem_singleton.mp hl)
  · exact .inl (List.mem_singleton.mp hl ▸ hk)

theorem deleteLines_of_absent (h : ∀ l ∈ file, ¬ key <:+: l) : deleteLines key file = file :=
  List.filter_eq_self.mpr fun l hl => by simp [h l hl]

theorem deleteLines_idem (key : List α) (file : List (List α)) :
    deleteLines key (deleteLines key file) = deleteLines key file :=
  deleteLines_of_absent fun _ hl => (mem_deleteLines.mp hl).2

theorem deleteLines_comm (key₁ key₂ : List α) (file : List (List α)) :
    deleteLines key₁ (deleteLines key₂ file) = deleteLines key₂ (deleteLines key₁ file) := by
  simp only [deleteLines, List.filter_filter, Bool.and_comm]

/-- Deleting what was appended leaves nothing of the append. -/
theorem deleteLines_appendAfter (h : key <:+: text) :
    deleteLines key (appendAfter key₁ text file) = deleteLines key file := by
  induction file with
  | nil => rfl
  | cons l file ih =>
    unfold deleteLines appendAfter at ih ⊢
    rw [List.flatMap_cons, List.filter_append, ih]
    split_ifs <;> by_cases hl : key <:+: l <;> simp [hl, h]

/-- A deletion passes an append whose text and whose anchors it spares. -/
theorem deleteLines_appendAfter_comm (h : ¬ key <:+: text)
    (ha : ∀ l ∈ file, key₁ <:+: l → ¬ key <:+: l) :
    deleteLines key (appendAfter key₁ text file) =
      appendAfter key₁ text (deleteLines key file) := by
  induction file with
  | nil => rfl
  | cons l file ih =>
    have hf := ih fun k hk => ha k (List.mem_cons_of_mem l hk)
    have hl := ha l List.mem_cons_self
    unfold deleteLines appendAfter at hf ⊢
    rw [List.flatMap_cons, List.filter_append, hf]
    by_cases hk : key₁ <:+: l
    · simp [hk, hl hk, h]
    · by_cases hd : key <:+: l <;> simp [hk, hd]

theorem appendAfter_of_absent (h : ∀ l ∈ file, ¬ key <:+: l) :
    appendAfter key text file = file := by
  induction file with
  | nil => rfl
  | cons l file ih =>
    have hl := h l List.mem_cons_self
    have hf := ih fun k hk => h k (List.mem_cons_of_mem l hk)
    unfold appendAfter at hf ⊢
    rw [List.flatMap_cons, if_neg hl, hf]
    rfl

/-- One anchor in the file: one appended line, right behind it. -/
theorem appendAfter_once {before after : List (List α)} (hl : key <:+: l)
    (hb : ∀ k ∈ before, ¬ key <:+: k) (ha : ∀ k ∈ after, ¬ key <:+: k) :
    appendAfter key text (before ++ l :: after) = before ++ [l, text] ++ after := by
  have h₁ : appendAfter key text before = before := appendAfter_of_absent hb
  have h₂ : appendAfter key text after = after := appendAfter_of_absent ha
  unfold appendAfter at h₁ h₂ ⊢
  rw [List.flatMap_append, List.flatMap_cons, h₁, h₂, if_pos hl, List.append_assoc]

/-- What follows the last occurrence of `key`: the match of `.*key` is greedy. -/
def afterLast (key : List α) : List α → Option (List α)
  | [] => if key = [] then some [] else none
  | c :: cs =>
    match afterLast key cs with
    | some r => some r
    | none => if key <+: c :: cs then some ((c :: cs).drop key.length) else none

/-- What stands before an occurrence does not matter. -/
theorem afterLast_append {r : List α} (h : afterLast key y = some r) (x : List α) :
    afterLast key (x ++ y) = some r := by
  induction x with
  | nil => exact h
  | cons c x ih => rw [List.cons_append, afterLast, ih]

end Okm6ullOta.LineEdits
