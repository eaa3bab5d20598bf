import Okm6ullOta.LineEdits
import Mathlib.Data.List.TakeWhile

/-!
# Fields between blanks

A line is read field by field: blanks are skipped, and a word is what stands up
to the next blank. A substitution whose key is two words with one blank between
them meets a line field by field too: it skips blanks, and it skips a word
unless the word is, or ends in, the first word of the key.
-/
namespace Okm6ullOta.TextFields
open LineEdits

variable {α : Type*} (blank : α → Bool)

def Blanks (l : List α) : Prop := ∀ c ∈ l, blank c

/-- No blank among the characters. -/
def Solid (l : List α) : Prop := ∀ c ∈ l, blank c = false

def Word (w : List α) : Prop := w ≠ [] ∧ Solid blank w

/-- A word ends before `r`. -/
def Ends (r : List α) : Prop := ∀ c ∈ r.head?, blank c

/-- The next word, and what follows it. -/
def field (l : List α) : Option (List α × List α) :=
  let rest := l.dropWhile blank
  let w := rest.takeWhile fun c => !blank c
  if w.isEmpty then none else some (w, rest.dropWhile fun c => !blank c)

instance (w : List α) : Decidable (Solid blank w) :=
  inferInstanceAs (Decidable (∀ c ∈ w, blank c = false))

variable {blank} {a i o r s t w y : List α}

theorem ends_nil : Ends blank ([] : List α) := fun _ hc => by cases hc

theorem ends_cons {b : α} (h : blank b) : Ends blank (b :: y) := by
  intro c hc
  obtain rfl := Option.some.inj hc
  exact h

theorem ends_blanks (hi : Blanks blank i) (hn : i ≠ []) (y : List α) : Ends blank (i ++ y) := by
  obtain ⟨b, i, rfl⟩ := List.exists_cons_of_ne_nil hn
  exact ends_cons (hi b List.mem_cons_self)

/-- Two words do not touch. -/
theorem ne_nil_of_ends (hw : Word blank w) (h : Ends blank (i ++ (w ++ y))) : i ≠ [] := by
  rintro rfl
  obtain ⟨c, w, rfl⟩ := List.exists_cons_of_ne_nil hw.1
  have hc : blank c := h c rfl
  simp [hw.2 c List.mem_cons_self] at hc

theorem dropWhile_blanks (hi : Blanks blank i) (hw : Word blank w) :
    (i ++ (w ++ r)).dropWhile blank = w ++ r := by
  obtain ⟨hn, hs⟩ := hw
  obtain ⟨c, cs, rfl⟩ := List.exists_cons_of_ne_nil hn
  rw [List.dropWhile_append_of_pos hi, List.cons_append,
    List.dropWhile_cons_of_neg (by simp [hs c List.mem_cons_self])]

theorem takeWhile_word (hw : Solid blank w) (hr : Ends blank r) :
    (w ++ r).takeWhile (fun c => !blank c) = w := by
  have hp : ∀ c ∈ w, (!blank c) = true := fun c hc => by simp [hw c hc]
  rw [List.takeWhile_append_of_pos hp]
  cases r with
  | nil => simp
  | cons b r =>
    have hb : blank b := hr b rfl
    rw [List.takeWhile_cons_of_neg (by simp [hb]), List.append_nil]

theorem dropWhile_word (hw : Solid blank w) (hr : Ends blank r) :
    (w ++ r).dropWhile (fun c => !blank c) = r := by
  have hp : ∀ c ∈ w, (!blank c) = true := fun c hc => by simp [hw c hc]
  rw [List.dropWhile_append_of_pos hp]
  cases r with
  | nil => rfl
  | cons b r =>
    have hb : blank b := hr b rfl
    rw [List.dropWhile_cons_of_neg (by simp [hb])]

theorem field_eq (hi : Blanks blank i) (hw : Word blank w) (hr : Ends blank r) :
    field blank (i ++ (w ++ r)) = some (w, r) := by
  have hn : w.isEmpty = false := by simp [hw.1]
  simp only [field, dropWhile_blanks hi hw, takeWhile_word hw.2 hr, dropWhile_word hw.2 hr, hn]
  rfl

theorem ends_dropWhile (l : List α) : Ends blank (l.dropWhile fun c => !blank c) := by
  intro c hc
  have h := List.head?_dropWhile_not (fun c => !blank c) l
  rw [hc] at h
  simpa using h

theorem solid_takeWhile (l : List α) : Solid blank (l.takeWhile fun c => !blank c) := by
  intro c hc
  simpa using List.mem_takeWhile_imp hc

theorem field_eq_some {l : List α} (h : field blank l = some (w, r)) :
    ∃ i, Blanks blank i ∧ Word blank w ∧ Ends blank r ∧ l = i ++ (w ++ r) := by
  simp only [field] at h
  split_ifs at h with hw
  obtain ⟨rfl, rfl⟩ := Prod.mk.inj (Option.some.inj h)
  refine ⟨l.takeWhile blank, fun c hc => List.mem_takeWhile_imp hc, ⟨?_, solid_takeWhile _⟩,
    ends_dropWhile _, ?_⟩
  · intro hn
    exact hw (by rw [hn]; rfl)
  · rw [List.takeWhile_append_dropWhile, List.takeWhile_append_dropWhile]

/-- A word and a blank at the head of a text are its first word and its first blank. -/
theorem prefix_word {b : α} (hb : blank b) (ha : Solid blank a) (ht : Solid blank t)
    (hy : Ends blank y) (h : a ++ b :: o <+: t ++ y) : a = t ∧ b :: o <+: y := by
  induction a generalizing t with
  | nil =>
    cases t with
    | nil => exact ⟨rfl, h⟩
    | cons c t =>
      obtain ⟨rfl, -⟩ := List.cons_prefix_cons.mp h
      simp [ht b List.mem_cons_self] at hb
  | cons c a ih =>
    have hc := ha c List.mem_cons_self
    cases t with
    | nil =>
      obtain ⟨z, rfl⟩ := h
      have hcb : blank c := hy c rfl
      simp [hc] at hcb
    | cons d t =>
      obtain ⟨rfl, hp⟩ := List.cons_prefix_cons.mp h
      have ha' : Solid blank a := fun e he => ha e (List.mem_cons_of_mem _ he)
      have ht' : Solid blank t := fun e he => ht e (List.mem_cons_of_mem _ he)
      obtain ⟨rfl, ho⟩ := ih ha' ht' hp
      exact ⟨rfl, ho⟩

variable [DecidableEq α] {e : Edit α} {b : α}

/-- The key is `a`, a blank, and `o`. -/
structure TwoWords (blank : α → Bool) (e : Edit α) (a : List α) (b : α) (o : List α) : Prop where
  key : e.key = a ++ b :: o
  first : Word blank a
  between : blank b
  second : Word blank o

theorem TwoWords.skip_blanks (he : TwoWords blank e a b o) (hi : Blanks blank i) (y : List α) :
    e.apply (i ++ y) = i ++ e.apply y := by
  refine substitute_append ?_
  intro t ht hs hp
  obtain ⟨c, t, rfl⟩ := List.exists_cons_of_ne_nil ht
  obtain ⟨d, a, rfl⟩ := List.exists_cons_of_ne_nil he.first.1
  rw [he.key] at hp
  obtain ⟨rfl, -⟩ := List.cons_prefix_cons.mp hp
  have hc : blank d := hi d (hs.mem List.mem_cons_self)
  simp [he.first.2 d List.mem_cons_self] at hc

/-- A word is skipped unless it ends in the first word of the key, with the rest
of the key behind it. -/
theorem TwoWords.skip_word (he : TwoWords blank e a b o) (hw : Solid blank w) (hy : Ends blank y)
    (hn : a <:+ w → ¬ b :: o <+: y) : e.apply (w ++ y) = w ++ e.apply y := by
  refine substitute_append ?_
  intro t ht hs hp
  have hst : Solid blank t := fun c hc => hw c (hs.mem hc)
  rw [he.key] at hp
  obtain ⟨rfl, ho⟩ := prefix_word he.between he.first.2 hst hy hp
  exact hn hs ho

theorem TwoWords.apply_key (he : TwoWords blank e a b o) (y : List α) :
    e.apply (a ++ b :: (o ++ y)) = e.replacement ++ y := by
  have hk : e.key ≠ [] := by simp [he.key]
  have hs : a ++ b :: (o ++ y) = e.key ++ y := by simp [he.key]
  rw [hs]
  exact substitute_prefix hk

/-- What follows a word is edited, and still follows a word. -/
theorem TwoWords.ends_apply (he : TwoWords blank e a b o) (hr : Ends blank r) :
    Ends blank (e.apply r) := by
  cases r with
  | nil =>
    have hk : e.key ≠ [] := by simp [he.key]
    rw [Edit.apply, substitute, if_neg hk]
    exact ends_nil
  | cons c r =>
    have hc : blank c := hr c rfl
    have hs : e.apply ([c] ++ r) = [c] ++ e.apply r :=
      he.skip_blanks (fun d hd => by rw [List.mem_singleton.mp hd]; exact hc) r
    rw [List.singleton_append] at hs
    rw [hs]
    exact ends_cons hc

end Okm6ullOta.TextFields
