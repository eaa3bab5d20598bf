import Okm6ullOta.TextFields
import Mathlib.Data.List.Forall2

/-!
# The DDR registers do_configure:prepend patches

imximage.cfg lists the registers which are written before the memory works, one
DATA command a line. Five substitutions, run over the file one after the other,
give five registers their values; the third one leaves its register out of the
line. A command is read here as the patterns spell it, with one blank between
register and value.
-/
namespace Okm6ullOta.DdrRegisters
open LineEdits TextFields

abbrev Line := List Char

abbrev blank : Char → Bool := Char.isWhitespace

structure Command where
  size : Line
  address : Line
  value : Line
  deriving DecidableEq, Repr

/-- Size and address of a DATA command, and what follows the address. -/
def operands (l : Line) : Option (Line × Line × Line) :=
  (field blank l).bind fun (name, l) =>
    if name = "DATA".toList then
      (field blank l).bind fun (size, l) =>
        (field blank l).map fun (address, l) => (size, address, l)
    else none

/-- The DATA command of a line. -/
def command (l : Line) : Option Command :=
  match operands l with
  | some (size, address, ' ' :: l) =>
    let value := l.takeWhile fun c => !blank c
    if value.isEmpty then none else some ⟨size, address, value⟩
  | _ => none

def substitution (key replacement : String) : Edit Char := ⟨key.toList, replacement.toList⟩

def edit80C : Edit Char := substitution "0x021B080C 0x00000004" "0x021B080C 0x00000001"

def edit83C : Edit Char := substitution "0x021B083C 0x41640158" "0x021B083C 0x01480158"

def edit848 : Edit Char := substitution "0x021B0848 0x40403237" "0x40403034"

def edit850 : Edit Char := substitution "0x021B0850 0x40403C33" "0x021B0850 0x40403A34"

def edit018 : Edit Char := substitution "0x021B0018 0x00201740" "0x021B0018 0x00211740"

def edits : List (Edit Char) := [edit80C, edit83C, edit848, edit850, edit018]

/-- One `sed -i` over the file. -/
def runEdit (file : List Line) (e : Edit Char) : List Line := file.map e.apply

/-- The edits of imximage.cfg in do_configure:prepend, in order. -/
def configure (file : List Line) : List Line := edits.foldl runEdit file

theorem foldl_runEdit (es : List (Edit Char)) (file : List Line) :
    es.foldl runEdit file = file.map (applyAll es) := by
  induction es generalizing file with
  | nil => exact (List.map_id file).symm
  | cons e es ih =>
    rw [List.foldl_cons, ih, runEdit, List.map_map]
    rfl

/-- What stands before the address. -/
def Lead (size lead : Line) : Prop :=
  ∃ i j k, Blanks blank i ∧ Blanks blank j ∧ j ≠ [] ∧ Word blank size ∧ Blanks blank k ∧ k ≠ [] ∧
    lead = i ++ ("DATA".toList ++ (j ++ (size ++ k)))

theorem data_word : Word blank "DATA".toList := ⟨by decide, by decide⟩

theorem blank_space : blank ' ' := by decide

variable {l lead r size a v w : Line}

theorem operands_eq (hl : Lead size lead) (hw : Word blank w) (hr : Ends blank r) :
    operands (lead ++ (w ++ r)) = some (size, w, r) := by
  obtain ⟨i, j, k, hi, hj, hjn, hs, hk, hkn, rfl⟩ := hl
  have h₁ := field_eq hi data_word (ends_blanks hj hjn (size ++ (k ++ (w ++ r))))
  have h₂ := field_eq hj hs (ends_blanks hk hkn (w ++ r))
  have h₃ := field_eq hk hw hr
  simp only [List.append_assoc, operands, h₁, h₂, h₃, Option.bind_some, if_true, Option.map_some]

theorem operands_eq_some (h : operands l = some (size, w, r)) :
    ∃ lead, Lead size lead ∧ Word blank w ∧ Ends blank r ∧ l = lead ++ (w ++ r) := by
  obtain ⟨⟨name, l₁⟩, h₁, h⟩ := Option.bind_eq_some_iff.mp h
  simp only at h
  split_ifs at h with hn
  obtain ⟨⟨s, l₂⟩, h₂, h⟩ := Option.bind_eq_some_iff.mp h
  obtain ⟨⟨a, l₃⟩, h₃, h⟩ := Option.map_eq_some_iff.mp h
  simp only [Prod.mk.injEq] at h
  obtain ⟨rfl, rfl, rfl⟩ := h
  obtain ⟨i, hi, -, he₁, rfl⟩ := field_eq_some h₁
  obtain ⟨j, hj, hs, he₂, rfl⟩ := field_eq_some h₂
  obtain ⟨k, hk, hw, hr, rfl⟩ := field_eq_some h₃
  have hjn := ne_nil_of_ends hs he₁
  have hkn := ne_nil_of_ends hw he₂
  refine ⟨_, ⟨i, j, k, hi, hj, hjn, hs, hk, hkn, rfl⟩, hw, hr, ?_⟩
  simp only [hn, List.append_assoc]

theorem command_eq (hl : Lead size lead) (ha : Word blank a) (hv : Word blank v)
    (hr : Ends blank r) : command (lead ++ (a ++ ' ' :: (v ++ r))) = some ⟨size, a, v⟩ := by
  have hn : v.isEmpty = false := by simp [hv.1]
  have ho := operands_eq hl ha (ends_cons (y := v ++ r) blank_space)
  simp only [command, ho, takeWhile_word hv.2 hr, hn]
  rfl

theorem command_eq_some {c : Command} (h : command l = some c) :
    ∃ lead r, Lead c.size lead ∧ Word blank c.address ∧ Word blank c.value ∧ Ends blank r ∧
      l = lead ++ (c.address ++ ' ' :: (c.value ++ r)) := by
  unfold command at h
  split at h
  · rename_i size a l' ho
    simp only at h
    split_ifs at h with hv
    obtain rfl := Option.some.inj h
    obtain ⟨lead, hl, ha, -, rfl⟩ := operands_eq_some ho
    refine ⟨lead, l'.dropWhile fun c => !blank c, hl, ha, ⟨?_, solid_takeWhile _⟩,
      ends_dropWhile _, ?_⟩
    · intro hn
      exact hv (List.isEmpty_iff.mpr hn)
    · rw [List.takeWhile_append_dropWhile]
  · cases h

theorem command_operands {c : Command} (h : command l = some c) :
    ∃ r, operands l = some (c.size, c.address, r) := by
  obtain ⟨lead, r, hl, ha, -, -, rfl⟩ := command_eq_some h
  exact ⟨_, operands_eq hl ha (ends_cons blank_space)⟩

/-- A register, its value in the file and the intended one, and the substitution
which is to replace it. -/
structure Patch where
  address : Line
  old : Line
  new : Line
  edit : Edit Char
  deriving DecidableEq, Repr

def patch (address old new : String) (e : Edit Char) : Patch :=
  ⟨address.toList, old.toList, new.toList, e⟩

/-- The key of the substitution is the register and its value. -/
structure Keyed (p : Patch) : Prop where
  words : TwoWords blank p.edit p.address ' ' p.old
  address : p.address.length = 10
  old : p.old.length = 10

/-- The substitution of `p` has no business with the words `w` and `v`. -/
def Avoids (p : Patch) (w v : Line) : Prop := w ≠ p.address ∧ w ≠ p.old ∧ v ≠ p.address

instance (p : Patch) (w v : Line) : Decidable (Avoids p w v) :=
  inferInstanceAs (Decidable (_ ∧ _ ∧ _))

variable {p : Patch}

/-- No occurrence of the key starts before the address. -/
theorem Keyed.apply_lead (hp : Keyed p) (hl : Lead size lead) (hw : w.length = 10)
    (hn : w ≠ p.old) (r : Line) :
    p.edit.apply (lead ++ (w ++ r)) = lead ++ p.edit.apply (w ++ r) := by
  obtain ⟨i, j, k, hi, hj, hjn, hs, hk, hkn, rfl⟩ := hl
  have hdata : p.address <:+ "DATA".toList → ¬ ' ' :: p.old <+: j ++ (size ++ (k ++ (w ++ r))) := by
    intro h
    have hle := h.length_le
    rw [hp.address] at hle
    exact absurd hle (by decide)
  have hsize : p.address <:+ size → ¬ ' ' :: p.old <+: k ++ (w ++ r) := by
    rintro - h
    obtain ⟨c, k, rfl⟩ := List.exists_cons_of_ne_nil hkn
    obtain ⟨d, o, ho⟩ := List.exists_cons_of_ne_nil hp.words.second.1
    have h : p.old <+: k ++ (w ++ r) := (List.cons_prefix_cons.mp h).2
    cases k with
    | nil =>
      have hpre : p.old <+: w :=
        List.prefix_of_prefix_length_le h (List.prefix_append w r) (by rw [hp.old, hw])
      exact hn (hpre.eq_of_length (by rw [hp.old, hw])).symm
    | cons e k =>
      rw [ho, List.cons_append] at h
      obtain ⟨rfl, -⟩ := List.cons_prefix_cons.mp h
      have hb : blank d := hk d (List.mem_cons_of_mem _ List.mem_cons_self)
      have hd : blank d = false := hp.words.second.2 d (by simp [ho])
      rw [hd] at hb
      cases hb
  simp only [List.append_assoc]
  rw [hp.words.skip_blanks hi, hp.words.skip_word data_word.2 (ends_blanks hj hjn _) hdata,
    hp.words.skip_blanks hj, hp.words.skip_word hs.2 (ends_blanks hk hkn _) hsize,
    hp.words.skip_blanks hk]

/-- A word of the same length as the address is skipped unless it is the address. -/
theorem Keyed.apply_word (hp : Keyed p) (hw : Solid blank w) (h : w.length = 10)
    (hn : w ≠ p.address) (hr : Ends blank r) : p.edit.apply (w ++ r) = w ++ p.edit.apply r := by
  refine hp.words.skip_word hw hr fun hs => (hn ?_).elim
  exact (hs.eq_of_length (by rw [hp.address, h])).symm

theorem Keyed.operands_other (hp : Keyed p) (h : operands l = some (size, w, r))
    (hw : w.length = 10) (ha : w ≠ p.address) (ho : w ≠ p.old) :
    operands (p.edit.apply l) = some (size, w, p.edit.apply r) := by
  obtain ⟨lead, hl, hword, hr, rfl⟩ := operands_eq_some h
  rw [hp.apply_lead hl hw ho, hp.apply_word hword.2 hw ha hr]
  exact operands_eq hl hword (hp.words.ends_apply hr)

theorem Keyed.command_other (hp : Keyed p) (h : command l = some ⟨size, w, v⟩)
    (hw : w.length = 10) (hv : v.length = 10) (ha : Avoids p w v) :
    command (p.edit.apply l) = some ⟨size, w, v⟩ := by
  obtain ⟨lead, r, hl, hwword, hvword, hr, rfl⟩ := command_eq_some h
  have hspace : p.edit.apply (' ' :: (v ++ r)) = ' ' :: p.edit.apply (v ++ r) :=
    hp.words.skip_blanks (i := [' ']) (List.forall_mem_singleton.mpr blank_space) (v ++ r)
  rw [hp.apply_lead hl hw ha.2.1, hp.apply_word hwword.2 hw ha.1 (ends_cons blank_space), hspace,
    hp.apply_word hvword.2 hv ha.2.2 hr]
  exact command_eq hl hwword hvword (hp.words.ends_apply hr)

/-- The substitution meets the command it is written for. -/
theorem Keyed.apply_self (hp : Keyed p) (hn : p.address ≠ p.old)
    (h : command l = some ⟨size, p.address, p.old⟩) : ∃ lead r, Lead size lead ∧ Ends blank r ∧
      p.edit.apply l = lead ++ (p.edit.replacement ++ r) := by
  obtain ⟨lead, r, hl, -, -, hr, rfl⟩ := command_eq_some h
  refine ⟨lead, r, hl, hr, ?_⟩
  rw [hp.apply_lead hl hp.address hn, hp.words.apply_key]

theorem Keyed.command_self (hp : Keyed p) (hn : p.address ≠ p.old) (hnew : Word blank p.new)
    (he : p.edit.replacement = p.address ++ ' ' :: p.new)
    (h : command l = some ⟨size, p.address, p.old⟩) :
    command (p.edit.apply l) = some ⟨size, p.address, p.new⟩ := by
  obtain ⟨lead, r, hl, hr, ha⟩ := hp.apply_self hn h
  have hs : p.edit.replacement ++ r = p.address ++ ' ' :: (p.new ++ r) := by simp [he]
  rw [ha, hs]
  exact command_eq hl hp.words.first hnew hr

def patches : List Patch := [
  patch "0x021B080C" "0x00000004" "0x00000001" edit80C,
  patch "0x021B083C" "0x41640158" "0x01480158" edit83C,
  patch "0x021B0848" "0x40403237" "0x40403034" edit848,
  patch "0x021B0850" "0x40403C33" "0x40403A34" edit850,
  patch "0x021B0018" "0x00201740" "0x00211740" edit018]

/-- The replacement names the register again. -/
def Lossless (p : Patch) : Prop := p.edit.replacement = p.address ++ ' ' :: p.new

instance (p : Patch) : Decidable (Lossless p) := inferInstanceAs (Decidable (_ = _))

theorem patches_edits : patches.map Patch.edit = edits := rfl

theorem patches_keyed : ∀ p ∈ patches, Keyed p := by
  have h : ∀ p ∈ patches, p.edit.key = p.address ++ ' ' :: p.old ∧
      (p.address ≠ [] ∧ Solid blank p.address) ∧ (p.old ≠ [] ∧ Solid blank p.old) ∧
      p.address.length = 10 ∧ p.old.length = 10 := by decide
  intro p hp
  obtain ⟨hk, ha, ho, hla, hlo⟩ := h p hp
  exact ⟨⟨hk, ha, blank_space, ho⟩, hla, hlo⟩

theorem patches_nodup : patches.Nodup := by decide

theorem patches_new : ∀ p ∈ patches, p.new.length = 10 ∧ p.new ≠ [] ∧ Solid blank p.new ∧
    p.address ≠ p.old := by decide

/-- No substitution sees the register of another, nor the value another has placed. -/
theorem patches_avoid : ∀ p ∈ patches, ∀ q ∈ patches, q ≠ p →
    Avoids q p.address p.old ∧ Avoids q p.address p.new := by decide

theorem lossless_iff : ∀ p ∈ patches, Lossless p ↔ p.address ≠ "0x021B0848".toList := by decide

theorem edits_consume : ∀ e ∈ edits, Consumes (fun c => "0346C".toList.contains c) e := by
  unfold Consumes
  decide

/-- A lossy replacement is the value alone, in the place of the register. -/
theorem lossy_replacement : ∀ p ∈ patches, ¬ Lossless p → p.edit.replacement = p.new := by decide

theorem new_not_register : ∀ p ∈ patches, ∀ q ∈ patches, p.new ≠ q.address ∧ p.new ≠ q.old := by
  decide

theorem command_applyAll {ps : List Patch} (hk : ∀ p ∈ ps, Keyed p) (ha : ∀ p ∈ ps, Avoids p w v)
    (hw : w.length = 10) (hv : v.length = 10) (h : command l = some ⟨size, w, v⟩) :
    command (applyAll (ps.map Patch.edit) l) = some ⟨size, w, v⟩ := by
  induction ps generalizing l with
  | nil => exact h
  | cons p ps ih =>
    have hp := (hk p List.mem_cons_self).command_other h hw hv (ha p List.mem_cons_self)
    exact ih (fun q hq => hk q (List.mem_cons_of_mem p hq))
      (fun q hq => ha q (List.mem_cons_of_mem p hq)) hp

theorem operands_applyAll {ps : List Patch} (hk : ∀ p ∈ ps, Keyed p)
    (ha : ∀ p ∈ ps, w ≠ p.address ∧ w ≠ p.old) (hw : w.length = 10)
    (h : operands l = some (size, w, r)) :
    ∃ r', operands (applyAll (ps.map Patch.edit) l) = some (size, w, r') := by
  induction ps generalizing l r with
  | nil => exact ⟨r, h⟩
  | cons p ps ih =>
    obtain ⟨hwa, hwo⟩ := ha p List.mem_cons_self
    have hp := (hk p List.mem_cons_self).operands_other h hw hwa hwo
    exact ih (fun q hq => hk q (List.mem_cons_of_mem p hq))
      (fun q hq => ha q (List.mem_cons_of_mem p hq)) hp

/-- The substitutions before and after the one of a register. -/
theorem patches_split (hp : p ∈ patches) : ∃ before after : List Patch,
    (∀ l, applyAll edits l = applyAll (after.map Patch.edit)
      (p.edit.apply (applyAll (before.map Patch.edit) l))) ∧
    (∀ q ∈ before, q ∈ patches ∧ q ≠ p) ∧ ∀ q ∈ after, q ∈ patches ∧ q ≠ p := by
  obtain ⟨before, after, hs⟩ := List.append_of_mem hp
  have hd := patches_nodup
  rw [hs, List.nodup_append, List.nodup_cons] at hd
  obtain ⟨-, ⟨hna, -⟩, hnb⟩ := hd
  refine ⟨before, after, ?_, ?_, ?_⟩
  · intro l
    rw [← patches_edits, hs, List.map_append, applyAll_append]
    rfl
  · intro q hq
    exact ⟨by simp [hs, hq], hnb q hq p List.mem_cons_self⟩
  · intro q hq
    refine ⟨by simp [hs, hq], ?_⟩
    rintro rfl
    exact hna hq

/-- A lossless substitution gives its register the intended value. -/
theorem command_patched (hp : p ∈ patches) (hl : Lossless p)
    (h : command l = some ⟨size, p.address, p.old⟩) :
    command (applyAll edits l) = some ⟨size, p.address, p.new⟩ := by
  obtain ⟨before, after, happ, hb, ha⟩ := patches_split hp
  have hk := patches_keyed p hp
  obtain ⟨hln, hnew, hsolid, hne⟩ := patches_new p hp
  have h₁ := command_applyAll (fun q hq => patches_keyed q (hb q hq).1)
    (fun q hq => (patches_avoid p hp q (hb q hq).1 (hb q hq).2).1) hk.address hk.old h
  have h₂ := hk.command_self hne ⟨hnew, hsolid⟩ hl h₁
  rw [happ]
  exact command_applyAll (fun q hq => patches_keyed q (ha q hq).1)
    (fun q hq => (patches_avoid p hp q (ha q hq).1 (ha q hq).2).2) hk.address hln h₂

/-- A lossy one leaves the value in the place of the register. -/
theorem operands_lost (hp : p ∈ patches) (hl : ¬ Lossless p)
    (h : command l = some ⟨size, p.address, p.old⟩) :
    ∃ r, operands (applyAll edits l) = some (size, p.new, r) := by
  obtain ⟨before, after, happ, hb, ha⟩ := patches_split hp
  have hk := patches_keyed p hp
  obtain ⟨hln, hnew, hsolid, hne⟩ := patches_new p hp
  have h₁ := command_applyAll (fun q hq => patches_keyed q (hb q hq).1)
    (fun q hq => (patches_avoid p hp q (hb q hq).1 (hb q hq).2).1) hk.address hk.old h
  obtain ⟨lead, r, hlead, hr, h₂⟩ := hk.apply_self hne h₁
  rw [lossy_replacement p hp hl] at h₂
  have ho := operands_eq hlead ⟨hnew, hsolid⟩ hr
  rw [← h₂] at ho
  rw [happ]
  exact operands_applyAll (fun q hq => patches_keyed q (ha q hq).1)
    (fun q hq => new_not_register p hp q (ha q hq).1) hln ho

/-- What a command is to become which gives a patched register its old value. -/
def patched (c : Command) : Option Command :=
  (patches.find? fun p => p.address = c.address ∧ p.old = c.value).map fun p =>
    { c with value := p.new }

theorem patched_eq_some {c c' : Command} (h : patched c = some c') :
    ∃ p ∈ patches, c = ⟨c.size, p.address, p.old⟩ ∧ c' = ⟨c.size, p.address, p.new⟩ := by
  obtain ⟨p, hp, rfl⟩ := Option.map_eq_some_iff.mp h
  have hf := List.find?_some hp
  rw [decide_eq_true_eq] at hf
  obtain ⟨ha, ho⟩ := hf
  refine ⟨p, List.mem_of_find?_eq_some hp, ?_, ?_⟩
  · rw [ha, ho]
  · rw [ha]

theorem patched_eq_none {c : Command} (h : patched c = none) (hp : p ∈ patches) :
    ¬ (p.address = c.address ∧ p.old = c.value) := by
  have hf := List.find?_eq_none.mp (Option.map_eq_none_iff.mp h) p hp
  simpa using hf

/-- A DATA command of a patched register with its old value keeps its size and
its register and gets the intended value; every other line is left as it is. -/
def Kept (l l' : Line) : Prop :=
  match (command l).bind patched with
  | some c => command l' = some c
  | none => l' = l

/-- The registers written at boot, in order. -/
def addresses (file : List Line) : List Line :=
  file.filterMap fun l => (command l).map Command.address

structure ValuesOnly (file file' : List Line) : Prop where
  lines : List.Forall₂ Kept file file'
  addresses : addresses file' = addresses file

theorem Kept.same_register {l l' : Line} (h : Kept l l') :
    (command l').map (fun c => (c.size, c.address)) =
      (command l).map fun c => (c.size, c.address) := by
  unfold Kept at h
  split at h
  · rename_i c' hb
    obtain ⟨c, hc, hp⟩ := Option.bind_eq_some_iff.mp hb
    obtain ⟨p, -, hcp, rfl⟩ := patched_eq_some hp
    rw [h, hc, hcp]
    rfl
  · rw [h]

theorem addresses_eq {file file' : List Line} (h : List.Forall₂ Kept file file') :
    addresses file' = addresses file := by
  induction h with
  | nil => rfl
  | cons hl _ ih =>
    have ha := congrArg (Option.map Prod.snd) hl.same_register
    simp only [Option.map_map] at ha
    change Option.map Command.address _ = Option.map Command.address _ at ha
    unfold addresses at ih ⊢
    rw [List.filterMap_cons, List.filterMap_cons, ih, ha]

/-- Where the text of a pattern stands in this line, be it in a comment, the line is
the DATA command of one of the registers which are not lost, with its old value. What
stands behind the value is free. -/
def Confined (l : Line) : Prop :=
  ∀ e ∈ edits, e.key <:+: l → ∃ p ∈ patches, p.address ≠ "0x021B0848".toList ∧
    ∃ size, command l = some ⟨size, p.address, p.old⟩

theorem edit_key_found (hp : p ∈ patches) (h : command l = some ⟨size, p.address, p.old⟩) :
    p.edit.key <:+: l := by
  obtain ⟨lead, r, -, -, -, -, rfl⟩ := command_eq_some h
  refine ⟨lead, r, ?_⟩
  simp [(patches_keyed p hp).words.key]

theorem patches_edit_mem (hp : p ∈ patches) : p.edit ∈ edits := by
  rw [← patches_edits]
  exact List.mem_map_of_mem hp

/-- A lost register is a failure, in whatever line it stands. -/
theorem not_kept_of_lost (hp : p ∈ patches) (hl : ¬ Lossless p)
    (h : command l = some ⟨size, p.address, p.old⟩) :
    command (applyAll edits l) ≠ some ⟨size, p.address, p.new⟩ := by
  intro hc
  obtain ⟨r, ho⟩ := operands_lost hp hl h
  obtain ⟨r', ho'⟩ := command_operands hc
  rw [ho] at ho'
  simp only [Option.some.injEq, Prod.mk.injEq] at ho'
  exact (new_not_register p hp p hp).1 ho'.2.1

theorem not_confined_of_lost (hp : p ∈ patches) (hl : ¬ Lossless p)
    (h : command l = some ⟨size, p.address, p.old⟩) : ¬ Confined l := by
  intro hc
  obtain ⟨q, -, hq, size', hq'⟩ := hc p.edit (patches_edit_mem hp) (edit_key_found hp h)
  rw [h] at hq'
  simp only [Option.some.injEq, Command.mk.injEq] at hq'
  rw [lossless_iff p hp, hq'.2.1] at hl
  exact hl hq

theorem kept_iff (l : Line) : Kept l (applyAll edits l) ↔ Confined l := by
  unfold Kept
  split
  · rename_i c' hb
    obtain ⟨c, hc, hp⟩ := Option.bind_eq_some_iff.mp hb
    obtain ⟨p, hpm, hcp, rfl⟩ := patched_eq_some hp
    have h : command l = some ⟨c.size, p.address, p.old⟩ := hc.trans (congrArg some hcp)
    by_cases hl : Lossless p
    · constructor
      · exact fun _ e _ _ => ⟨p, hpm, (lossless_iff p hpm).mp hl, c.size, h⟩
      · exact fun _ => command_patched hpm hl h
    · constructor
      · exact fun hk => (not_kept_of_lost hpm hl h hk).elim
      · exact fun hk => (not_confined_of_lost hpm hl h hk).elim
  · rename_i hb
    rw [applyAll_eq_self_iff edits_consume]
    constructor
    · exact fun hn e he hi => (hn e he hi).elim
    · intro hk e he hi
      obtain ⟨p, hpm, -, size, hc⟩ := hk e he hi
      rw [hc, Option.bind_some] at hb
      exact patched_eq_none hb hpm ⟨rfl, rfl⟩

/-- The substitutions change values only if and only if the texts of their
patterns stand in DATA commands of the four registers which are not lost. -/
theorem configure_values_iff (file : List Line) :
    ValuesOnly file (configure file) ↔ ∀ l ∈ file, Confined l := by
  have hlines : List.Forall₂ Kept file (configure file) ↔ ∀ l ∈ file, Confined l := by
    rw [configure, foldl_runEdit, List.forall₂_map_right_iff, List.forall₂_same]
    simp only [kept_iff]
  constructor
  · exact fun h => hlines.mp h.lines
  · exact fun h => ⟨hlines.mpr h, addresses_eq (hlines.mpr h)⟩

/-- The calibration register 0x021B0848 is not written any more. -/
theorem calibration_lost :
    command "DATA 4 0x021B0848 0x40403237".toList =
      some ⟨"4".toList, "0x021B0848".toList, "0x40403237".toList⟩ ∧
    configure ["DATA 4 0x021B0848 0x40403237".toList] = ["DATA 4 0x40403034".toList] ∧
    command "DATA 4 0x40403034".toList = none ∧
    ¬ ValuesOnly ["DATA 4 0x021B0848 0x40403237".toList]
      (configure ["DATA 4 0x021B0848 0x40403237".toList]) := by
  have hb : command "DATA 4 0x021B0848 0x40403237".toList =
      some ⟨"4".toList, "0x021B0848".toList, "0x40403237".toList⟩ := by decide
  have hc : configure ["DATA 4 0x021B0848 0x40403237".toList] = ["DATA 4 0x40403034".toList] := by
    decide
  refine ⟨hb, hc, by decide, ?_⟩
  intro h
  have ha := h.addresses
  rw [hc] at ha
  exact absurd ha (by decide)

end Okm6ullOta.DdrRegisters
