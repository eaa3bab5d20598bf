import Okm6ullOta.RecvFrames

/-!
# The queue of fragments

What recvframe_chk_defrag has queued for a station after any arrivals, and what becomes of
the queue when a last fragment comes: the fragments are joined if and only if they are the
latest ones and carry the numbers from zero on.
-/
namespace Okm6ullOta.RxDefrag
open Arc4 RecvFrames

variable {f g first last r : RecvFrame} {fs q mids rest before : List RecvFrame} {k : ℕ}

/-- The queue after the arrivals. -/
def queueAfter (q fs : List RecvFrame) : List RecvFrame :=
  fs.foldl (fun q f => (queueFragment q f).2) q

def isFragment (f : RecvFrame) : Bool := f.attrib.mfrag || f.attrib.frag_num ≠ 0

/-- The fragments carry the numbers from `k` on. -/
def Numbered (k : ℕ) (fs : List RecvFrame) : Prop :=
  fs.map (·.attrib.frag_num) = List.range' k fs.length

theorem numbered_cons : Numbered k (f :: fs) ↔ f.attrib.frag_num = k ∧ Numbered (k + 1) fs := by
  rw [Numbered, List.map_cons, List.length_cons, List.range'_succ, List.cons.injEq, Numbered]

theorem numbered_append : Numbered k (fs ++ q) ↔ Numbered k fs ∧ Numbered (k + fs.length) q := by
  induction fs generalizing k with
  | nil => simp [Numbered]
  | cons f fs ih =>
    rw [List.cons_append, numbered_cons, numbered_cons, ih, List.length_cons, and_assoc,
      Nat.add_right_comm, Nat.add_assoc]

def joined (f : RecvFrame) (rest : List RecvFrame) : RecvFrame := rest.foldl joinFragment f

theorem defragLoop_some : defragLoop k f rest = some r ↔ Numbered k rest ∧ joined f rest = r := by
  induction rest generalizing k f with
  | nil => simp [defragLoop, joined, Numbered]
  | cons g rest ih =>
    rw [defragLoop, numbered_cons, joined, List.foldl_cons, ← joined]
    split_ifs with h
    · simp [Ne.symm h]
    · rw [ih, not_ne_iff.mp h]
      simp

theorem recvframeDefrag_some :
    recvframeDefrag (f :: rest) = some r ↔ Numbered 0 (f :: rest) ∧ joined f rest = r := by
  rw [recvframeDefrag, numbered_cons, Nat.zero_add]
  split_ifs with h
  · simp [Ne.symm h]
  · rw [defragLoop_some, ← not_ne_iff.mp h]
    simp

theorem queueAfter_append : queueAfter q (fs ++ rest) = queueAfter (queueAfter q fs) rest :=
  List.foldl_append

theorem queueFragment_whole (h : isFragment f = false) : queueFragment q f = (some f, q) := by
  simp only [isFragment, Bool.or_eq_false_iff, decide_eq_false_iff_not, not_ne_iff] at h
  simp [queueFragment, h]

/-- Whole frames leave the queue as it is. -/
theorem queueAfter_filter : queueAfter q (fs.filter isFragment) = queueAfter q fs := by
  induction fs generalizing q with
  | nil => rfl
  | cons f fs ih =>
    cases h : isFragment f with
    | true => rw [List.filter_cons_of_pos h, queueAfter, List.foldl_cons, ← queueAfter, ih]; rfl
    | false =>
      rw [List.filter_cons_of_neg (by simp [h]), ih, queueAfter, queueAfter, List.foldl_cons,
        queueFragment_whole h]

theorem queueFragment_mfrag (h : f.attrib.mfrag = true) :
    queueFragment q f = (none, (if f.attrib.frag_num = 0 then [] else q) ++ [f]) := if_pos h

theorem queueFragment_last (h : f.attrib.mfrag = false) (h₀ : f.attrib.frag_num ≠ 0) :
    queueFragment q f = (recvframeDefrag (q ++ [f]), []) := by
  rw [queueFragment, if_neg (by simp [h]), if_neg h₀]

/-- What is queued are the latest fragments, and none of them is a last one. -/
theorem queueAfter_latest (fs : List RecvFrame) :
    queueAfter [] fs <:+ fs.filter isFragment ∧ ∀ g ∈ queueAfter [] fs, g.attrib.mfrag = true := by
  induction fs using List.reverseRecOn with
  | nil => exact ⟨List.suffix_rfl, by simp [queueAfter]⟩
  | append_singleton fs f ih =>
    obtain ⟨⟨before, hb⟩, hm⟩ := ih
    rw [queueAfter_append, List.filter_append]
    cases hw : isFragment f with
    | false =>
      rw [List.filter_cons_of_neg (by simp [hw]), List.filter_nil, List.append_nil, queueAfter,
        List.foldl_cons, queueFragment_whole hw]
      exact ⟨⟨before, hb⟩, hm⟩
    | true =>
      rw [List.filter_cons_of_pos hw, List.filter_nil, queueAfter, List.foldl_cons, List.foldl_nil]
      cases hf : f.attrib.mfrag with
      | false =>
        have h₀ : f.attrib.frag_num ≠ 0 := by simpa [isFragment, hf] using hw
        rw [queueFragment_last hf h₀]
        exact ⟨List.nil_suffix, by simp⟩
      | true =>
        rw [queueFragment_mfrag hf]
        split_ifs with h₀
        · exact ⟨List.suffix_append _ _, by simpa using hf⟩
        · refine ⟨⟨before, by rw [← List.append_assoc, hb]⟩, fun g hg => ?_⟩
          rcases List.mem_append.mp hg with hg | hg
          · exact hm g hg
          · rwa [List.mem_singleton.mp hg]

/-- Fragments behind the first one are queued behind it. -/
theorem queueAfter_more (hm : ∀ g ∈ fs, g.attrib.mfrag = true) (hn : Numbered (k + 1) fs) :
    queueAfter q fs = q ++ fs := by
  induction fs generalizing q k with
  | nil => simp [queueAfter]
  | cons f fs ih =>
    obtain ⟨hf, hfs⟩ := numbered_cons.mp hn
    obtain ⟨hmf, hms⟩ := List.forall_mem_cons.mp hm
    rw [queueAfter, List.foldl_cons, ← queueAfter, ih hms hfs, queueFragment_mfrag hmf,
      if_neg (by omega), List.append_assoc, List.singleton_append]

theorem queueAfter_first (hm : ∀ g ∈ first :: mids, g.attrib.mfrag = true)
    (hn : Numbered 0 (first :: mids)) : queueAfter q (first :: mids) = first :: mids := by
  obtain ⟨hf, hms⟩ := numbered_cons.mp hn
  obtain ⟨hmf, hmm⟩ := List.forall_mem_cons.mp hm
  rw [queueAfter, List.foldl_cons, ← queueAfter, queueFragment_mfrag hmf, if_pos hf,
    queueAfter_more hmm hms]
  rfl

/-- When a last fragment comes after any arrivals, a frame is made if and only if the latest
fragments are its predecessors from number zero on, and it is made of these. -/
theorem defragmented_iff (hl : last.attrib.mfrag = false) (h₀ : last.attrib.frag_num ≠ 0) :
    (queueFragment (queueAfter [] fs) last).1 = some r ↔
      ∃ before first mids, fs.filter isFragment = before ++ first :: mids ∧
        (∀ g ∈ first :: mids, g.attrib.mfrag = true) ∧ Numbered 0 (first :: mids ++ [last]) ∧
        r = joined first (mids ++ [last]) := by
  rw [queueFragment_last hl h₀]
  constructor
  · intro h
    obtain ⟨⟨before, hb⟩, hm⟩ := queueAfter_latest fs
    cases hq : queueAfter [] fs with
    | nil =>
      rw [hq, List.nil_append, recvframeDefrag_some, numbered_cons] at h
      exact absurd h.1.1 h₀
    | cons first mids =>
      rw [hq, List.cons_append, recvframeDefrag_some] at h
      exact ⟨before, first, mids, by rw [← hb, hq], by rwa [hq] at hm, h.1, h.2.symm⟩
  · rintro ⟨before, first, mids, hf, hm, hn, rfl⟩
    rw [← queueAfter_filter, hf, queueAfter_append,
      queueAfter_first hm (numbered_append.mp hn).1, List.cons_append, recvframeDefrag_some]
    exact ⟨hn, rfl⟩

/-- A fragment of a frame without protection. -/
def sampleFragment (frag_num : ℕ) (mfrag : Bool) : RecvFrame :=
  { attrib :=
      { encrypt := .none, privacy := false, bdecrypted := false, hdrlen := 24, iv_len := 0
        icv_len := 0, key_index := 0, priority := 0, frag_num, mfrag, ra := [2], ta := [] }
    data := List.replicate 30 1, room := 100 }

/-- A fragment of another frame comes first, and a whole frame in between. -/
theorem defragmented_three :
    (queueFragment (queueAfter [] [sampleFragment 0 true, sampleFragment 0 true,
      sampleFragment 0 false, sampleFragment 1 true]) (sampleFragment 2 false)).1 =
      some (joined (sampleFragment 0 true) [sampleFragment 1 true, sampleFragment 2 false]) :=
  (defragmented_iff rfl (by decide)).mpr
    ⟨[sampleFragment 0 true], sampleFragment 0 true, [sampleFragment 1 true], rfl,
      by simp [sampleFragment], rfl, rfl⟩

/-- A frame without the ICV at its end. -/
def kept (f : RecvFrame) : List Byte := f.data.take (f.len - f.attrib.icv_len)

def payload (f : RecvFrame) : List Byte := (kept f).drop f.head

/-- Header, IV and ICV are there. -/
def Whole (f : RecvFrame) : Prop := f.head + f.attrib.icv_len ≤ f.len

/-- What is copied of a fragment behind the first one. -/
def copied (f : RecvFrame) : List Byte := f.data.drop f.head

theorem Whole.copied (h : Whole f) :
    copied f = payload f ++ f.data.drop (f.len - f.attrib.icv_len) ∧
      (f.data.drop (f.len - f.attrib.icv_len)).length = f.attrib.icv_len := by
  simp only [Whole, RecvFrame.len] at h
  refine ⟨?_, by simp only [RecvFrame.len, List.length_drop]; omega⟩
  conv_lhs => rw [RxDefrag.copied, ← List.take_append_drop (f.len - f.attrib.icv_len) f.data]
  rw [List.drop_append_of_le_length (by simp [RecvFrame.len]; omega)]
  rfl

theorem joinFragment_eq (hf : f.attrib.icv_len ≤ f.len) (hg : Whole g)
    (hr : (copied g).length ≤ f.room) :
    joinFragment f g =
      ⟨{ f.attrib with icv_len := g.attrib.icv_len }, kept f ++ copied g,
        f.room + f.attrib.icv_len - (copied g).length⟩ := by
  have hp : recvframePull g g.head = { g with data := copied g } := by
    rw [recvframePull, if_neg (by unfold Whole at hg; omega), copied]
  have ht : recvframePullTail f f.attrib.icv_len =
      { f with data := kept f, room := f.room + f.attrib.icv_len } := by
    rw [recvframePullTail, if_neg (by omega), kept]
  simp only [joinFragment, hp, ht, recvframePut]
  rw [if_neg (by omega)]

theorem joinFragment_kept (hf : f.attrib.icv_len ≤ f.len) (hg : Whole g)
    (hr : (copied g).length ≤ f.room) : kept (joinFragment f g) = kept f ++ payload g := by
  obtain ⟨hc, hi⟩ := hg.copied
  rw [joinFragment_eq hf hg hr, kept]
  simp only [RecvFrame.len] at hc hi ⊢
  rw [hc, ← List.append_assoc, List.take_left' (by
    rw [List.length_append, List.length_append, List.length_append, hi, Nat.add_sub_cancel])]

theorem joinFragment_icv (hf : f.attrib.icv_len ≤ f.len) (hg : Whole g)
    (hr : (copied g).length ≤ f.room) :
    (joinFragment f g).attrib.icv_len ≤ (joinFragment f g).len := by
  obtain ⟨hc, hi⟩ := hg.copied
  rw [joinFragment_eq hf hg hr]
  simp only [RecvFrame.len, hc, List.length_append] at hi ⊢
  omega

/-- With room in the first fragment for all that is copied, the joined frame is the first one
with the payloads of the others. -/
theorem joined_eq (hf : f.attrib.icv_len ≤ f.len) (hg : ∀ g ∈ rest, Whole g)
    (hr : (rest.flatMap copied).length ≤ f.room) :
    kept (joined f rest) = kept f ++ rest.flatMap payload ∧
      (joined f rest).attrib = { f.attrib with icv_len := (joined f rest).attrib.icv_len } ∧
      (joined f rest).attrib.icv_len ≤ (joined f rest).len := by
  induction rest generalizing f with
  | nil => exact ⟨by simp [joined], rfl, hf⟩
  | cons g rest ih =>
    obtain ⟨hw, hws⟩ := List.forall_mem_cons.mp hg
    rw [List.flatMap_cons, List.length_append] at hr
    have hj := joinFragment_eq hf hw (by omega)
    have hroom : (rest.flatMap copied).length ≤ (joinFragment f g).room := by
      rw [hj]
      dsimp only
      omega
    obtain ⟨hk, ha, hl⟩ := ih (joinFragment_icv hf hw (by omega)) hws hroom
    rw [joined, List.foldl_cons, ← joined]
    refine ⟨?_, ?_, hl⟩
    · rw [hk, joinFragment_kept hf hw (by omega), List.append_assoc, List.flatMap_cons]
    · rw [ha, hj]

end Okm6ullOta.RxDefrag
