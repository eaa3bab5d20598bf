import Mathlib.Tactic.Common
import Mathlib.Data.List.Perm.Basic
import Mathlib.Data.List.Range

/-!
# Putting numbered items back in order

Numbered items arrive in any order. A window of `size` numbers starts at the next
number to hand on. What arrives below it is refused, what arrives inside it is
held, and what arrives above it moves the window up. Items are handed on in order
as far as the numbers go without a gap; when the patience with a gap runs out, the
window starts at the first item held.
-/
namespace Okm6ullOta.ReorderWindows

variable {α : Type*}

/-- The items held stay sorted by their numbers; a number is held once. -/
def place (p : ℕ × α) : List (ℕ × α) → Option (List (ℕ × α))
  | [] => some [p]
  | q :: l =>
    if q.1 < p.1 then (place p l).map (q :: ·)
    else if q.1 = p.1 then none
    else some (p :: q :: l)

structure Release (α : Type*) where
  next : ℕ
  out : List (ℕ × α)
  held : List (ℕ × α)

/-- Hand on what the window has reached. -/
def release (w : ℕ) : List (ℕ × α) → Release α
  | [] => ⟨w, [], []⟩
  | q :: l =>
    if w < q.1 then ⟨w, [], q :: l⟩
    else
      let r := release (if w = q.1 then w + 1 else w) l
      ⟨r.next, q :: r.out, r.held⟩

/-- The window with what it has handed on, oldest first, how many numbers it has
given up, and how often it was moved up by what arrived above it. -/
structure Window (α : Type*) where
  next : ℕ
  held : List (ℕ × α)
  out : List (ℕ × α)
  lost : ℕ
  shifts : ℕ

def Window.start (n : ℕ) : Window α := ⟨n, [], [], 0, 0⟩

namespace Window

def drain (W : Window α) (w : ℕ) (l : List (ℕ × α)) : Window α :=
  { W with
    next := (release w l).next
    held := (release w l).held
    out := W.out ++ (release w l).out }

/-- The window when number `u` has arrived, which is not below it. -/
def advance (size u : ℕ) (W : Window α) : Window α :=
  if u = W.next then { W with next := W.next + 1 }
  else if W.next + size ≤ u then { W with next := u + 1 - size, shifts := W.shifts + 1 }
  else W

def arrive (size : ℕ) (p : ℕ × α) (W : Window α) : Window α :=
  if p.1 < W.next then W
  else
    match place p W.held with
    | none => W.advance size p.1
    | some l => (W.advance size p.1).drain (W.advance size p.1).next l

def expire (W : Window α) : Window α :=
  match W.held with
  | [] => W
  | q :: _ => { W.drain q.1 W.held with lost := W.lost + (q.1 - W.next) }

end Window

abbrev Sorted (l : List (ℕ × α)) : Prop := l.Pairwise fun p q => p.1 < q.1

variable {p q : ℕ × α} {l l' : List (ℕ × α)} {w size : ℕ}

theorem place_perm (h : place p l = some l') : l'.Perm (p :: l) := by
  induction l generalizing l' with
  | nil =>
    obtain rfl := Option.some.inj h
    exact .refl _
  | cons q l ih =>
    unfold place at h
    split_ifs at h with h₁ h₂
    · obtain ⟨m, hm, rfl⟩ := Option.map_eq_some_iff.mp h
      exact ((ih hm).cons q).trans (.swap p q l)
    · obtain rfl := Option.some.inj h
      exact .refl _

theorem place_sorted (hs : Sorted l) (h : place p l = some l') : Sorted l' := by
  induction l generalizing l' with
  | nil =>
    obtain rfl := Option.some.inj h
    exact List.pairwise_singleton _ _
  | cons q l ih =>
    obtain ⟨hq, hl⟩ := List.pairwise_cons.mp hs
    unfold place at h
    split_ifs at h with h₁ h₂
    · obtain ⟨m, hm, rfl⟩ := Option.map_eq_some_iff.mp h
      refine List.pairwise_cons.mpr ⟨fun r hr => ?_, ih hl hm⟩
      rcases List.mem_cons.mp ((place_perm hm).subset hr) with rfl | hr
      · exact h₁
      · exact hq r hr
    · obtain rfl := Option.some.inj h
      refine List.pairwise_cons.mpr ⟨fun r hr => ?_, hs⟩
      rcases List.mem_cons.mp hr with rfl | hr
      · omega
      · have := hq r hr; omega

theorem place_none (h : place p l = none) : ∃ q ∈ l, q.1 = p.1 := by
  induction l with
  | nil => simp [place] at h
  | cons q l ih =>
    unfold place at h
    split_ifs at h with h₁ h₂
    · obtain ⟨r, hr, he⟩ := ih (Option.map_eq_none_iff.mp h)
      exact ⟨r, List.mem_cons_of_mem q hr, he⟩
    · exact ⟨q, List.mem_cons_self, h₂⟩

theorem place_below (h : ∀ q ∈ l, p.1 < q.1) : place p l = some (p :: l) := by
  cases l with
  | nil => rfl
  | cons q l =>
    have hq := h q List.mem_cons_self
    unfold place
    rw [if_neg (by omega), if_neg (by omega)]

theorem release_above (h : w < q.1) : release w (q :: l) = ⟨w, [], q :: l⟩ := by
  rw [release, if_pos h]

theorem release_reached (h : ¬ w < q.1) : release w (q :: l) =
    let r := release (if w = q.1 then w + 1 else w) l
    ⟨r.next, q :: r.out, r.held⟩ := by
  rw [release, if_neg h]

theorem release_append (w : ℕ) (l : List (ℕ × α)) :
    (release w l).out ++ (release w l).held = l := by
  induction l generalizing w with
  | nil => rfl
  | cons q l ih =>
    unfold release
    split_ifs with h h₁
    · rfl
    · exact congrArg (q :: ·) (ih _)
    · exact congrArg (q :: ·) (ih _)

theorem le_release_next (w : ℕ) (l : List (ℕ × α)) : w ≤ (release w l).next := by
  induction l generalizing w with
  | nil => exact Nat.le_refl w
  | cons q l ih =>
    unfold release
    split_ifs with h h₁
    · exact Nat.le_refl w
    · exact Nat.le_trans (Nat.le_succ w) (ih _)
    · exact ih w

theorem release_out_lt {q : ℕ × α} (h : q ∈ (release w l).out) : q.1 < (release w l).next := by
  induction l generalizing w with
  | nil => simp [release] at h
  | cons r l ih =>
    unfold release at h ⊢
    split_ifs at h ⊢ with h₁ h₂
    · simp at h
    · rcases List.mem_cons.mp h with rfl | h
      · have := le_release_next (w + 1) l
        simp only at this ⊢; omega
      · exact ih h
    · rcases List.mem_cons.mp h with rfl | h
      · have := le_release_next w l
        simp only at this ⊢; omega
      · exact ih h

/-- What stays held is above the window's start. -/
theorem lt_release_held (hs : Sorted l) {q : ℕ × α} (h : q ∈ (release w l).held) :
    (release w l).next < q.1 := by
  induction l generalizing w with
  | nil => simp [release] at h
  | cons r l ih =>
    obtain ⟨hr, hl⟩ := List.pairwise_cons.mp hs
    unfold release at h ⊢
    split_ifs at h ⊢ with h₁ h₂
    · rcases List.mem_cons.mp h with rfl | h
      · exact h₁
      · exact Nat.lt_trans h₁ (hr q h)
    · exact ih hl h
    · exact ih hl h

theorem release_none (h : ∀ q ∈ l, w < q.1) : release w l = ⟨w, [], l⟩ := by
  cases l with
  | nil => rfl
  | cons q l => exact release_above (h q List.mem_cons_self)

/-- From a start at or below everything held, the items handed on carry the numbers
from there on, without a gap. -/
theorem release_range (hs : Sorted l) (hl : ∀ q ∈ l, w ≤ q.1) :
    (release w l).out.map Prod.fst = List.range' w ((release w l).next - w) := by
  induction l generalizing w with
  | nil => simp [release]
  | cons q l ih =>
    obtain ⟨hq, hs⟩ := List.pairwise_cons.mp hs
    unfold release
    split_ifs with h₁ h₂
    · simp
    · have hn := le_release_next (w + 1) l
      have he : (release (w + 1) l).next - w = (release (w + 1) l).next - (w + 1) + 1 := by omega
      simp only [List.map_cons]
      rw [ih hs fun r hr => by have := hq r hr; omega, he, List.range'_succ, h₂]
    · have := hl q List.mem_cons_self
      omega

theorem release_length (hs : Sorted l) (hl : ∀ q ∈ l, w ≤ q.1) :
    (release w l).next = w + (release w l).out.length := by
  have hr := congrArg List.length (release_range hs hl)
  have hn := le_release_next w l
  rw [List.length_map, List.length_range'] at hr
  omega

theorem release_next_cases (w : ℕ) (l : List (ℕ × α)) :
    (release w l).next = w ∨ ∃ q ∈ l, (release w l).next = q.1 + 1 := by
  induction l generalizing w with
  | nil => exact Or.inl rfl
  | cons q l ih =>
    by_cases h : w < q.1
    · rw [release_above h]
      exact Or.inl rfl
    · rw [release_reached h]
      rcases ih (if w = q.1 then w + 1 else w) with he | ⟨p, hp, he⟩
      · by_cases hw : w = q.1
        · refine Or.inr ⟨q, List.mem_cons_self, he.trans ?_⟩
          rw [if_pos hw, hw]
        · exact Or.inl (he.trans (if_neg hw))
      · exact Or.inr ⟨p, List.mem_cons_of_mem q hp, he⟩

namespace Window

structure Ok (size : ℕ) (W : Window α) : Prop where
  sorted : Sorted W.held
  above : ∀ q ∈ W.held, W.next < q.1
  within : ∀ q ∈ W.held, q.1 < W.next + size
  ordered : Sorted W.out
  below : ∀ q ∈ W.out, q.1 < W.next

variable {W : Window α}

theorem start_ok (n : ℕ) : (start n : Window α).Ok size :=
  ⟨.nil, nofun, nofun, .nil, nofun⟩

theorem drain_ok (hs : Sorted l) (hw : ∀ q ∈ l, q.1 < w + size) (ho : Sorted W.out)
    (hb : ∀ q ∈ W.out, q.1 < w) (hol : ∀ p ∈ W.out, ∀ q ∈ l, p.1 < q.1) :
    (W.drain w l).Ok size where
  sorted := by
    have ha := release_append w l
    rw [← ha] at hs
    exact (List.pairwise_append.mp hs).2.1
  above := fun q hq => lt_release_held hs hq
  within := fun q hq => by
    have hm : q ∈ l := release_append w l ▸ List.mem_append_right _ hq
    have hn := le_release_next w l
    have := hw q hm
    simp only [drain]
    omega
  ordered := by
    have ha := release_append w l
    rw [← ha] at hs hol
    refine List.pairwise_append.mpr ⟨ho, (List.pairwise_append.mp hs).1, fun p hp q hq => ?_⟩
    exact hol p hp q (List.mem_append_left _ hq)
  below := fun q hq => by
    have hn := le_release_next w l
    rcases List.mem_append.mp hq with hq | hq
    · exact Nat.lt_of_lt_of_le (hb q hq) hn
    · exact release_out_lt hq

variable {u : ℕ}

@[simp] theorem advance_held : (W.advance size u).held = W.held := by
  unfold advance; split_ifs <;> rfl

@[simp] theorem advance_out : (W.advance size u).out = W.out := by
  unfold advance; split_ifs <;> rfl

@[simp] theorem advance_lost : (W.advance size u).lost = W.lost := by
  unfold advance; split_ifs <;> rfl

theorem advance_next : (W.advance size u).next =
    if u = W.next then W.next + 1 else if W.next + size ≤ u then u + 1 - size else W.next := by
  unfold advance; split_ifs <;> rfl

theorem le_advance : W.next ≤ (W.advance size u).next := by
  rw [advance_next]; split_ifs <;> omega

theorem lt_advance (hz : 0 < size) : u < (W.advance size u).next + size := by
  rw [advance_next]; split_ifs <;> omega

/-- A number which is held already lies inside the window and does not move it. -/
theorem Ok.advance_held_eq (h : W.Ok size) (hp : ∃ q ∈ W.held, q.1 = u) :
    W.advance size u = W := by
  obtain ⟨q, hq, rfl⟩ := hp
  have := h.above q hq
  have := h.within q hq
  unfold advance
  rw [if_neg (by omega), if_neg (by omega)]

theorem arrive_ok (hz : 0 < size) (h : W.Ok size) : (W.arrive size p).Ok size := by
  unfold arrive
  split_ifs with hp
  · exact h
  · cases hl : place p W.held with
    | none =>
      simp only
      rwa [h.advance_held_eq (place_none hl)]
    | some l =>
      have hm : ∀ q ∈ l, q = p ∨ q ∈ W.held := fun q hq =>
        List.mem_cons.mp ((place_perm hl).subset hq)
      have hle : W.next ≤ (W.advance size p.1).next := le_advance
      refine drain_ok (place_sorted h.sorted hl) (fun q hq => ?_) ?_ (fun q hq => ?_)
        (fun r hr q hq => ?_)
      · rcases hm q hq with rfl | hq
        · exact lt_advance hz
        · have := h.within q hq; omega
      · rw [advance_out]
        exact h.ordered
      · rw [advance_out] at hq
        exact Nat.lt_of_lt_of_le (h.below q hq) hle
      · rw [advance_out] at hr
        have hr := h.below r hr
        rcases hm q hq with rfl | hq
        · omega
        · have := h.above q hq; omega

theorem expire_ok (h : W.Ok size) : W.expire.Ok size := by
  unfold expire
  split
  · exact h
  · next q l hl =>
    have hq : q ∈ W.held := hl ▸ List.mem_cons_self
    have ha := h.above q hq
    have hd : (W.drain q.1 W.held).Ok size :=
      drain_ok h.sorted (fun r hr => by have := h.within r hr; omega) h.ordered
        (fun r hr => by have := h.below r hr; omega)
        (fun r hr s hs => Nat.lt_trans (h.below r hr) (h.above s hs))
    exact ⟨hd.sorted, hd.above, hd.within, hd.ordered, hd.below⟩

theorem le_arrive_next : W.next ≤ (W.arrive size p).next := by
  unfold arrive
  split_ifs with hp
  · exact Nat.le_refl _
  · cases place p W.held with
    | none => exact le_advance
    | some l => exact Nat.le_trans le_advance (le_release_next _ l)

theorem Ok.le_expire_next (h : W.Ok size) : W.next ≤ W.expire.next := by
  unfold expire
  split
  · exact Nat.le_refl _
  · next q l hl =>
    have hq := h.above q (hl ▸ List.mem_cons_self)
    exact Nat.le_trans (Nat.le_of_lt hq) (le_release_next _ _)

theorem mem_drain : (q ∈ (W.drain w l).held ∨ q ∈ (W.drain w l).out) ↔ q ∈ l ∨ q ∈ W.out := by
  have ha := congrArg (q ∈ ·) (release_append w l)
  simp only [List.mem_append, eq_iff_iff] at ha
  simp only [drain, List.mem_append]
  tauto

theorem mem_arrive (h : q ∈ (W.arrive size p).held ∨ q ∈ (W.arrive size p).out) :
    q = p ∨ q ∈ W.held ∨ q ∈ W.out := by
  unfold arrive at h
  split_ifs at h with hp
  · exact Or.inr h
  · cases hl : place p W.held with
    | none => simpa only [hl, advance_held, advance_out] using Or.inr h
    | some l =>
      simp only [hl] at h
      rcases mem_drain.mp h with hq | hq
      · rcases List.mem_cons.mp ((place_perm hl).subset hq) with hq | hq
        · exact Or.inl hq
        · exact Or.inr (Or.inl hq)
      · exact Or.inr (Or.inr (by rwa [advance_out] at hq))

theorem mem_expire (h : q ∈ W.expire.held ∨ q ∈ W.expire.out) : q ∈ W.held ∨ q ∈ W.out := by
  unfold expire at h
  split at h
  · exact h
  · exact mem_drain.mp h

/-- The window and what has arrived: what it holds and has handed on arrived, nothing
that arrived is above it, and its start is at most one past something that arrived. -/
structure Spans (size : ℕ) (ps : List (ℕ × α)) (W : Window α) : Prop where
  items : ∀ q, q ∈ W.held ∨ q ∈ W.out → q ∈ ps
  top : ∀ q ∈ ps, q.1 < W.next + size
  reached : ∃ q ∈ ps, W.next ≤ q.1 + 1
  shifts : W.shifts ≤ ps.length

theorem arrive_next_cases : (W.arrive size p).next = W.next ∨
    ∃ q, (q = p ∨ q ∈ W.held) ∧ (W.arrive size p).next ≤ q.1 + 1 := by
  have ha : (W.advance size p.1).next = W.next ∨ (W.advance size p.1).next ≤ p.1 + 1 := by
    rw [advance_next]; split_ifs <;> omega
  unfold arrive
  split_ifs with hp
  · exact Or.inl rfl
  · cases hl : place p W.held with
    | none => exact ha.imp_right fun h => ⟨p, Or.inl rfl, h⟩
    | some l =>
      rcases release_next_cases (W.advance size p.1).next l with he | ⟨q, hq, he⟩
      · simp only [drain, he]
        exact ha.imp_right fun h => ⟨p, Or.inl rfl, h⟩
      · exact Or.inr ⟨q, List.mem_cons.mp ((place_perm hl).subset hq), Nat.le_of_eq he⟩

theorem arrive_shifts_le : (W.arrive size p).shifts ≤ W.shifts + 1 := by
  have ha : (W.advance size p.1).shifts ≤ W.shifts + 1 := by
    unfold advance; split_ifs <;> simp
  unfold arrive
  split_ifs with hp
  · omega
  · cases place p W.held with
    | none => exact ha
    | some l => exact ha

theorem arrive_top (hz : 0 < size) : p.1 < (W.arrive size p).next + size := by
  unfold arrive
  split_ifs with hp
  · omega
  · have ha : p.1 < (W.advance size p.1).next + size := lt_advance hz
    cases place p W.held with
    | none => exact ha
    | some l =>
      have := le_release_next (W.advance size p.1).next l
      simp only [drain]
      omega

theorem Spans.arrive {ps : List (ℕ × α)} (hz : 0 < size) (h : W.Spans size ps) :
    (W.arrive size p).Spans size (ps ++ [p]) where
  items := fun q hq => by
    rw [List.mem_append, List.mem_singleton]
    exact (mem_arrive hq).elim Or.inr fun hq => Or.inl (h.items q hq)
  top := fun q hq => by
    rcases List.mem_append.mp hq with hq | hq
    · have := h.top q hq
      have : W.next ≤ (W.arrive size p).next := le_arrive_next
      omega
    · rw [List.mem_singleton.mp hq]
      exact arrive_top hz
  reached := by
    rcases arrive_next_cases (W := W) (p := p) with he | ⟨q, hq, hle⟩
    · obtain ⟨q, hq, hle⟩ := h.reached
      exact ⟨q, List.mem_append_left _ hq, he ▸ hle⟩
    · refine ⟨q, ?_, hle⟩
      rcases hq with rfl | hq
      · exact List.mem_append_right _ List.mem_cons_self
      · exact List.mem_append_left _ (h.items q (Or.inl hq))
  shifts := by
    have : (W.arrive size p).shifts ≤ W.shifts + 1 := arrive_shifts_le
    have := h.shifts
    rw [List.length_append, List.length_singleton]
    omega

theorem start_spans (hz : 0 < size) : ((start p.1).arrive size p).Spans size [p] where
  items := fun q hq => by
    rcases mem_arrive hq with hq | hq | hq
    · exact List.mem_singleton.mpr hq
    · exact absurd hq List.not_mem_nil
    · exact absurd hq List.not_mem_nil
  top := fun q hq => by
    rw [List.mem_singleton.mp hq]
    exact arrive_top hz
  reached := by
    refine ⟨p, List.mem_cons_self, ?_⟩
    rcases arrive_next_cases (W := start p.1) (p := p) with he | ⟨q, hq, hle⟩
    · rw [he]
      exact Nat.le_succ p.1
    · rcases hq with rfl | hq
      · exact hle
      · exact absurd hq List.not_mem_nil
  shifts := by
    have : ((start p.1).arrive size p).shifts ≤ (start p.1 : Window α).shifts + 1 :=
      arrive_shifts_le
    exact this

theorem Spans.expire {ps : List (ℕ × α)} (ok : W.Ok size) (h : W.Spans size ps) :
    W.expire.Spans size ps where
  items := fun q hq => h.items q (mem_expire hq)
  top := fun q hq => by
    have := h.top q hq
    have := ok.le_expire_next
    omega
  reached := by
    unfold Window.expire
    split
    · exact h.reached
    · next q l hl =>
      have hq : ∀ p ∈ W.held, p ∈ ps := fun p hp => h.items p (Or.inl hp)
      rcases release_next_cases q.1 W.held with he | ⟨p, hp, he⟩
      · exact ⟨q, hq q (hl ▸ List.mem_cons_self), by simp only [drain, he]; omega⟩
      · exact ⟨p, hq p hp, by simp only [drain, he]; omega⟩
  shifts := by
    unfold Window.expire
    split <;> exact h.shifts

/-- Nothing below `n` has been handed on. -/
structure From (n : ℕ) (W : Window α) : Prop where
  next : n ≤ W.next
  out : ∀ q ∈ W.out, n ≤ q.1

theorem start_from (n : ℕ) : (start n : Window α).From n := ⟨Nat.le_refl n, nofun⟩

theorem From.arrive {n : ℕ} (ok : W.Ok size) (h : W.From n) : (W.arrive size p).From n := by
  refine ⟨Nat.le_trans h.next le_arrive_next, fun q hq => ?_⟩
  by_cases hp : p.1 < W.next
  · rw [Window.arrive, if_pos hp] at hq
    exact h.out q hq
  · rcases mem_arrive (Or.inr hq) with rfl | hq | hq
    · have := h.next; omega
    · have := h.next
      have := ok.above q hq
      omega
    · exact h.out q hq

theorem From.expire {n : ℕ} (ok : W.Ok size) (h : W.From n) : W.expire.From n := by
  refine ⟨Nat.le_trans h.next ok.le_expire_next, fun q hq => ?_⟩
  rcases mem_expire (Or.inr hq) with hq | hq
  · have := h.next
    have := ok.above q hq
    omega
  · exact h.out q hq

/-- As long as nothing arrived above the window, every number below its start was
handed on or counted as lost. -/
def Balanced (n : ℕ) (W : Window α) : Prop :=
  W.shifts = 0 → W.next = n + W.out.length + W.lost

theorem advance_shifts_le : W.shifts ≤ (W.advance size u).shifts := by
  unfold advance; split_ifs <;> simp

theorem Ok.arrive_balanced {n : ℕ} (h : W.Ok size) (hb : W.Balanced n) :
    (W.arrive size p).Balanced n := by
  unfold arrive
  split_ifs with hp
  · exact hb
  · cases hl : place p W.held with
    | none =>
      simp only
      rwa [h.advance_held_eq (place_none hl)]
    | some l =>
      intro hs
      have hs : (W.advance size p.1).shifts = 0 := hs
      have hw := hb (Nat.le_zero.mp (hs ▸ advance_shifts_le))
      rcases Nat.lt_or_ge W.next p.1 with hlt | hge
      · have hi : ¬ W.next + size ≤ p.1 := by
          intro hge
          rw [advance, if_neg (by omega), if_pos hge] at hs
          exact Nat.succ_ne_zero _ hs
        have ha : W.advance size p.1 = W := by
          rw [advance, if_neg (by omega), if_neg hi]
        have hr : release W.next l = ⟨W.next, [], l⟩ := by
          refine release_none fun q hq => ?_
          rcases List.mem_cons.mp ((place_perm hl).subset hq) with rfl | hq
          · exact hlt
          · exact h.above q hq
        simp only [ha, drain, hr, List.append_nil]
        exact hw
      · have he : p.1 = W.next := by omega
        have ha : W.advance size p.1 = { W with next := W.next + 1 } := by rw [advance, if_pos he]
        have hpl : l = p :: W.held := by
          have := place_below (p := p) fun q hq => he ▸ h.above q hq
          exact Option.some.inj (hl.symm.trans this)
        have hr : release (W.next + 1) (p :: W.held) =
            ⟨(release (W.next + 1) W.held).next, p :: (release (W.next + 1) W.held).out,
              (release (W.next + 1) W.held).held⟩ := by
          rw [release_reached (by omega), if_neg (by omega)]
        have hn := release_length (w := W.next + 1) h.sorted fun q hq => h.above q hq
        simp only [ha, drain, hpl, hr, List.length_append, List.length_cons]
        omega

theorem Ok.expire_balanced {n : ℕ} (h : W.Ok size) (hb : W.Balanced n) : W.expire.Balanced n := by
  unfold expire
  split
  · exact hb
  · next q l hl =>
    intro hs
    have hw := hb hs
    have hq := h.above q (hl ▸ List.mem_cons_self)
    have hsl : Sorted (q :: l) := hl ▸ h.sorted
    have hn := release_length h.sorted (w := q.1) fun r hr => by
      rcases List.mem_cons.mp (hl ▸ hr) with rfl | hr
      · exact Nat.le_refl _
      · exact Nat.le_of_lt ((List.pairwise_cons.mp hsl).1 r hr)
    simp only [drain, List.length_append]
    omega

/-- Of the numbers from `n` on, those which have arrived are the ones below the
window's start and the ones held, and the former were handed on, each once, in order. -/
structure Gathered (n : ℕ) (seen : List ℕ) (W : Window α) : Prop where
  from_start : n ≤ W.next
  out : W.out.map Prod.fst = List.range' n (W.next - n)
  seen : ∀ k, k ∈ seen ↔ n ≤ k ∧ k < W.next ∨ k ∈ W.held.map Prod.fst

theorem start_gathered (n : ℕ) : (start n : Window α).Gathered n [] :=
  ⟨Nat.le_refl n, by simp [start], fun k => by simp [start]⟩

theorem drain_gathered {n : ℕ} {seen : List ℕ} (hs : Sorted l) (hl : ∀ q ∈ l, w ≤ q.1) (hn : n ≤ w)
    (ho : W.out.map Prod.fst = List.range' n (w - n))
    (hm : ∀ k, k ∈ seen ↔ n ≤ k ∧ k < w ∨ k ∈ l.map Prod.fst) : (W.drain w l).Gathered n seen where
  from_start := Nat.le_trans hn (le_release_next w l)
  out := by
    have hw := le_release_next w l
    have he : (release w l).next - n = (w - n) + ((release w l).next - w) := by omega
    have hnw : w = n + 1 * (w - n) := by omega
    simp only [drain, List.map_append, ho, release_range hs hl]
    rw [he, ← List.range'_append, ← hnw]
  seen := fun k => by
    have ha : l.map Prod.fst = List.range' w ((release w l).next - w) ++
        (release w l).held.map Prod.fst := by
      rw [← release_range hs hl, ← List.map_append, release_append]
    have hw := le_release_next w l
    rw [hm, ha, List.mem_append, List.mem_range'_1]
    simp only [drain]
    have hk : n ≤ k ∧ k < w ∨ w ≤ k ∧ k < w + ((release w l).next - w) ↔
        n ≤ k ∧ k < (release w l).next := by omega
    rw [← or_assoc, hk]

/-- What arrives after all the numbers that are `size` or more below it is not above the
window, for the number the window starts at has not arrived. -/
theorem Gathered.lt_end {n : ℕ} {seen : List ℕ} (h : W.Gathered n seen) (ok : W.Ok size)
    (hb : ∀ k, n ≤ k → k + size ≤ u → k ∈ seen) : u < W.next + size := by
  by_contra hge
  rcases (h.seen _).mp (hb W.next h.from_start (Nat.le_of_not_lt hge)) with hk | hk
  · omega
  · obtain ⟨q, hq, he⟩ := List.mem_map.mp hk
    have := ok.above q hq
    omega

theorem Gathered.arrive {n : ℕ} {seen : List ℕ} (h : W.Gathered n seen) (ok : W.Ok size)
    (hp : n ≤ p.1) (hb : ∀ k, n ≤ k → k + size ≤ p.1 → k ∈ seen) :
    (W.arrive size p).Gathered n (seen ++ [p.1]) := by
  have hn := h.from_start
  have hi := h.lt_end ok hb
  have hmem : ∀ k, k ∈ seen ++ [p.1] ↔ k = p.1 ∨ k ∈ seen := fun k => by
    rw [List.mem_append, List.mem_singleton, or_comm]
  unfold Window.arrive
  split_ifs with hlt
  · refine ⟨hn, h.out, fun k => ?_⟩
    rw [hmem, h.seen]
    constructor
    · rintro (rfl | hk)
      · exact Or.inl ⟨hp, hlt⟩
      · exact hk
    · exact Or.inr
  · cases hl : place p W.held with
    | none =>
      obtain ⟨q, hq, he⟩ := place_none hl
      simp only
      rw [ok.advance_held_eq ⟨q, hq, he⟩]
      refine ⟨hn, h.out, fun k => ?_⟩
      rw [hmem, h.seen]
      constructor
      · rintro (rfl | hk)
        · exact Or.inr (List.mem_map.mpr ⟨q, hq, he⟩)
        · exact hk
      · exact Or.inr
    | some l =>
      have hml : ∀ k, k ∈ l.map Prod.fst ↔ k = p.1 ∨ k ∈ W.held.map Prod.fst := fun k => by
        rw [((place_perm hl).map Prod.fst).mem_iff, List.map_cons, List.mem_cons]
      rcases Nat.lt_or_ge W.next p.1 with hgt | hle
      · have ha : W.advance size p.1 = W := by
          rw [advance, if_neg (by omega), if_neg (by omega)]
        simp only [ha]
        refine drain_gathered (place_sorted ok.sorted hl) (fun q hq => ?_) hn h.out fun k => ?_
        · rcases List.mem_cons.mp ((place_perm hl).subset hq) with rfl | hq
          · exact Nat.le_of_lt hgt
          · exact Nat.le_of_lt (ok.above q hq)
        · rw [hmem, h.seen, hml]
          tauto
      · have he : p.1 = W.next := by omega
        have ha : W.advance size p.1 = { W with next := W.next + 1 } := by rw [advance, if_pos he]
        have hpl : l = p :: W.held := by
          have := place_below (p := p) fun q hq => he ▸ ok.above q hq
          exact Option.some.inj (hl.symm.trans this)
        have hd : (W.advance size p.1).drain (W.advance size p.1).next l = W.drain p.1 l := by
          simp only [ha, drain, hpl]
          rw [release_reached (by omega), release_reached (by omega), if_neg (by omega),
            if_pos rfl, he]
        change ((W.advance size p.1).drain (W.advance size p.1).next l).Gathered n (seen ++ [p.1])
        rw [hd]
        refine drain_gathered (place_sorted ok.sorted hl) (fun q hq => ?_) hp
          (he ▸ h.out) fun k => ?_
        · rcases List.mem_cons.mp ((place_perm hl).subset hq) with rfl | hq
          · exact Nat.le_refl _
          · exact he ▸ Nat.le_of_lt (ok.above q hq)
        · rw [hmem, h.seen, hml, he]
          tauto

/-- Once all numbers from `n` up to `m` have arrived, and no other, all have been
handed on and none is held. -/
theorem Gathered.complete {n m : ℕ} {seen : List ℕ} (h : W.Gathered n seen) (ok : W.Ok size)
    (hnm : n ≤ m) (hs : ∀ k, k ∈ seen ↔ n ≤ k ∧ k < m) :
    W.out.map Prod.fst = List.range' n (m - n) ∧ W.held = [] ∧ W.next = m := by
  have hn := h.from_start
  have hnext : W.next = m := by
    rcases Nat.lt_trichotomy W.next m with hlt | he | hgt
    · rcases (h.seen _).mp ((hs W.next).mpr ⟨hn, hlt⟩) with hk | hk
      · omega
      · obtain ⟨q, hq, he⟩ := List.mem_map.mp hk
        have := ok.above q hq
        omega
    · exact he
    · have := (hs m).mp ((h.seen m).mpr (Or.inl ⟨hnm, hgt⟩))
      omega
  refine ⟨hnext ▸ h.out, List.eq_nil_iff_forall_not_mem.mpr fun q hq => ?_, hnext⟩
  have hk := (hs q.1).mp ((h.seen q.1).mpr (Or.inr (List.mem_map_of_mem hq)))
  have := ok.above q hq
  omega

end Window
end Okm6ullOta.ReorderWindows
