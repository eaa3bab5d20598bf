import Okm6ullOta.LabelledRuns
import Okm6ullOta.RingBuffers
import Mathlib.Data.BitVec

/-!
# The circular buffer of the Wi-Fi driver

struct rtw_cbuf and its functions in os_dep/osdep_service.c. One cell stays free, so that a full
buffer is told from an empty one; but rtw_cbuf_full subtracts one from `read` without a turn
around, and does not see a full buffer whose `read` is zero.
-/
namespace Okm6ullOta.CircularBuffer
open LabelledRuns RingBuffers

variable {α : Type*}

/-- struct rtw_cbuf. -/
structure Cbuf (α : Type*) where
  write : BitVec 32
  read : BitVec 32
  size : BitVec 32
  bufs : ℕ → α

def rtwCbufFull (c : Cbuf α) : Bool := c.write == c.read - 1

def rtwCbufEmpty (c : Cbuf α) : Bool := c.write == c.read

/-- The assignments of rtw_cbuf_push and rtw_cbuf_pop. -/
def Cbuf.store (c : Cbuf α) (buf : α) : Cbuf α :=
  { c with bufs := Function.update c.bufs c.write.toNat buf }

def Cbuf.advance (c : Cbuf α) : Cbuf α := { c with write := (c.write + 1) % c.size }

def Cbuf.retire (c : Cbuf α) : Cbuf α := { c with read := (c.read + 1) % c.size }

def rtwCbufPush (c : Cbuf α) (buf : α) : Bool × Cbuf α :=
  if rtwCbufFull c then (false, c) else (true, (c.store buf).advance)

/-- `none` where the buffer is empty. -/
def rtwCbufPop (c : Cbuf α) : Option α × Cbuf α :=
  if rtwCbufEmpty c then (none, c) else (some (c.bufs c.read.toNat), c.retire)

/-- `bufs` is what the memory holds. -/
def rtwCbufAlloc (size : BitVec 32) (bufs : ℕ → α) : Cbuf α := ⟨0, 0, size, bufs⟩

/-- What stands from `read` up to `write`. -/
def Cbuf.contents (c : Cbuf α) : List α :=
  held c.size.toNat c.bufs c.read.toNat
    ((c.write.toNat + (c.size.toNat - c.read.toNat)) % c.size.toNat)

/-- All cells but the last are in use, and `read` is zero. -/
def Blind (c : Cbuf α) : Prop := c.read = 0 ∧ c.write.toNat + 1 = c.size.toNat

instance (c : Cbuf α) : Decidable (Blind c) := inferInstanceAs (Decidable (_ ∧ _))

/-- The buffer holds the list. -/
structure Holds (c : Cbuf α) (live : List α) : Prop where
  read_lt : c.read.toNat < c.size.toNat
  room : live.length < c.size.toNat
  place : c.write.toNat = (c.read.toNat + live.length) % c.size.toNat
  cells : held c.size.toNat c.bufs c.read.toNat live.length = live

variable {c : Cbuf α} {live : List α} {buf x : α} {size : BitVec 32} {bufs : ℕ → α}

theorem holds_alloc (h : 0 < size.toNat) : Holds (rtwCbufAlloc size bufs) [] :=
  ⟨h, h, by simp [rtwCbufAlloc], rfl⟩

/-- The next place after `write` and `read`. -/
theorem next_toNat {i : BitVec 32} (hi : i.toNat < c.size.toNat) :
    ((i + 1) % c.size).toNat = (i.toNat + 1) % c.size.toNat := by
  have hs := c.size.isLt
  rw [BitVec.toNat_umod, BitVec.toNat_add, show (1 : BitVec 32).toNat = 1 from rfl,
    Nat.mod_eq_of_lt (a := i.toNat + 1) (by omega)]

namespace Holds
variable (h : Holds c live)
include h

theorem write_lt : c.write.toNat < c.size.toNat := by
  rw [h.place]
  exact Nat.mod_lt _ (Nat.zero_lt_of_lt h.room)

theorem contents_eq : c.contents = live := by
  have hr := h.read_lt
  have hn : (c.write.toNat + (c.size.toNat - c.read.toNat)) % c.size.toNat = live.length := by
    rw [h.place, Nat.mod_add_mod, show c.read.toNat + live.length + (c.size.toNat - c.read.toNat) =
      live.length + c.size.toNat by omega, Nat.add_mod_right, Nat.mod_eq_of_lt h.room]
  rw [Cbuf.contents, hn, h.cells]

theorem place_cases : c.write.toNat = c.read.toNat + live.length ∨
    c.write.toNat + c.size.toNat = c.read.toNat + live.length := by
  have hr := h.read_lt
  have hl := h.room
  rw [h.place]
  rcases Nat.lt_or_ge (c.read.toNat + live.length) c.size.toNat with hlt | hge
  · exact .inl (Nat.mod_eq_of_lt hlt)
  · rw [Nat.mod_eq_sub_mod hge, Nat.mod_eq_of_lt (by omega)]
    exact .inr (by omega)

theorem empty_iff : rtwCbufEmpty c = true ↔ live = [] := by
  have hr := h.read_lt
  have hl := h.room
  have hp := h.place_cases
  rw [rtwCbufEmpty, beq_iff_eq, ← BitVec.toNat_inj, ← List.length_eq_zero_iff]
  omega

/-- A full buffer is seen unless `read` is zero. -/
theorem full_iff : rtwCbufFull c = true ↔ live.length + 1 = c.size.toNat ∧ c.read ≠ 0 := by
  have hr := h.read_lt
  have hl := h.room
  have hp := h.place_cases
  have hw := h.write_lt
  have hs := c.size.isLt
  rw [rtwCbufFull, beq_iff_eq, ← BitVec.toNat_inj, BitVec.toNat_sub, Ne, ← BitVec.toNat_inj,
    show (1 : BitVec 32).toNat = 1 from rfl, show (0 : BitVec 32).toNat = 0 from rfl]
  omega

theorem blind_iff : Blind c ↔ live.length + 1 = c.size.toNat ∧ c.read = 0 := by
  have hp := h.place_cases
  have hl := h.room
  have hw := h.write_lt
  rw [Blind, ← BitVec.toNat_inj, show (0 : BitVec 32).toNat = 0 from rfl]
  omega

theorem store_holds (buf : α) : Holds (c.store buf) live where
  read_lt := h.read_lt
  room := h.room
  place := h.place
  cells := by
    simp only [Cbuf.store, h.place]
    rw [held_update h.room, h.cells]

theorem advance_holds (hc : c.bufs c.write.toNat = buf) (hn : live.length + 1 < c.size.toNat) :
    Holds c.advance (live ++ [buf]) where
  read_lt := h.read_lt
  room := by simpa [Cbuf.advance] using hn
  place := by
    rw [Cbuf.advance, next_toNat h.write_lt, h.place, Nat.mod_add_mod, List.length_append]
    rfl
  cells := by
    simp only [Cbuf.advance, List.length_append, List.length_singleton]
    rw [held_snoc, h.cells, ← h.place, hc]

/-- The last free cell is used: `write` meets `read`, and the buffer looks empty. -/
theorem advance_overflow (hn : live.length + 1 = c.size.toNat) : Holds c.advance [] where
  read_lt := h.read_lt
  room := Nat.zero_lt_of_lt h.room
  place := by
    rw [Cbuf.advance, next_toNat h.write_lt, h.place, Nat.mod_add_mod, Nat.add_assoc, hn,
      Nat.add_mod_right]
    rfl
  cells := rfl

end Holds

theorem Holds.head (h : Holds c (x :: live)) : c.bufs c.read.toNat = x := by
  have hc := h.cells
  rw [List.length_cons, held_succ h.read_lt] at hc
  exact (List.cons.inj hc).1

theorem Holds.retire_holds (h : Holds c (x :: live)) : Holds c.retire live where
  read_lt := by
    rw [Cbuf.retire, next_toNat h.read_lt]
    exact Nat.mod_lt _ (Nat.zero_lt_of_lt h.room)
  room := Nat.lt_of_succ_lt h.room
  place := by
    rw [Cbuf.retire, next_toNat h.read_lt, Nat.mod_add_mod, Nat.add_assoc, Nat.add_comm 1]
    exact h.place
  cells := by
    have hc := h.cells
    rw [List.length_cons, held_succ h.read_lt] at hc
    rw [Cbuf.retire, next_toNat h.read_lt]
    exact (List.cons.inj hc).2

inductive Call (α : Type*)
  | push (buf : α)
  | pop

/-- The buffer, the pointers which were taken in, and those which were given back. -/
structure Usage (α : Type*) where
  cbuf : Cbuf α
  accepted : List α
  popped : List α

def Usage.call (u : Usage α) : Call α → Usage α
  | .push buf =>
    let r := rtwCbufPush u.cbuf buf
    { u with cbuf := r.2, accepted := if r.1 then u.accepted ++ [buf] else u.accepted }
  | .pop =>
    let r := rtwCbufPop u.cbuf
    { u with cbuf := r.2, popped := u.popped ++ r.1.toList }

def Usage.calls (u : Usage α) (cs : List (Call α)) : Usage α := cs.foldl Usage.call u

def fresh (size : BitVec 32) (bufs : ℕ → α) : Usage α := ⟨rtwCbufAlloc size bufs, [], []⟩

/-- A pointer is pushed where the buffer is full and does not show it. -/
def PushesBlind (u : Usage α) (cs : List (Call α)) : Prop :=
  ∃ before buf after, cs = before ++ .push buf :: after ∧ Blind (u.calls before).cbuf

theorem rtwCbufPush_cases (h : Holds c live) (buf : α) :
    (rtwCbufPush c buf = (false, c) ∧ live.length + 1 = c.size.toNat ∧ ¬ Blind c) ∨
    (∃ c', rtwCbufPush c buf = (true, c') ∧ Holds c' (live ++ [buf]) ∧
      c'.size = c.size ∧ ¬ Blind c) ∨
    (∃ c', rtwCbufPush c buf = (true, c') ∧ Holds c' [] ∧ c'.size = c.size ∧
      live.length + 1 = c.size.toNat ∧ Blind c) := by
  have hs := h.store_holds buf
  have hb : (c.store buf).bufs (c.store buf).write.toNat = buf := Function.update_self ..
  rw [h.blind_iff]
  by_cases hn : live.length + 1 = c.size.toNat
  · by_cases hr : c.read = 0
    · have hf : ¬ rtwCbufFull c = true := by simp [h.full_iff, hr]
      exact .inr (.inr ⟨_, if_neg hf, hs.advance_overflow hn, rfl, hn, hn, hr⟩)
    · have hf : rtwCbufFull c = true := h.full_iff.mpr ⟨hn, hr⟩
      exact .inl ⟨if_pos hf, hn, fun hb => hr hb.2⟩
  · have hf : ¬ rtwCbufFull c = true := fun hf => hn (h.full_iff.mp hf).1
    have hlt : live.length + 1 < c.size.toNat := Nat.lt_of_le_of_ne h.room hn
    exact .inr (.inl ⟨_, if_neg hf, hs.advance_holds hb hlt, rfl, fun hb => hn hb.1⟩)

theorem rtwCbufPop_cases (h : Holds c live) :
    (rtwCbufPop c = (none, c) ∧ live = []) ∨
    ∃ x rest c', live = x :: rest ∧ rtwCbufPop c = (some x, c') ∧ Holds c' rest ∧
      c'.size = c.size := by
  cases live with
  | nil => exact .inl ⟨if_pos (h.empty_iff.mpr rfl), rfl⟩
  | cons x rest =>
    have he : ¬ rtwCbufEmpty c = true := fun he => List.cons_ne_nil _ _ (h.empty_iff.mp he)
    exact .inr ⟨x, rest, _, rfl, by rw [rtwCbufPop, if_neg he, h.head], h.retire_holds, rfl⟩

theorem calls_snoc (u : Usage α) (cs : List (Call α)) (l : Call α) :
    u.calls (cs ++ [l]) = (u.calls cs).call l := by
  rw [Usage.calls, List.foldl_append]
  rfl

theorem pushesBlind_snoc (u : Usage α) (cs : List (Call α)) (l : Call α) :
    PushesBlind u (cs ++ [l]) ↔
      PushesBlind u cs ∨ (∃ buf, l = .push buf) ∧ Blind (u.calls cs).cbuf := by
  constructor
  · rintro ⟨before, buf, after, he, hb⟩
    rcases List.eq_nil_or_concat after with rfl | ⟨after, l', rfl⟩
    · obtain ⟨rfl, hl⟩ := List.append_inj' he rfl
      exact .inr ⟨⟨buf, (List.cons.inj hl).1⟩, hb⟩
    · rw [List.concat_eq_append, ← List.cons_append, ← List.append_assoc] at he
      exact .inl ⟨before, buf, after, (List.append_inj' he rfl).1, hb⟩
  · rintro (⟨before, buf, after, rfl, hb⟩ | ⟨⟨buf, rfl⟩, hb⟩)
    · exact ⟨before, buf, after ++ [l], by simp, hb⟩
    · exact ⟨cs, buf, [], rfl, hb⟩

/-- `lost` is the number of times `write` ran over a full buffer. -/
structure Accounted (u : Usage α) (live : List α) (lost : ℕ) : Prop where
  holds : Holds u.cbuf live
  count : u.accepted.length = u.popped.length + live.length + u.cbuf.size.toNat * lost
  whole : lost = 0 → u.accepted = u.popped ++ live

/-- Only a push onto a buffer which is full and does not show it loses anything. -/
theorem Accounted.push {u : Usage α} {lost : ℕ} (h : Accounted u live lost) (buf : α) :
    ∃ live', Accounted (u.call (.push buf)) live' (if Blind u.cbuf then lost + 1 else lost) := by
  rcases rtwCbufPush_cases h.holds buf with ⟨hp, -, hb⟩ | ⟨c', hp, hc, hs, hb⟩ |
    ⟨c', hp, hc, hs, hl, hb⟩ <;>
    simp only [Usage.call, hp, hb, if_true, if_false, Bool.false_eq_true]
  · exact ⟨live, h.holds, h.count, h.whole⟩
  · refine ⟨live ++ [buf], hc, ?_, fun h0 => ?_⟩
    · simp only [List.length_append, List.length_singleton, h.count, hs]
      omega
    · simp only [h.whole h0, List.append_assoc]
  · refine ⟨[], hc, ?_, fun h0 => absurd h0 (Nat.succ_ne_zero lost)⟩
    simp only [List.length_append, List.length_singleton, List.length_nil, h.count,
      hs, Nat.mul_succ]
    omega

theorem Accounted.pop {u : Usage α} {lost : ℕ} (h : Accounted u live lost) :
    ∃ live', Accounted (u.call .pop) live' lost := by
  rcases rtwCbufPop_cases h.holds with ⟨hp, -⟩ | ⟨x, rest, c', rfl, hp, hc, hs⟩
  · simp only [Usage.call, hp, Option.toList_none, List.append_nil]
    exact ⟨live, h⟩
  · simp only [Usage.call, hp, Option.toList_some]
    refine ⟨rest, hc, ?_, fun h0 => ?_⟩
    · simp only [h.count, hs, List.length_append, List.length_cons, List.length_nil]
      omega
    · simp only [h.whole h0, List.append_assoc, List.singleton_append]

theorem calls_accounted (bufs : ℕ → α) (h : 0 < size.toNat) (cs : List (Call α)) :
    ∃ live lost, Accounted ((fresh size bufs).calls cs) live lost ∧
      (lost = 0 ↔ ¬ PushesBlind (fresh size bufs) cs) := by
  induction cs using List.reverseRecOn with
  | nil =>
    refine ⟨[], 0, ⟨holds_alloc h, rfl, fun _ => rfl⟩, iff_of_true rfl ?_⟩
    rintro ⟨before, buf, after, he, -⟩
    simp at he
  | append_singleton cs l ih =>
    obtain ⟨live, lost, ha, hz⟩ := ih
    rw [calls_snoc]
    cases l with
    | push buf =>
      obtain ⟨live', ha'⟩ := ha.push buf
      refine ⟨live', _, ha', ?_⟩
      rw [pushesBlind_snoc, not_or, ← hz]
      by_cases hb : Blind ((fresh size bufs).calls cs).cbuf
      · rw [if_pos hb]
        exact iff_of_false (Nat.succ_ne_zero lost) fun hn => hn.2 ⟨⟨buf, rfl⟩, hb⟩
      · rw [if_neg hb]
        exact (and_iff_left fun hn => hb hn.2).symm
    | pop =>
      obtain ⟨live', ha'⟩ := ha.pop
      refine ⟨live', lost, ha', ?_⟩
      rw [pushesBlind_snoc, not_or, ← hz]
      exact (and_iff_left (by simp)).symm

/-- What was taken in has come out, in order, or is still held, exactly where no pointer was
pushed onto a full buffer whose `read` was zero. -/
theorem fifo_iff (h : 0 < size.toNat) (cs : List (Call α)) :
    ((fresh size bufs).calls cs).popped ++ ((fresh size bufs).calls cs).cbuf.contents =
        ((fresh size bufs).calls cs).accepted ↔
      ¬ PushesBlind (fresh size bufs) cs := by
  obtain ⟨live, lost, ha, hz⟩ := calls_accounted bufs h cs
  rw [ha.holds.contents_eq, ← hz]
  refine ⟨fun he => ?_, fun h0 => (ha.whole h0).symm⟩
  have hl := congrArg List.length he
  have hs := Nat.zero_lt_of_lt ha.holds.read_lt
  rw [List.length_append, ha.count] at hl
  have hm : ((fresh size bufs).calls cs).cbuf.size.toNat * lost = 0 := by omega
  exact (Nat.mul_eq_zero.mp hm).resolve_left (Nat.ne_of_gt hs)

theorem fifo_three :
    0 < (3#32).toNat ∧
    (((fresh 3#32 fun _ => 0).calls [.push 7, .push 8, .pop]).popped ++
        ((fresh 3#32 fun _ => 0).calls [.push 7, .push 8, .pop]).cbuf.contents =
          ((fresh 3#32 fun _ => 0).calls [.push 7, .push 8, .pop]).accepted ↔
      ¬ PushesBlind (fresh 3#32 fun _ => 0) [.push 7, .push 8, .pop]) :=
  ⟨by decide, fifo_iff (by decide) _⟩

/-- Where rtw_cbuf_push stands. -/
inductive Producer (α : Type*)
  | idle
  | tested (buf : α)
  | stored (buf : α)

/-- Where rtw_cbuf_pop stands. -/
inductive Consumer (α : Type*)
  | idle
  | tested
  | loaded (buf : α)

/-- A producer beside a consumer. Each assignment and each test is a step, in any order of the
two. -/
structure Machine (α : Type*) where
  cbuf : Cbuf α
  producer : Producer α
  consumer : Consumer α
  pushed : List α
  popped : List α

inductive Access (α : Type*)
  | push (buf : α)
  | store
  | advance
  | pop
  | load
  | retire

def next (m : Machine α) : Access α → Option (Machine α)
  | .push buf => match m.producer with
    | .idle => if rtwCbufFull m.cbuf then some m else some { m with producer := .tested buf }
    | _ => none
  | .store => match m.producer with
    | .tested buf => some { m with cbuf := m.cbuf.store buf, producer := .stored buf }
    | _ => none
  | .advance => match m.producer with
    | .stored buf =>
      some { m with cbuf := m.cbuf.advance, producer := .idle, pushed := m.pushed ++ [buf] }
    | _ => none
  | .pop => match m.consumer with
    | .idle => if rtwCbufEmpty m.cbuf then some m else some { m with consumer := .tested }
    | _ => none
  | .load => match m.consumer with
    | .tested => some { m with consumer := .loaded (m.cbuf.bufs m.cbuf.read.toNat) }
    | _ => none
  | .retire => match m.consumer with
    | .loaded buf =>
      some { m with cbuf := m.cbuf.retire, consumer := .idle, popped := m.popped ++ [buf] }
    | _ => none

def start (size : BitVec 32) (bufs : ℕ → α) : Machine α :=
  ⟨rtwCbufAlloc size bufs, .idle, .idle, [], []⟩

/-- No push begins where the buffer is full and does not show it. -/
def Sighted (m : Machine α) : Access α → Prop
  | .push _ => ¬ Blind m.cbuf
  | _ => True

instance (m : Machine α) (l : Access α) : Decidable (Sighted m l) :=
  match l with
  | .push _ => inferInstanceAs (Decidable (¬ _))
  | .store | .advance | .pop | .load | .retire => inferInstanceAs (Decidable True)

def Works (m : Machine α) (l : Access α) (m' : Machine α) : Prop :=
  Sighted m l ∧ next m l = some m'

/-- Behind its test the producer has a free cell, which the consumer never takes away. -/
def Producer.Ready (c : Cbuf α) (live : List α) : Producer α → Prop
  | .idle => True
  | .tested _ => live.length + 1 < c.size.toNat
  | .stored buf => live.length + 1 < c.size.toNat ∧ c.bufs c.write.toNat = buf

/-- Behind its test the consumer has a pointer to take, which the producer never overwrites. -/
def Consumer.Ready (live : List α) : Consumer α → Prop
  | .idle => True
  | .tested => live ≠ []
  | .loaded buf => live.head? = some buf

structure Shared (m : Machine α) (live : List α) : Prop where
  holds : Holds m.cbuf live
  producer : m.producer.Ready m.cbuf live
  consumer : m.consumer.Ready live
  order : m.pushed = m.popped ++ live

variable {m m' : Machine α}

theorem shared_start (h : 0 < size.toNat) : Shared (start size bufs) ([] : List α) :=
  ⟨holds_alloc h, trivial, trivial, rfl⟩

namespace Shared
variable (h : Shared m live)
include h

theorem push (hb : ¬ Blind m.cbuf) (hn : next m (.push buf) = some m') : Shared m' live := by
  simp only [next] at hn
  split at hn
  · rename_i hi
    split at hn
    · cases hn
      exact h
    · rename_i hf
      cases hn
      refine ⟨h.holds, ?_, h.consumer, h.order⟩
      -- neither full nor blind: a cell is free
      refine Nat.lt_of_le_of_ne h.holds.room fun hl => ?_
      by_cases hr : m.cbuf.read = 0
      · exact hb (h.holds.blind_iff.mpr ⟨hl, hr⟩)
      · exact hf (h.holds.full_iff.mpr ⟨hl, hr⟩)
  · cases hn

theorem store (hn : next m .store = some m') : Shared m' live := by
  simp only [next] at hn
  split at hn
  · rename_i buf hp
    cases hn
    have hr := h.producer
    rw [hp] at hr
    exact ⟨h.holds.store_holds buf, ⟨hr, Function.update_self ..⟩, h.consumer, h.order⟩
  · cases hn

theorem advance (hn : next m .advance = some m') : ∃ live', Shared m' live' := by
  simp only [next] at hn
  split at hn
  · rename_i buf hp
    cases hn
    have hr := h.producer
    rw [hp] at hr
    refine ⟨live ++ [buf], h.holds.advance_holds hr.2 hr.1, trivial, ?_, ?_⟩
    · have hc := h.consumer
      cases hk : m.consumer with
      | idle => trivial
      | tested => exact List.append_ne_nil_of_right_ne_nil _ (List.cons_ne_nil _ _)
      | loaded x =>
        rw [hk] at hc
        exact (List.head?_append.trans (by rw [hc]; rfl))
    · simp only [h.order, List.append_assoc]
  · cases hn

theorem pop (hn : next m .pop = some m') : Shared m' live := by
  simp only [next] at hn
  split at hn
  · split at hn
    · cases hn
      exact h
    · rename_i he
      cases hn
      exact ⟨h.holds, h.producer, fun hl => he (h.holds.empty_iff.mpr hl), h.order⟩
  · cases hn

theorem load (hn : next m .load = some m') : Shared m' live := by
  simp only [next] at hn
  split at hn
  · rename_i hk
    cases hn
    have hc := h.consumer
    rw [hk] at hc
    obtain ⟨x, rest, rfl⟩ := List.exists_cons_of_ne_nil hc
    exact ⟨h.holds, h.producer, congrArg some h.holds.head.symm, h.order⟩
  · cases hn

theorem retire (hn : next m .retire = some m') : ∃ live', Shared m' live' := by
  simp only [next] at hn
  split at hn
  · rename_i x hk
    cases hn
    have hc := h.consumer
    rw [hk] at hc
    obtain ⟨rest, rfl⟩ := List.head?_eq_some_iff.mp hc
    refine ⟨rest, h.holds.retire_holds, ?_, trivial, ?_⟩
    · have hr := h.producer
      cases hp : m.producer with
      | idle => trivial
      | tested y =>
        rw [hp] at hr
        exact Nat.lt_of_succ_lt hr
      | stored y =>
        rw [hp] at hr
        exact ⟨Nat.lt_of_succ_lt hr.1, hr.2⟩
    · simp only [h.order, List.append_assoc, List.singleton_append]
  · cases hn

end Shared

theorem works_shared {l : Access α} (h : ∃ live, Shared m live) (hw : Works m l m') :
    ∃ live, Shared m' live := by
  obtain ⟨live, h⟩ := h
  obtain ⟨hs, hn⟩ := hw
  cases l with
  | push buf => exact ⟨live, h.push hs hn⟩
  | store => exact ⟨live, h.store hn⟩
  | advance => exact h.advance hn
  | pop => exact ⟨live, h.pop hn⟩
  | load => exact ⟨live, h.load hn⟩
  | retire => exact h.retire hn

/-- However the accesses of the two mix, what was pushed has come out, in order, or is held, and
the buffer looks empty to the consumer only when it is. -/
theorem works_fifo (h : 0 < size.toNat) {ls : List (Access α)}
    (run : Run Works (start size bufs) ls m) :
    m.pushed = m.popped ++ m.cbuf.contents ∧
      (rtwCbufEmpty m.cbuf = true ↔ m.cbuf.contents = []) := by
  obtain ⟨live, hs⟩ := run.invariant (I := fun m => ∃ live, Shared m live) ⟨[], shared_start h⟩
    fun _ _ _ => works_shared
  rw [hs.holds.contents_eq]
  exact ⟨hs.order, hs.holds.empty_iff⟩

/-- The second push begins while the first pointer is being popped. -/
theorem works_fifo_two :
    0 < (3#32).toNat ∧
    ∃ m, Run Works (start 3#32 fun _ => 0)
        [.push 7, .store, .pop, .advance, .pop, .push 8, .load, .store, .retire, .advance] m ∧
      (m.pushed = [7, 8] ∧ m.popped = [7]) ∧
      m.pushed = m.popped ++ m.cbuf.contents ∧
      (rtwCbufEmpty m.cbuf = true ↔ m.cbuf.contents = []) := by
  have hr : ∃ m, Run Works (start 3#32 fun _ => 0)
      [.push 7, .store, .pop, .advance, .pop, .push 8, .load, .store, .retire, .advance] m ∧
      decide (m.pushed = [7, 8] ∧ m.popped = [7]) = true :=
    tested_run (c := fun m l => decide (Sighted m l)) (fun _ _ => of_decide_eq_true) _ _
      (fun m => decide (m.pushed = [7, 8] ∧ m.popped = [7])) (by decide)
  obtain ⟨m, run, hm⟩ := hr
  exact ⟨by decide, m, run, of_decide_eq_true hm, works_fifo (by decide) run⟩

end Okm6ullOta.CircularBuffer
