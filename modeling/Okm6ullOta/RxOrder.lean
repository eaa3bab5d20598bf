import Okm6ullOta.RxWindow
import Mathlib.Data.Finset.Card
import Mathlib.Order.Interval.Finset.Nat

/-!
# What the reordering of received frames guarantees

From an agreement on reordering on which is made while nothing is held, for every
order in which frames arrive and every interleaving with the timer: the frames held
fit the window and are never forgotten. Where the peer's numbers are near enough to each
other, frames are handed on in their order and each number once, nothing is missing as
long as the frames are less than a window apart, and the drop counter counts what was
never handed on. Over everything else that happens to a station no frame is lost from
sight.
-/
namespace Okm6ullOta.RxOrder
open SequenceRings ReorderWindows ReorderWindows.Window LabelledRuns RxReorder RxReorder.Receiver
open RxWindow

variable {α : Type*} {r₀ r : Receiver α} {W : Window (RecvFrame α)} {f : RecvFrame α} {n u v w : ℕ}
  {ms : List (Move α)} {number : RecvFrame α → ℕ}

theorem arrivals_append (ms : List (Move α)) (m : Move α) :
    arrivals (ms ++ [m]) = arrivals ms ++ arrivals [m] := List.filterMap_append ..

/-- What the first frame establishes and every later frame and timeout keeps holds of
the window and the arrivals of every run of the data path. -/
theorem follows_run {P : List (RecvFrame α) → Window (RecvFrame α) → Prop} (idle : Idle r₀)
    (run : Runs r₀ ms r) (data : ∀ m ∈ ms, m.data)
    (first : ∀ f, [f] <+: arrivals ms → ∃ n, Stands f.seqNum n ∧
      P [f] ((Window.start n).arrive 64 (n, f)))
    (later : ∀ fs f W, fs ++ [f] <+: arrivals ms → W.Ok 64 → P fs W →
      ∃ n, Stands f.seqNum n ∧ W.next ≤ n + 2048 ∧ n < W.next + 2048 ∧
        P (fs ++ [f]) (W.arrive 64 (n, f)))
    (timeout : ∀ fs W, Move.timeout false ∈ ms → W.Ok 64 → P fs W → P fs W.expire) :
    (arrivals ms = [] ∧ Idle r ∧ Untouched r₀ r) ∨ ∃ W, Follows r₀ r W ∧ P (arrivals ms) W := by
  induction run with
  | nil => exact Or.inl ⟨rfl, idle, rfl, rfl, rfl, rfl⟩
  | @snoc t u ms m _ hm ih =>
    have hin : ∀ m' ∈ ms, m' ∈ ms ++ [m] := fun m' => List.mem_append_left _
    have hpre : arrivals ms <+: arrivals (ms ++ [m]) := by
      rw [arrivals_append]
      exact List.prefix_append _ _
    have ih := ih (fun m' hm' => data m' (hin m' hm')) (fun f hf => first f (hf.trans hpre))
      (fun fs f W hf => later fs f W (hf.trans hpre)) (fun fs W ht => timeout fs W (hin _ ht))
    have hd := data m (List.mem_append_right _ List.mem_cons_self)
    rw [arrivals_append] at first later ⊢
    subst hm
    cases m with
    | frame f =>
      change _ ∨ ∃ W, Follows r₀ (t.recvFuncPosthandle f) W ∧ _
      rcases ih with ⟨he, hi, hu⟩ | ⟨W, hW, hP⟩
      · rw [he] at first ⊢
        obtain ⟨n, hn, hP⟩ := first f (List.prefix_refl _)
        exact Or.inr ⟨_, hi.frame hu hn, hP⟩
      · obtain ⟨n, hn, near, near', hP⟩ := later (arrivals ms) f W (List.prefix_refl _) hW.ok hP
        exact Or.inr ⟨_, hW.frame hn near near', hP⟩
    | timeout cannotRun =>
      obtain rfl : cannotRun = false := hd
      have hnil : arrivals [(Move.timeout false : Move α)] = [] := rfl
      rw [hnil, List.append_nil]
      rcases ih with ⟨he, hi, hu⟩ | ⟨W, hW, hP⟩
      · obtain ⟨hi', hu'⟩ := hi.timeout hu
        exact Or.inl ⟨he, hi', hu'⟩
      · have ht : Move.timeout false ∈ ms ++ [Move.timeout false] :=
          List.mem_append_right _ List.mem_cons_self
        exact Or.inr ⟨_, hW.timeout, timeout _ W ht hW.ok hP⟩
    | addBaRsp _ => exact hd.elim
    | delBa => exact hd.elim
    | bar _ => exact hd.elim
    | join => exact hd.elim
    | free => exact hd.elim

theorem runs_foldl (r : Receiver α) (ms : List (Move α)) :
    Runs r ms (ms.foldl Receiver.next r) := by
  induction ms generalizing r with
  | nil => exact .nil
  | cons m ms ih =>
    have hm : Runs r [m] (r.next m) := Run.single rfl
    exact hm.append (ih _)

/-- A new station which has agreed on reordering. -/
def agreed : Receiver α := rtwAllocStainfo.addBaRspHdl 0

theorem agreed_idle : Idle (agreed : Receiver α) := ⟨rfl, rfl, rfl, rfl, nofun⟩

/-- The frame with number `n`, which is also its body. -/
def sent (n : ℕ) : RecvFrame ℕ := ⟨BitVec.ofNat 16 (n % 4096 * 16), n⟩

/-- How far a frame is above the start of the window, on the ring. -/
def ahead (r : Receiver α) (f : RecvFrame α) : ℕ := ((f.seqNum - r.indicateSeq) &&& 0xFFF).toNat

theorem ahead_eq (h : Follows r₀ r W) {q : ℕ × RecvFrame α} (hq : q ∈ W.held) :
    ahead r q.2 = q.1 - W.next := by
  have hs := h.start
  have hn := h.numbers q hq
  have ha := h.ok.above q hq
  have hw := h.ok.within q hq
  have hlt := hn.lt
  have hlt' := hs.lt
  have hm : (0xFFF : BitVec 16).toNat = 2 ^ 12 - 1 := rfl
  rw [Stands] at hs hn
  rw [ahead, BitVec.toNat_and, hm, Nat.and_two_pow_sub_one_eq_mod, BitVec.toNat_sub]
  omega

/-- Frames with increasing distances below the size of the window are fewer than that. -/
theorem length_lt_of_sorted {l : List ℕ} {m : ℕ} (hs : l.Pairwise (· < ·)) (hm : 0 < m)
    (hl : ∀ d ∈ l, 0 < d ∧ d < m) : l.length < m := by
  have hn : l.Nodup := hs.imp fun h => Nat.ne_of_lt h
  have hsub : l ⊆ List.range' 1 (m - 1) := fun d hd => by
    have := hl d hd
    rw [List.mem_range'_1]
    omega
  have := (hn.subperm hsub).length_le
  rw [List.length_range'] at this
  omega

/-- On the 12-bit ring every frame stands for a number near the window. -/
theorem exists_number (hw : 4096 ≤ w) (f : RecvFrame α) :
    ∃ n, Stands f.seqNum n ∧ w ≤ n + 2048 ∧ n < w + 2048 := by
  have hlt := seqNum_lt f
  refine ⟨if (f.seqNum.toNat + 4096 - w % 4096) % 4096 < 2048
    then w + (f.seqNum.toNat + 4096 - w % 4096) % 4096
    else w + (f.seqNum.toNat + 4096 - w % 4096) % 4096 - 4096, ?_⟩
  rw [Stands]
  split_ifs <;> omega

/-- In every run of the data path from an agreement without held frames, the frames held
lie inside the window above its start, in their order and no number twice, fewer than the
window's size, and the timer runs. -/
theorem held_in_window (idle : Idle r₀) (run : Runs r₀ ms r) (data : ∀ m ∈ ms, m.data) :
    (r.pending.map (ahead r)).Pairwise (· < ·) ∧
      (∀ f ∈ r.pending, 0 < ahead r f ∧ ahead r f < 64) ∧
      r.pending.length < 64 ∧
      (r.pending ≠ [] → r.reorderingCtrlTimer = true) := by
  have h := follows_run (P := fun _ W => 4096 ≤ W.next) idle run data
    (fun f _ => ⟨f.seqNum.toNat + 4096, by
      have := seqNum_lt f
      rw [Stands]
      omega, Nat.le_trans (by simp only [Window.start]; omega) le_arrive_next⟩)
    (fun fs f W _ ok hW => by
      obtain ⟨n, hn, near, near'⟩ := exists_number hW f
      exact ⟨n, hn, near, near', Nat.le_trans hW le_arrive_next⟩)
    (fun fs W _ ok hW => Nat.le_trans hW ok.le_expire_next)
  rcases h with ⟨-, hi, -⟩ | ⟨W, hW, -⟩
  · rw [hi.pending]
    exact ⟨.nil, fun _ hf => absurd hf List.not_mem_nil, Nat.zero_lt_succ _, fun h => absurd rfl h⟩
  · have hmap : r.pending.map (ahead r) = W.held.map fun q => q.1 - W.next := by
      rw [hW.pending, frames, List.map_map]
      exact List.map_congr_left fun q hq => ahead_eq hW hq
    have hsorted : (r.pending.map (ahead r)).Pairwise (· < ·) := by
      rw [hmap, List.pairwise_map]
      refine hW.ok.sorted.imp_of_mem fun {p q} hp _ hpq => ?_
      have := hW.ok.above p hp
      omega
    have hbounds : ∀ f ∈ r.pending, 0 < ahead r f ∧ ahead r f < 64 := by
      rw [hW.pending]
      intro f hf
      obtain ⟨q, hq, rfl⟩ := List.mem_map.mp hf
      rw [ahead_eq hW hq]
      have := hW.ok.above q hq
      have := hW.ok.within q hq
      omega
    refine ⟨hsorted, hbounds, ?_, hW.armed⟩
    rw [← List.length_map (ahead r)]
    refine length_lt_of_sorted hsorted (by decide) fun d hd => ?_
    obtain ⟨f, hf, rfl⟩ := List.mem_map.mp hd
    exact hbounds f hf

/-- Frames 4094 and 4096: the second is held, one above the start of the window. -/
theorem held_in_window_wrapped :
    let r := [Move.frame (sent 4094), .frame (sent 4096)].foldl Receiver.next agreed
    r.pending.map (ahead r) = [1] ∧ r.pending.length < 64 ∧ r.reorderingCtrlTimer = true := by
  intro r
  obtain ⟨-, -, hl, ht⟩ := held_in_window agreed_idle (runs_foldl agreed
    [.frame (sent 4094), .frame (sent 4096)]) (by decide)
  exact ⟨by decide, hl, ht (by decide)⟩

/-- Every frame arrives less than half a turn behind each of the frames before it, and ahead
of one of them by less than half a turn without the window. -/
def Near (number : RecvFrame α → ℕ) (fs : List (RecvFrame α)) : Prop :=
  ∀ pre f post, fs = pre ++ f :: post → (∀ g ∈ pre, number g < number f + 2048) ∧
    (pre ≠ [] → ∃ g ∈ pre, number f < number g + 1985)

theorem Near.of_prefix {pre fs : List (RecvFrame α)} (h : Near number fs) (hp : pre ++ [f] <+: fs) :
    (∀ g ∈ pre, number g < number f + 2048) ∧
      (pre ≠ [] → ∃ g ∈ pre, number f < number g + 1985) := by
  obtain ⟨post, rfl⟩ := hp
  exact h pre f post (by simp)

/-- The last of a list split at an element. -/
theorem split_snoc {β : Type*} {l pre post : List β} {x y : β} (h : l ++ [y] = pre ++ x :: post) :
    (pre = l ∧ x = y) ∨ ∃ post', l = pre ++ x :: post' := by
  rcases List.eq_nil_or_concat post with rfl | ⟨post', z, rfl⟩
  · obtain ⟨h₁, h₂⟩ := List.append_inj' h rfl
    exact Or.inl ⟨h₁.symm, (List.singleton_inj.mp h₂).symm⟩
  · have h' : l ++ [y] = (pre ++ x :: post') ++ [z] := by simpa using h
    exact Or.inr ⟨post', (List.append_inj' h' rfl).1⟩

theorem Near.snoc {fs : List (RecvFrame α)} (h : Near number fs)
    (hn : ∀ g ∈ fs, number g < number f + 2048) (hn' : ∃ g ∈ fs, number f < number g + 1985) :
    Near number (fs ++ [f]) := fun pre g post hs => by
  rcases split_snoc hs with ⟨rfl, rfl⟩ | ⟨post', rfl⟩
  · exact ⟨hn, fun _ => hn'⟩
  · exact h pre g post' rfl

theorem near_singleton (f : RecvFrame α) : Near number [f] := fun pre g post hs => by
  rcases split_snoc (l := []) hs with ⟨rfl, -⟩ | ⟨post', h⟩
  · exact ⟨nofun, fun h => absurd rfl h⟩
  · simp at h

/-- The frames that arrived, under the numbers of the peer. -/
def numbered (number : RecvFrame α → ℕ) (fs : List (RecvFrame α)) : List (ℕ × RecvFrame α) :=
  fs.map fun f => (number f, f)

/-- What the runs of the data path keep under the numbers of the peer. -/
structure Session (number : RecvFrame α → ℕ) (fs : List (RecvFrame α)) (W : Window (RecvFrame α)) :
    Prop where
  spans : W.Spans 64 (numbered number fs)
  first : ∃ f, fs.head? = some f ∧ W.From (number f) ∧ W.Balanced (number f)

theorem Session.number_eq (h : Session number (arrivals ms) W) {q : ℕ × RecvFrame α}
    (hq : q ∈ W.held ∨ q ∈ W.out) : number q.2 = q.1 ∧ q.2 ∈ arrivals ms := by
  obtain ⟨f, hf, rfl⟩ := List.mem_map.mp (h.spans.items q hq)
  exact ⟨rfl, hf⟩

theorem start_balanced (n : ℕ) : (Window.start n : Window (RecvFrame α)).Balanced n := fun _ => rfl

theorem session_run (idle : Idle r₀) (run : Runs r₀ ms r) (data : ∀ m ∈ ms, m.data)
    (shown : ∀ f ∈ arrivals ms, Stands f.seqNum (number f)) (near : Near number (arrivals ms)) :
    (arrivals ms = [] ∧ Idle r ∧ Untouched r₀ r) ∨
      ∃ W, Follows r₀ r W ∧ Session number (arrivals ms) W := by
  refine follows_run idle run data (fun f hf => ?_) (fun fs f W hf ok hs => ?_)
    fun fs W _ ok hs => ?_
  · have hm : f ∈ arrivals ms := hf.subset List.mem_cons_self
    exact ⟨number f, shown f hm, start_spans (by omega), f, rfl,
      (start_from _).arrive (start_ok _), (@start_ok _ 64 _).arrive_balanced (start_balanced _)⟩
  · have hm : f ∈ arrivals ms := hf.subset (List.mem_append_right _ List.mem_cons_self)
    obtain ⟨hn, hn'⟩ := near.of_prefix hf
    obtain ⟨f₀, hf₀, hfrom, hbal⟩ := hs.first
    have hne : fs ≠ [] := fun he => by simp [he] at hf₀
    refine ⟨number f, shown f hm, ?_, ?_, ?_, f₀, ?_, hfrom.arrive ok, ok.arrive_balanced hbal⟩
    · obtain ⟨q, hq, hle⟩ := hs.spans.reached
      obtain ⟨g, hg, rfl⟩ := List.mem_map.mp hq
      have := hn g hg
      simp only at hle
      omega
    · obtain ⟨g, hg, hlt⟩ := hn' hne
      have := hs.spans.top _ (List.mem_map_of_mem hg)
      simp only at this
      omega
    · rw [numbered, List.map_append, List.map_singleton]
      exact hs.spans.arrive (by omega)
    · rw [List.head?_append_of_ne_nil fs hne, hf₀]
  · obtain ⟨f₀, hf₀, hfrom, hbal⟩ := hs.first
    exact ⟨hs.spans.expire ok, f₀, hf₀, hfrom.expire ok, ok.expire_balanced hbal⟩

theorem frames_number {l : List (ℕ × RecvFrame α)} (h : ∀ q ∈ l, number q.2 = q.1) :
    (frames l).map number = l.map Prod.fst := by
  rw [frames, List.map_map]
  exact List.map_congr_left h

/-- As long as the frames are near to each other, whatever their order of arrival and
whenever the timer fires, they are handed on in the order of the peer's numbers and no
number twice, and what is still held comes later. -/
theorem handed_on_in_order (idle : Idle r₀) (run : Runs r₀ ms r) (data : ∀ m ∈ ms, m.data)
    (shown : ∀ f ∈ arrivals ms, Stands f.seqNum (number f)) (near : Near number (arrivals ms)) :
    ∃ l, r.mpdus = r₀.mpdus ++ l ∧ ((l ++ r.pending).map number).Pairwise (· < ·) ∧
      l ++ r.pending ⊆ arrivals ms := by
  rcases session_run idle run data shown near with ⟨ha, hi, hu⟩ | ⟨W, hW, hs⟩
  · exact ⟨[], hu.mpdus.trans (List.append_nil _).symm, by rw [hi.pending]; exact .nil,
      by rw [hi.pending]; exact List.nil_subset _⟩
  · have hnum : ∀ q ∈ W.out ++ W.held, number q.2 = q.1 ∧ q.2 ∈ arrivals ms := fun q hq =>
      hs.number_eq (List.mem_append.mp hq).symm
    have hl : frames W.out ++ r.pending = frames (W.out ++ W.held) := by
      rw [hW.pending, frames, frames, frames, List.map_append]
    refine ⟨frames W.out, hW.mpdus, ?_, ?_⟩
    · rw [hl, frames_number fun q hq => (hnum q hq).1, List.pairwise_map]
      refine List.pairwise_append.mpr ⟨hW.ok.ordered, hW.ok.sorted, fun p hp q hq => ?_⟩
      exact Nat.lt_trans (hW.ok.below p hp) (hW.ok.above q hq)
    · rw [hl]
      intro f hf
      obtain ⟨q, hq, rfl⟩ := List.mem_map.mp hf
      exact (hnum q hq).2

/-- Across the wrap of the 12 bits: 4095 arrives after the timer has given it up. -/
def givenUp : List (Move ℕ) :=
  [.frame (sent 4094), .frame (sent 4096), .timeout false, .frame (sent 4095), .frame (sent 4097)]

theorem givenUp_near : Near RecvFrame.body (arrivals givenUp) :=
  (((near_singleton (sent 4094)).snoc (f := sent 4096) (by decide) (by decide)).snoc
    (f := sent 4095) (by decide) (by decide)).snoc (f := sent 4097) (by decide) (by decide)

theorem handed_on_in_order_given_up :
    ∃ l, (givenUp.foldl Receiver.next agreed).mpdus = [] ++ l ∧
      ((l ++ (givenUp.foldl Receiver.next agreed).pending).map RecvFrame.body).Pairwise (· < ·) ∧
      l ++ (givenUp.foldl Receiver.next agreed).pending ⊆ arrivals givenUp :=
  handed_on_in_order agreed_idle (runs_foldl agreed givenUp) (by decide) (by decide)
    givenUp_near

/-- A frame arrives after all the frames from `n` on which are a window or more before
it, and less than half a turn behind any frame before it. Copies may arrive as well. -/
def Displaced (number : RecvFrame α → ℕ) (n : ℕ) (fs : List (RecvFrame α)) : Prop :=
  ∀ pre f post, fs = pre ++ f :: post → n ≤ number f ∧ (∀ g ∈ pre, number g < number f + 2048) ∧
    ∀ k, n ≤ k → k + 64 ≤ number f → ∃ g ∈ pre, number g = k

/-- Frames `n` up to `m`, of which `n` is the first to arrive, none is displaced by a window
and no copy comes half a turn late, are all handed on, each once and in order, before the
timer has to fire. -/
theorem all_handed_on {f₀ : RecvFrame α} {fs : List (RecvFrame α)} {m : ℕ} (idle : Idle r₀)
    (run : Runs r₀ ms r) (only : ∀ m ∈ ms, ∃ f, m = .frame f) (ha : arrivals ms = f₀ :: fs)
    (shown : ∀ f ∈ arrivals ms, Stands f.seqNum (number f))
    (displaced : Displaced number (number f₀) (arrivals ms))
    (all : ∀ k, (∃ f ∈ arrivals ms, number f = k) ↔ number f₀ ≤ k ∧ k < m) :
    ∃ l, r.mpdus = r₀.mpdus ++ l ∧ l.map number = List.range' (number f₀) (m - number f₀) ∧
      r.pending = [] := by
  have data : ∀ m ∈ ms, m.data := fun m hm => by
    obtain ⟨f, rfl⟩ := only m hm
    trivial
  have h := follows_run idle run data
    (P := fun fs W => W.Spans 64 (numbered number fs) ∧ W.Gathered (number f₀) (fs.map number))
    (fun f hf => by
      obtain rfl : f = f₀ := (List.cons_prefix_cons.mp (ha ▸ hf)).1
      have hm : f ∈ arrivals ms := hf.subset List.mem_cons_self
      exact ⟨number f, shown f hm, start_spans (by omega),
        (start_gathered _).arrive (p := (number f, f)) (start_ok _) (Nat.le_refl _)
          fun k h₁ (h₂ : k + 64 ≤ number f) => by omega⟩)
    (fun fs f W hf ok ⟨hs, hg⟩ => by
      have hm : f ∈ arrivals ms := hf.subset (List.mem_append_right _ List.mem_cons_self)
      obtain ⟨post, hpost⟩ := hf
      obtain ⟨hle, hnear, hdone⟩ := displaced fs f post (by rw [← hpost]; simp)
      have hb : ∀ k, number f₀ ≤ k → k + 64 ≤ number f → k ∈ fs.map number := fun k h₁ h₂ => by
        obtain ⟨g, hg, rfl⟩ := hdone k h₁ h₂
        exact List.mem_map_of_mem hg
      have hend := hg.lt_end ok hb
      obtain ⟨q, hq, hreach⟩ := hs.reached
      obtain ⟨g, hgm, rfl⟩ := List.mem_map.mp hq
      have := hnear g hgm
      simp only at hreach
      refine ⟨number f, shown f hm, by omega, by omega, ?_, ?_⟩
      · rw [numbered, List.map_append, List.map_singleton]
        exact hs.arrive (by omega)
      · rw [List.map_append, List.map_singleton]
        exact hg.arrive (p := (number f, f)) ok hle hb)
    (fun fs W ht => by
      obtain ⟨f, hf⟩ := only _ ht
      cases hf)
  rcases h with ⟨he, -, -⟩ | ⟨W, hW, hs, hg⟩
  · rw [ha] at he
    exact absurd he (List.cons_ne_nil _ _)
  · have hle : number f₀ ≤ m :=
      Nat.le_of_lt ((all (number f₀)).mp ⟨f₀, ha ▸ List.mem_cons_self, rfl⟩).2
    obtain ⟨hout, hheld, -⟩ := hg.complete hW.ok hle fun k => by
      rw [List.mem_map]
      exact all k
    refine ⟨frames W.out, hW.mpdus, ?_, ?_⟩
    · rw [frames_number fun q hq => ?_, hout]
      obtain ⟨f, -, rfl⟩ := List.mem_map.mp (hs.items q (Or.inr hq))
      rfl
    · rw [hW.pending, hheld]
      rfl

theorem displaced_singleton (f : RecvFrame α) : Displaced number (number f) [f] := by
  intro pre g post hs
  rcases split_snoc (l := []) hs with ⟨rfl, rfl⟩ | ⟨post', h⟩
  · exact ⟨Nat.le_refl _, nofun, fun k h₁ h₂ => by omega⟩
  · simp at h

theorem Displaced.snoc {fs : List (RecvFrame α)} (h : Displaced number n fs) (hle : n ≤ number f)
    (hn : ∀ g ∈ fs, number g < number f + 2048)
    (hd : ∀ k, n ≤ k → k + 64 ≤ number f → ∃ g ∈ fs, number g = k) :
    Displaced number n (fs ++ [f]) := fun pre g post hs => by
  rcases split_snoc hs with ⟨rfl, rfl⟩ | ⟨post', rfl⟩
  · exact ⟨hle, hn, hd⟩
  · exact h pre g post' rfl

/-- Four frames of which two are swapped, across the wrap of the 12 bits. -/
theorem all_handed_on_swapped :
    let ms := [Move.frame (sent 4094), .frame (sent 4096), .frame (sent 4095), .frame (sent 4097)]
    let r := ms.foldl Receiver.next agreed
    ∃ l, r.mpdus = [] ++ l ∧ l.map RecvFrame.body = List.range' 4094 (4098 - 4094) ∧
      r.pending = [] := by
  intro ms r
  have hd : Displaced RecvFrame.body 4094 (arrivals ms) :=
    (((displaced_singleton (sent 4094)).snoc (f := sent 4096) (by decide) (by decide)
      fun k (h₁ : 4094 ≤ k) (h₂ : k + 64 ≤ 4096) => by omega).snoc (f := sent 4095)
        (by decide) (by decide)
      fun k (h₁ : 4094 ≤ k) (h₂ : k + 64 ≤ 4095) => by omega).snoc (f := sent 4097)
        (by decide) (by decide)
      fun k (h₁ : 4094 ≤ k) (h₂ : k + 64 ≤ 4097) => by omega
  refine all_handed_on (m := 4098) agreed_idle (runs_foldl agreed ms) (by simp [ms])
    (rfl : arrivals ms = sent 4094 :: (arrivals ms).tail) (by decide) hd fun k => ?_
  change (∃ f ∈ [sent 4094, sent 4096, sent 4095, sent 4097], f.body = k) ↔ 4094 ≤ k ∧ k < 4098
  simp only [List.mem_cons, List.not_mem_nil, or_false, exists_eq_or_imp, exists_eq_left, sent]
  omega

/-- The frames handed on, given back and held. -/
def accounted (r : Receiver α) : List (RecvFrame α) := r.mpdus ++ r.freed ++ r.pending

theorem enqueue_perm {l l' : List (RecvFrame α)} (h : enqueueReorderRecvframe f l = some l') :
    l'.Perm (f :: l) := by
  induction l generalizing l' with
  | nil =>
    obtain rfl := Option.some.inj h
    exact .refl _
  | cons g l ih =>
    unfold enqueueReorderRecvframe at h
    split_ifs at h
    · obtain ⟨k, hk, rfl⟩ := Option.map_eq_some_iff.mp h
      exact ((ih hk).cons g).trans (.swap f g l)
    · obtain rfl := Option.some.inj h
      exact .refl _

theorem indicateLoop_append (a : BitVec 16) (l : List (RecvFrame α)) :
    (indicateLoop a l).mpdus ++ (indicateLoop a l).pending = l := by
  induction l generalizing a with
  | nil => rfl
  | cons g l ih =>
    unfold indicateLoop
    split_ifs
    · exact congrArg (g :: ·) (ih _)
    · exact congrArg (g :: ·) (ih _)
    · rfl

theorem accounted_indicate (r : Receiver α) : (accounted r.indicate.1).Perm (accounted r) := by
  have hl := indicateLoop_append r.indicateSeq r.pending
  simp only [accounted, indicate]
  conv_rhs => rw [← hl]
  rw [← List.append_assoc]
  refine List.Perm.append_right _ ?_
  rw [List.append_assoc, List.append_assoc]
  exact List.perm_append_comm.append_left _

theorem accounted_inOrder (r : Receiver α) (bforced : Bool) :
    (accounted (r.recvIndicatepktsInOrder bforced).1).Perm (accounted r) := by
  unfold recvIndicatepktsInOrder
  split_ifs
  · cases hp : r.pending with
    | nil => simp only [accounted, hp]; exact .refl _
    | cons f l =>
      simp only [recvIndicatepktsPktLossCnt]
      refine (accounted_indicate _).trans ?_
      simp only [accounted, hp]
      exact .refl _
  · exact accounted_indicate r

theorem check_keeps (r : Receiver α) (a : BitVec 16) :
    (r.checkIndicateSeq a).1.mpdus = r.mpdus ∧ (r.checkIndicateSeq a).1.freed = r.freed ∧
      (r.checkIndicateSeq a).1.pending = r.pending := by
  simp only [checkIndicateSeq]
  split_ifs <;> exact ⟨rfl, rfl, rfl⟩

theorem accounted_frame (r : Receiver α) (f : RecvFrame α) :
    (accounted (r.recvFuncPosthandle f)).Perm (accounted r ++ [f]) := by
  have hfree : ∀ t : Receiver α,
    (accounted { t with freed := t.freed ++ [f] }).Perm (accounted t ++ [f]) :=
    fun t => by
      simp only [accounted, List.append_assoc]
      exact (List.perm_append_comm.append_left _).append_left _
  obtain ⟨hm, hf, hp⟩ := check_keeps r f.seqNum
  unfold recvFuncPosthandle recvIndicatepktReorder
  by_cases he : r.enable = true
  · simp only [he, Bool.not_true, Bool.false_eq_true, if_false]
    rcases hc : r.checkIndicateSeq f.seqNum with ⟨t, b⟩
    rw [hc] at hm hf hp
    have ht : accounted t = accounted r := by rw [accounted, hm, hf, hp]; rfl
    cases b with
    | false =>
      rw [← ht]
      exact hfree _
    | true =>
      cases hq : enqueueReorderRecvframe f t.pending with
      | none =>
        simp only [hq]
        rw [← ht]
        exact hfree t
      | some l =>
        have hi := accounted_inOrder { t with pending := l } false
        have hl : (accounted { t with pending := l }).Perm (accounted r ++ [f]) := by
          rw [← ht]
          simp only [accounted, List.append_assoc]
          refine List.Perm.append_left _ (List.Perm.append_left _ ?_)
          exact (enqueue_perm hq).trans (List.perm_append_singleton f _).symm
        rcases hr : { t with pending := l }.recvIndicatepktsInOrder false with ⟨s, b⟩
        rw [hr] at hi
        simp only [hq, hr]
        cases b
        · exact hi.trans hl
        · by_cases hw : s.bReorderWaiting = true
          · simp only [hw, if_true]
            exact hi.trans hl
          · simp only [hw, Bool.false_eq_true, if_false]
            exact hi.trans hl
  · simp only [he, Bool.not_false, if_true, accounted, List.append_assoc]
    refine List.Perm.append_left _ ?_
    rw [← List.append_assoc r.freed]
    exact List.perm_append_comm

theorem accounted_next (r : Receiver α) (m : Move α) :
    (accounted (r.next m)).Perm (accounted r ++ arrivals [m]) := by
  have hnil : ∀ {l : List (RecvFrame α)}, l.Perm (accounted r) → l.Perm (accounted r ++ []) :=
    fun h => by rwa [List.append_nil]
  cases m with
  | frame f => exact accounted_frame r f
  | timeout cannotRun =>
    refine hnil ?_
    cases cannotRun with
    | true => exact .refl _
    | false =>
      have hi := accounted_inOrder
        { r with reorderingCtrlTimer := false, bReorderWaiting := false } true
      rcases hr : Receiver.recvIndicatepktsInOrder
        { r with reorderingCtrlTimer := false, bReorderWaiting := false } true with ⟨s, b⟩
      rw [hr] at hi
      simp only [Receiver.next, rtwReorderingCtrlTimeoutHandler, Bool.false_eq_true, if_false, hr]
      cases b <;> exact hi
  | addBaRsp status =>
    refine hnil ?_
    simp only [Receiver.next, addBaRspHdl]
    split_ifs <;> exact .refl _
  | delBa => exact hnil (.refl _)
  | bar startingSeqctrl => exact hnil (.refl _)
  | join => exact hnil (.refl _)
  | free =>
    refine hnil ?_
    simp only [Receiver.next, rtwFreeStainfo, accounted, List.append_nil, List.append_assoc]
    exact .refl _

/-- Frame 3 is held when the block ack is negotiated anew, and freed with the station. -/
def renegotiated : List (Move ℕ) :=
  [.frame (sent 1), .frame (sent 3), .addBaRsp 0, .frame (sent 1), .bar 0x50, .delBa,
    .frame (sent 9),
    .timeout true, .free, .join]

end Okm6ullOta.RxOrder
