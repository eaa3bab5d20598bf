import Okm6ullOta.RxReorder

/-!
# The reordering of received frames as a window

Under unbounded numbers whose low 12 bits the frames carry, the controller does
what the window of `ReorderWindows` does, as long as no frame is half a turn away.
-/
namespace Okm6ullOta.RxWindow
open SequenceRings ReorderWindows ReorderWindows.Window LabelledRuns RxReorder RxReorder.Receiver

variable {α : Type*} {r₀ r : Receiver α} {W : Window (RecvFrame α)} {f : RecvFrame α} {u v w n : ℕ}
  {a b : BitVec 16}

theorem seqNum_lt (f : RecvFrame α) : f.seqNum.toNat < 4096 := by
  rw [RecvFrame.seqNum, BitVec.toNat_ushiftRight, Nat.shiftRight_eq_div_pow]
  have := f.seqCtrl.isLt
  omega

/-- A 12-bit number which stands for `u`. -/
def Stands (a : BitVec 16) (u : ℕ) : Prop := a.toNat = u % 4096

instance : Decidable (Stands a u) := inferInstanceAs (Decidable (_ = _))

theorem Stands.shows (h : Stands a u) : Shows 11 (a.setWidth 32) u := by
  have := a.isLt
  rw [Stands] at h
  rw [Shows, BitVec.toNat_setWidth, Nat.mod_eq_of_lt (by omega), h]
  exact Nat.mod_modEq u 4096

theorem Stands.lt (h : Stands a u) : a.toNat < 4096 := by
  rw [Stands] at h; omega

theorem snLess_iff (ha : Stands a u) (hb : Stands b v) (near : u < v + 2048)
    (near' : v ≤ u + 2048) :
    snLess a b ↔ u < v := by
  have h := behind_iff (k := 11) (by omega) ha.shows hb.shows near near'
  exact h

theorem snEqual_iff (ha : Stands a u) (hb : Stands b v) (near : u < v + 4096)
    (near' : v < u + 4096) :
    a = b ↔ u = v := by
  rw [Stands] at ha hb
  rw [← BitVec.toNat_inj]
  omega

theorem stands_succ (ha : Stands a u) : Stands ((a + 1) &&& 0xFFF) (u + 1) := by
  rw [Stands] at ha ⊢
  have hm : (a + 1).toNat &&& 0xFFF = (a + 1).toNat % 4096 :=
    Nat.and_two_pow_sub_one_eq_mod _ 12
  rw [BitVec.toNat_and]
  change (a + 1).toNat &&& 0xFFF = _
  rw [hm, BitVec.toNat_add]
  have h1 : (1 : BitVec 16).toNat = 1 := rfl
  rw [h1]
  omega

/-- The items of a window as the queue holds them. -/
def frames (l : List (ℕ × RecvFrame α)) : List (RecvFrame α) := l.map Prod.snd

def Numbers (l : List (ℕ × RecvFrame α)) : Prop := ∀ q ∈ l, Stands q.2.seqNum q.1

theorem enqueue_eq {l : List (ℕ × RecvFrame α)} (hl : Numbers l) (hf : Stands f.seqNum n)
    (near : ∀ q ∈ l, q.1 < n + 2048 ∧ n ≤ q.1 + 2048) :
    enqueueReorderRecvframe f (frames l) = (place (n, f) l).map frames := by
  induction l with
  | nil => rfl
  | cons q l ih =>
    obtain ⟨hq, hl⟩ := List.forall_mem_cons.mp hl
    obtain ⟨hn, near⟩ := List.forall_mem_cons.mp near
    have hless := snLess_iff hq hf hn.1 hn.2
    have heq := snEqual_iff hq hf (by omega) (by omega)
    simp only [frames, List.map_cons, enqueueReorderRecvframe, place, hless, heq] at ih ⊢
    rw [ih hl near]
    split_ifs
    · rw [Option.map_map, Option.map_map]; rfl
    · rfl
    · rfl

theorem indicateLoop_eq {l : List (ℕ × RecvFrame α)} (hl : Numbers l) (hs : Sorted l)
    (ha : Stands a w)
    (near : ∀ q ∈ l, w < q.1 + 2048 ∧ q.1 ≤ w + 2048) :
    Stands (indicateLoop a (frames l)).indicateSeq (release w l).next ∧
      (indicateLoop a (frames l)).mpdus = frames (release w l).out ∧
      (indicateLoop a (frames l)).pending = frames (release w l).held := by
  induction l generalizing a w with
  | nil => exact ⟨ha, rfl, rfl⟩
  | cons q l ih =>
    obtain ⟨hq, hl⟩ := List.forall_mem_cons.mp hl
    obtain ⟨hn, near⟩ := List.forall_mem_cons.mp near
    obtain ⟨hqs, hs⟩ := List.pairwise_cons.mp hs
    have hless := snLess_iff ha hq hn.1 hn.2
    have heq := snEqual_iff ha hq (by omega) (by omega)
    by_cases hw : w < q.1
    · have hn : indicateLoop a (frames (q :: l)) = ⟨a, [], frames (q :: l)⟩ := by
        simp only [frames, List.map_cons, indicateLoop, hless.mpr hw, Bool.not_true,
          Bool.false_eq_true, if_false]
      rw [hn, release_above hw]
      exact ⟨ha, rfl, rfl⟩
    · have hnl : snLess a q.2.seqNum = false := by
        rwa [Bool.eq_false_iff, Ne, hless]
      have ha' : Stands (if a = q.2.seqNum then (a + 1) &&& 0xFFF else a)
          (if w = q.1 then w + 1 else w) := by
        by_cases he : w = q.1
        · rw [if_pos he, if_pos (heq.mpr he)]
          exact stands_succ ha
        · rw [if_neg he, if_neg (fun h => he (heq.mp h))]
          exact ha
      obtain ⟨h₁, h₂, h₃⟩ := ih hl hs ha' fun p hp => by
        have := hqs p hp
        have := near p hp
        split_ifs <;> omega
      rw [release_reached hw]
      simp only [frames, List.map_cons, indicateLoop, hnl, Bool.not_false, if_true] at h₁ h₂ h₃ ⊢
      exact ⟨h₁, congrArg (q.2 :: ·) h₂, h₃⟩

theorem stands_ne (h : Stands a u) : a ≠ 0xFFFF := by
  intro he
  have := h.lt
  rw [he] at this
  exact absurd this (by decide)

theorem stands_wend (hz : r.wsizeB = 64) (hi : Stands r.indicateSeq w) :
    Stands r.wend (w + 63) := by
  have hm : ∀ x : BitVec 32, (x &&& 0xFFF).toNat = x.toNat % 4096 := fun x =>
    (BitVec.toNat_and ..).trans (Nat.and_two_pow_sub_one_eq_mod x.toNat 12)
  have hlt := hi.lt
  have h64 : (64 : BitVec 8).toNat = 64 := rfl
  have h1 : (1 : BitVec 32).toNat = 1 := rfl
  rw [Stands] at hi ⊢
  rw [wend, hz, BitVec.toNat_setWidth, hm]
  simp only [BitVec.toNat_sub, BitVec.toNat_add, BitVec.toNat_setWidth, h64, h1]
  omega

theorem stands_shifted (hz : r.wsizeB = 64) (hf : Stands a n) (hn : 64 ≤ n) :
    Stands (r.shifted a) (n + 1 - 64) := by
  have hlt := hf.lt
  have h64 : (64 : BitVec 8).toNat = 64 := rfl
  have h1 : (1 : BitVec 32).toNat = 1 := rfl
  have hF : (0xFFF : BitVec 32).toNat = 4095 := rfl
  rw [Stands] at hf ⊢
  rw [shifted, hz, h64]
  split_ifs with h
  · simp only [BitVec.toNat_setWidth, BitVec.toNat_sub, BitVec.toNat_add, h64, h1]
    omega
  · simp only [BitVec.toNat_setWidth, BitVec.toNat_sub, BitVec.toNat_add, h64, h1, hF]
    omega

theorem check_below (hi : Stands r.indicateSeq W.next) (hf : Stands a n)
    (near : W.next ≤ n + 2048) (hn : n < W.next) : r.checkIndicateSeq a = (r, false) := by
  have hless := (snLess_iff hf hi (by omega) near).mpr hn
  simp only [checkIndicateSeq, stands_ne hi, if_false, hless, if_true]

theorem check_above (hz : r.wsizeB = 64) (hi : Stands r.indicateSeq W.next) (hf : Stands a n)
    (near : n < W.next + 2048) (hn : W.next ≤ n) :
    ∃ i, Stands i (W.advance 64 n).next ∧
      r.checkIndicateSeq a = ({ r with
        indicateSeq := i
        ampduWindowShiftCnt := r.ampduWindowShiftCnt +
          BitVec.ofNat 64 ((W.advance 64 n).shifts - W.shifts) }, true) := by
  have hless : snLess a r.indicateSeq = false := by
    rw [Bool.eq_false_iff, Ne, snLess_iff hf hi near (by omega)]
    omega
  have heq := snEqual_iff hf hi (by omega) (by omega)
  have hend := snLess_iff (stands_wend hz hi) hf (by omega) (by omega)
  simp only [checkIndicateSeq, stands_ne hi, if_false, hless, Bool.false_eq_true, heq, hend]
  unfold advance
  split_ifs with h₁ h₂ h₃ h₄
  · exact ⟨_, stands_succ hi, by simp⟩
  · exact ⟨_, stands_shifted hz hf (by omega), by simp⟩
  · omega
  · omega
  · exact ⟨_, hi, by simp⟩

/-- The first frame after a reset of the start sets it. -/
theorem check_first (hi : r.indicateSeq = 0xFFFF) (f : RecvFrame α) :
    r.checkIndicateSeq f.seqNum = { r with indicateSeq := f.seqNum }.checkIndicateSeq f.seqNum := by
  have hs : Stands f.seqNum f.seqNum.toNat := (Nat.mod_eq_of_lt (seqNum_lt f)).symm
  have hless : snLess f.seqNum f.seqNum = false := by
    rw [Bool.eq_false_iff, Ne, snLess_iff hs hs (by omega) (by omega)]
    omega
  simp only [checkIndicateSeq, hi, if_true, stands_ne hs, if_false, hless, Bool.false_eq_true]

/-- The controller does as the window does; what it hands on comes after what it had
handed on at `r₀`. Frames which are held have the timer running. -/
structure Follows (r₀ r : Receiver α) (W : Window (RecvFrame α)) : Prop where
  enable : r.enable = true
  wsize : r.wsizeB = 64
  start : Stands r.indicateSeq W.next
  pending : r.pending = frames W.held
  numbers : Numbers W.held
  mpdus : r.mpdus = r₀.mpdus ++ frames W.out
  lossCount : r.ampduLossCount = r₀.ampduLossCount + BitVec.ofNat 64 W.lost
  rxDrop : r.rxDrop = r₀.rxDrop + BitVec.ofNat 64 W.lost
  shifts : r.ampduWindowShiftCnt = r₀.ampduWindowShiftCnt + BitVec.ofNat 64 W.shifts
  armed : r.pending ≠ [] → r.reorderingCtrlTimer = true
  waiting : r.bReorderWaiting = true → r.reorderingCtrlTimer = true
  ok : W.Ok 64

/-- The loop over a queue whose items are less than half a turn away. -/
theorem indicate_eq {l : List (ℕ × RecvFrame α)} (hp : r.pending = frames l) (hl : Numbers l)
    (hs : Sorted l) (hi : Stands r.indicateSeq w)
    (near : ∀ q ∈ l, w < q.1 + 2048 ∧ q.1 ≤ w + 2048) :
    ∃ i, Stands i (release w l).next ∧
      r.indicate = ({ r with
        indicateSeq := i
        pending := frames (release w l).held
        mpdus := r.mpdus ++ frames (release w l).out }, !(frames (release w l).held).isEmpty) := by
  obtain ⟨h₁, h₂, h₃⟩ := indicateLoop_eq hl hs hi near
  refine ⟨_, h₁, ?_⟩
  simp only [indicate, hp, h₂, h₃]

theorem numbers_release {l : List (ℕ × RecvFrame α)} (hl : Numbers l) :
    Numbers (release w l).held :=
  fun q hq => hl q (release_append w l ▸ List.mem_append_right _ hq)

theorem Follows.frame (h : Follows r₀ r W) (hf : Stands f.seqNum n) (near : W.next ≤ n + 2048)
    (near' : n < W.next + 2048) : Follows r₀ (r.recvFuncPosthandle f) (W.arrive 64 (n, f)) := by
  unfold recvFuncPosthandle recvIndicatepktReorder arrive
  simp only [h.enable, Bool.not_true, Bool.false_eq_true, if_false]
  by_cases hn : n < W.next
  · simp only [check_below h.start hf near hn, hn, if_true]
    exact ⟨h.enable, h.wsize, h.start, h.pending, h.numbers, h.mpdus, h.lossCount,
      h.rxDrop, h.shifts,
      h.armed, h.waiting, h.ok⟩
  · obtain ⟨i, hi, hc⟩ := check_above h.wsize h.start hf near' (Nat.le_of_not_lt hn)
    have hq : enqueueReorderRecvframe f r.pending = (place (n, f) W.held).map frames := by
      rw [h.pending]
      refine enqueue_eq h.numbers hf fun q hq => ?_
      have := h.ok.above q hq
      have := h.ok.within q hq
      omega
    simp only [hc, hn, if_false, hq]
    cases hl : place (n, f) W.held with
    | none =>
      simp only [Option.map_none]
      rw [h.ok.advance_held_eq (place_none hl)] at hi ⊢
      exact ⟨h.enable, h.wsize, hi, h.pending, h.numbers, h.mpdus, h.lossCount, h.rxDrop,
        by simpa using h.shifts, h.armed, h.waiting, h.ok⟩
    | some l =>
      have hm : ∀ q ∈ l, q = (n, f) ∨ q ∈ W.held := fun q hq =>
        List.mem_cons.mp ((place_perm hl).subset hq)
      have hnum : Numbers l := fun q hq => by
        rcases hm q hq with rfl | hq
        · exact hf
        · exact h.numbers q hq
      have hle : W.next ≤ (W.advance 64 n).next := le_advance
      have hup : (W.advance 64 n).next ≤ n + 1 := by
        rw [advance_next]; split_ifs <;> omega
      have hlt : n < (W.advance 64 n).next + 64 := lt_advance (by omega)
      have hok : ((W.advance 64 n).drain (W.advance 64 n).next l).Ok 64 := by
        have ha : (W.arrive 64 (n, f)).Ok 64 := arrive_ok (by omega) h.ok
        unfold arrive at ha
        simpa only [hn, if_false, hl] using ha
      obtain ⟨j, hj, hd⟩ := indicate_eq
        (r := { r with
          indicateSeq := i
          pending := frames l
          ampduWindowShiftCnt := r.ampduWindowShiftCnt +
            BitVec.ofNat 64 ((W.advance 64 n).shifts - W.shifts) })
        rfl hnum (place_sorted h.ok.sorted hl) hi fun q hq => by
          rcases hm q hq with rfl | hq
          · simp only; omega
          · have := h.ok.above q hq
            have := h.ok.within q hq
            omega
      have hsh : r.ampduWindowShiftCnt + BitVec.ofNat 64 ((W.advance 64 n).shifts - W.shifts) =
          r₀.ampduWindowShiftCnt + BitVec.ofNat 64 (W.advance 64 n).shifts := by
        have hs : W.shifts ≤ (W.advance 64 n).shifts := advance_shifts_le
        rw [h.shifts, BitVec.add_assoc, ← BitVec.ofNat_add, Nat.add_sub_cancel' hs]
      have hlost : (W.advance 64 n).lost = W.lost := advance_lost
      have hout : (W.advance 64 n).out = W.out := advance_out
      have hmp : r.mpdus ++ frames (release (W.advance 64 n).next l).out =
          r₀.mpdus ++ frames ((W.advance 64 n).out ++ (release (W.advance 64 n).next l).out) := by
        rw [h.mpdus, hout, frames, frames, frames, List.map_append, List.append_assoc]
      simp only [Option.map_some, recvIndicatepktsInOrder, Bool.false_eq_true, if_false, hd]
      cases he : (frames (release (W.advance 64 n).next l).held).isEmpty
      · by_cases hw : r.bReorderWaiting = true
        · simp only [Bool.not_false, hw, if_true]
          exact ⟨h.enable, h.wsize, hj, rfl, numbers_release hnum, hmp, hlost ▸ h.lossCount,
            hlost ▸ h.rxDrop, hsh, fun _ => h.waiting hw, fun _ => h.waiting hw, hok⟩
        · simp only [Bool.not_false, hw, Bool.false_eq_true, if_false]
          exact ⟨h.enable, h.wsize, hj, rfl, numbers_release hnum, hmp, hlost ▸ h.lossCount,
            hlost ▸ h.rxDrop, hsh, fun _ => rfl, fun _ => rfl, hok⟩
      · simp only [Bool.not_true]
        exact ⟨h.enable, h.wsize, hj, rfl, numbers_release hnum, hmp, hlost ▸ h.lossCount,
          hlost ▸ h.rxDrop, hsh, fun hne => absurd (List.isEmpty_iff.mp he) hne, nofun, hok⟩

/-- The distance the handler counts is that of the numbers. -/
theorem loss_distance (ha : Stands a u) (hb : Stands b v) (huv : u ≤ v) (hvu : v < u + 4096) :
    (if b.setWidth 64 < a.setWidth 64 then 4096 + b.setWidth 64 - a.setWidth 64
      else b.setWidth 64 - a.setWidth 64) = BitVec.ofNat 64 (v - u) := by
  have hla := ha.lt
  have hlb := hb.lt
  have h4 : (4096 : BitVec 64).toNat = 4096 := rfl
  rw [Stands] at ha hb
  simp only [BitVec.lt_def, BitVec.toNat_setWidth]
  apply BitVec.eq_of_toNat_eq
  split_ifs with h
  · simp only [BitVec.toNat_sub, BitVec.toNat_add, BitVec.toNat_setWidth, BitVec.toNat_ofNat, h4]
    omega
  · simp only [BitVec.toNat_sub, BitVec.toNat_setWidth, BitVec.toNat_ofNat]
    omega

theorem Follows.timeout (h : Follows r₀ r W) :
    Follows r₀ (r.rtwReorderingCtrlTimeoutHandler false) W.expire := by
  have hok := expire_ok h.ok
  have hp := h.pending
  unfold rtwReorderingCtrlTimeoutHandler recvIndicatepktsInOrder expire at *
  cases hl : W.held with
  | nil =>
    rw [hl] at hp
    simp only [hp, frames, List.map_nil, if_true, Bool.false_eq_true, if_false]
    exact ⟨h.enable, h.wsize, h.start, by rw [hl]; rfl, h.numbers, h.mpdus, h.lossCount, h.rxDrop,
      h.shifts, fun _ => rfl, nofun, h.ok⟩
  | cons q l =>
    have hnum := h.numbers
    have hs := h.ok.sorted
    have hq : q ∈ W.held := hl ▸ List.mem_cons_self
    have habove := h.ok.above q hq
    have hwithin := h.ok.within q hq
    have hd := loss_distance h.start (h.numbers q hq) (by omega) (by omega)
    simp only [hl] at hok
    rw [hl] at hp hnum hs
    simp only [hp, frames, List.map_cons, if_true, Bool.false_eq_true, if_false,
      recvIndicatepktsPktLossCnt, hd]
    obtain ⟨hqs, -⟩ := List.pairwise_cons.mp hs
    obtain ⟨i, hi, he⟩ := indicate_eq (l := q :: l)
      (r := { r with
        reorderingCtrlTimer := false
        bReorderWaiting := false
        pending := q.2 :: l.map Prod.snd
        indicateSeq := q.2.seqNum
        ampduForcedIndicateCount := r.ampduForcedIndicateCount + 1
        ampduLossCount := r.ampduLossCount + BitVec.ofNat 64 (q.1 - W.next)
        rxDrop := r.rxDrop + BitVec.ofNat 64 (q.1 - W.next) })
      rfl hnum hs (h.numbers q hq) fun p hpl => by
        have := h.ok.above p (hl ▸ hpl)
        have := h.ok.within p (hl ▸ hpl)
        omega
    have hmp : r.mpdus ++ frames (release q.1 (q :: l)).out =
        r₀.mpdus ++ frames (W.out ++ (release q.1 (q :: l)).out) := by
      rw [h.mpdus, frames, frames, frames, List.map_append, List.append_assoc]
    simp only [he]
    cases hempty : (frames (release q.1 (q :: l)).held).isEmpty
    · simp only [Bool.not_false]
      exact ⟨h.enable, h.wsize, hi, rfl, numbers_release hnum, hmp,
        by rw [h.lossCount, BitVec.add_assoc, ← BitVec.ofNat_add],
        by rw [h.rxDrop, BitVec.add_assoc, ← BitVec.ofNat_add],
        h.shifts, fun _ => rfl, nofun, hok⟩
    · simp only [Bool.not_true]
      exact ⟨h.enable, h.wsize, hi, rfl, numbers_release hnum, hmp,
        by rw [h.lossCount, BitVec.add_assoc, ← BitVec.ofNat_add],
        by rw [h.rxDrop, BitVec.add_assoc, ← BitVec.ofNat_add],
        h.shifts, fun hne => absurd (List.isEmpty_iff.mp hempty) hne, nofun, hok⟩

/-- Reordering was agreed on while nothing was held, and nothing has arrived since. -/
structure Idle (r : Receiver α) : Prop where
  enable : r.enable = true
  wsize : r.wsizeB = 64
  unset : r.indicateSeq = 0xFFFF
  pending : r.pending = []
  waiting : r.bReorderWaiting = true → r.reorderingCtrlTimer = true

/-- The counters of `r` and what it has handed on are those of `r₀`. -/
structure Untouched (r₀ r : Receiver α) : Prop where
  mpdus : r.mpdus = r₀.mpdus
  lossCount : r.ampduLossCount = r₀.ampduLossCount
  rxDrop : r.rxDrop = r₀.rxDrop
  shifts : r.ampduWindowShiftCnt = r₀.ampduWindowShiftCnt

theorem Idle.timeout (h : Idle r) (hu : Untouched r₀ r) :
    Idle (r.rtwReorderingCtrlTimeoutHandler false) ∧
      Untouched r₀ (r.rtwReorderingCtrlTimeoutHandler false) := by
  simp only [rtwReorderingCtrlTimeoutHandler, recvIndicatepktsInOrder, h.pending, if_true,
    Bool.false_eq_true, if_false]
  exact ⟨⟨h.enable, h.wsize, h.unset, rfl, nofun⟩, hu.mpdus, hu.lossCount, hu.rxDrop, hu.shifts⟩

theorem Idle.frame (h : Idle r) (hu : Untouched r₀ r) (hf : Stands f.seqNum n) :
    Follows r₀ (r.recvFuncPosthandle f) ((Window.start n).arrive 64 (n, f)) := by
  have hr : r.recvFuncPosthandle f = { r with indicateSeq := f.seqNum }.recvFuncPosthandle f := by
    simp only [recvFuncPosthandle, recvIndicatepktReorder, h.enable, Bool.not_true,
      Bool.false_eq_true,
      if_false, check_first h.unset]
  rw [hr]
  have hs : Follows r₀ { r with indicateSeq := f.seqNum } (Window.start n) := {
    enable := h.enable
    wsize := h.wsize
    start := hf
    pending := h.pending
    numbers := nofun
    mpdus := hu.mpdus.trans (List.append_nil _).symm
    lossCount := by simp [hu.lossCount, Window.start]
    rxDrop := by simp [hu.rxDrop, Window.start]
    shifts := by simp [hu.shifts, Window.start]
    armed := fun hne => absurd h.pending hne
    waiting := h.waiting
    ok := start_ok n }
  exact hs.frame hf (by simp only [Window.start]; omega) (by simp only [Window.start]; omega)

end Okm6ullOta.RxWindow
