import Okm6ullOta.PollingLoops
import Okm6ullOta.TextNumerals

/-!
# The wait for a long press of the ONOFF button

`do_waitpwrkey` polls the button, remembers in two variables whether it is in a
press and what the timer showed when that press began, and leaves when the timer
has run for `hold_ms` since then or at Ctrl-C. The timer is 32 bits wide. What
follows compares the loop with the presses themselves, in unbounded time.
-/
namespace Okm6ullOta.PowerKey
open PollingLoops TextNumerals

def SNVS_HPSR_BTN : BitVec 32 := 1#32 <<< 6

/-- What one poll reads: the register, the milliseconds since power-on at which a
press would begin, those at which its length is measured, and Ctrl-C. -/
structure Poll where
  hpsr : BitVec 32
  opened : ℕ
  now : ℕ
  ctrlc : Bool

def Poll.pressed (p : Poll) : Bool := p.hpsr &&& SNVS_HPSR_BTN != 0

/-- The timer shows the low 32 bits of the time. -/
def get_timer (time : ℕ) (base : BitVec 32) : BitVec 32 := BitVec.ofNat 32 time - base

inductive CmdRet where
  | success | failure | usage
  deriving DecidableEq, Repr

structure Press where
  start : BitVec 32
  pressing : Bool
  deriving DecidableEq, Repr

def Press.none : Press := ⟨0, false⟩

/-- The press a poll belongs to. -/
def Press.next (v : Press) (p : Poll) : Press :=
  if p.pressed then
    if v.pressing then v else ⟨get_timer p.opened 0#32, true⟩
  else { v with pressing := false }

/-- One turn of the loop. -/
def turn (hold_ms : BitVec 32) (p : Poll) (v : Press) : Except CmdRet Press :=
  let v := v.next p
  if p.pressed && hold_ms ≤ get_timer p.now v.start then .error .success
  else if p.ctrlc then .error .failure
  else .ok v

def default_hold_ms : BitVec 32 := 5000

/-- The argument as `dectoul` reads it. -/
def hold_ms : List String → BitVec 32
  | [_, text] => BitVec.ofNat 32 (leading 10 text)
  | _ => default_hold_ms

/-- The command after `n` polls: still polling, or the poll at which it returned and
what it returned. Wrong usage returns before the first poll. -/
def do_waitpwrkey (argv : List String) (q : ℕ → Poll) (n : ℕ) : Except (ℕ × CmdRet) Press :=
  if 2 < argv.length then .error (0, .usage)
  else polled (fun i => turn (hold_ms argv) (q i)) Press.none n

variable {q : ℕ → Poll} {m n : ℕ}

/-- A press which began at poll `m` and goes on at poll `n`. -/
abbrev PressedSince (q : ℕ → Poll) : ℕ → ℕ → Prop := Since fun i => (q i).pressed

/-- Time never goes back, and no press is as long as the timer takes to wrap around. -/
structure Timed (q : ℕ → Poll) : Prop where
  measure : ∀ n, (q n).opened ≤ (q n).now
  next : ∀ n, (q n).now ≤ (q (n + 1)).opened
  short : ∀ m n, PressedSince q m n → (q n).now < (q m).opened + 2 ^ 32

/-- The button has been held for `hold` milliseconds at poll `n`. -/
def Held (q : ℕ → Poll) (hold n : ℕ) : Prop :=
  ∃ m, PressedSince q m n ∧ (q m).opened + hold ≤ (q n).now

theorem Timed.opened_le_now (h : Timed q) (hm : m ≤ n) : (q m).opened ≤ (q n).now := by
  induction n, hm using Nat.le_induction with
  | base => exact h.measure m
  | succ n _ ih =>
    calc
      (q m).opened ≤ (q n).now := ih
      _ ≤ (q (n + 1)).opened := h.next n
      _ ≤ (q (n + 1)).now := h.measure (n + 1)

theorem Held.pressed {hold : ℕ} (h : Held q hold n) : (q n).pressed := by
  obtain ⟨m, hm, -⟩ := h
  exact hm.2.1 n hm.1 (Nat.le_refl n)

theorem held_iff {hold : ℕ} (hm : PressedSince q m n) :
    Held q hold n ↔ (q m).opened + hold ≤ (q n).now := by
  constructor
  · intro ⟨k, hk, hh⟩
    rwa [hm.unique hk]
  · intro hh
    exact ⟨m, hm, hh⟩

/-- The difference of two readings is the time between them. -/
theorem get_timer_toNat {start now : ℕ} (h : start ≤ now) (hw : now < start + 2 ^ 32) :
    (get_timer now (get_timer start 0#32)).toNat = now - start := by
  simp only [get_timer, BitVec.toNat_sub, BitVec.toNat_ofNat]
  omega

theorem Timed.elapsed (h : Timed q) (hm : PressedSince q m n) :
    (get_timer (q n).now (get_timer (q m).opened 0#32)).toNat = (q n).now - (q m).opened :=
  get_timer_toNat (h.opened_le_now hm.1) (h.short m n hm)

/-- What the variables say before poll `n`. -/
structure Tracks (q : ℕ → Poll) (n : ℕ) (v : Press) : Prop where
  idle : v.pressing = false → n = 0 ∨ ¬ (q (n - 1)).pressed
  pressing : v.pressing = true → ∃ m, n ≠ 0 ∧ PressedSince q m (n - 1) ∧
    v.start = get_timer (q m).opened 0#32

theorem tracks_none : Tracks q 0 Press.none := ⟨fun _ => .inl rfl, nofun⟩

/-- In a press, the variables hold the reading at its beginning. -/
theorem Tracks.next_pressed {v : Press} (h : Tracks q n v) (hp : (q n).pressed) :
    ∃ m, PressedSince q m n ∧ v.next (q n) = ⟨get_timer (q m).opened 0#32, true⟩ := by
  unfold Press.next
  rw [if_pos hp]
  cases hv : v.pressing with
  | false => exact ⟨n, .start hp (h.idle hv), rfl⟩
  | true =>
    obtain ⟨m, hn, hm, hs⟩ := h.pressing hv
    obtain ⟨k, rfl⟩ := Nat.exists_eq_succ_of_ne_zero hn
    refine ⟨m, hm.succ hp, ?_⟩
    rw [if_pos rfl, ← hs, ← hv]

theorem Tracks.next {v : Press} (h : Tracks q n v) : Tracks q (n + 1) (v.next (q n)) := by
  by_cases hp : (q n).pressed
  · obtain ⟨m, hm, hv⟩ := h.next_pressed hp
    rw [hv]
    exact ⟨nofun, fun _ => ⟨m, Nat.succ_ne_zero n, hm, rfl⟩⟩
  · have hv : (v.next (q n)).pressing = false := by rw [Press.next, if_neg hp]
    exact ⟨fun _ => .inr hp, fun ht => absurd (hv.symm.trans ht) Bool.false_ne_true⟩

/-- The test of the loop is the length of the press. -/
theorem accepts_iff (hq : Timed q) {v : Press} (h : Tracks q n v) (hold : BitVec 32) :
    ((q n).pressed && hold ≤ get_timer (q n).now (v.next (q n)).start) = true ↔
      Held q hold.toNat n := by
  simp only [Bool.and_eq_true, decide_eq_true_eq]
  constructor
  · intro ⟨hp, ht⟩
    obtain ⟨m, hm, hv⟩ := h.next_pressed hp
    have he := hq.elapsed hm
    have hl := hq.opened_le_now hm.1
    rw [hv, BitVec.le_def, he] at ht
    rw [held_iff hm]
    omega
  · intro hh
    have hp := hh.pressed
    obtain ⟨m, hm, hv⟩ := h.next_pressed hp
    have he := hq.elapsed hm
    rw [held_iff hm] at hh
    refine ⟨hp, ?_⟩
    rw [hv, BitVec.le_def, he]
    omega

/-- The polls at which the loop is left. -/
def Ends (q : ℕ → Poll) (hold n : ℕ) : CmdRet → Prop
  | .success => Held q hold n
  | .failure => ¬ Held q hold n ∧ (q n).ctrlc
  | .usage => False

theorem waitpwrkey_law (hq : Timed q) (hold : BitVec 32) :
    Law (fun i => turn hold (q i)) (Tracks q) (Ends q hold.toNat) where
  leave := by
    intro n v r hv hr
    have ha := accepts_iff hq hv hold
    cases r with
    | success => rw [turn, if_pos (ha.mpr hr)]
    | failure => rw [turn, if_neg (mt ha.mp hr.1), if_pos hr.2]
    | usage => exact hr.elim
  stay := by
    intro n v hv hr
    have ha := accepts_iff hq hv hold
    have hh : ¬ Held q hold.toNat n := hr .success
    have hc : ¬ (q n).ctrlc := fun hc => hr .failure ⟨hh, hc⟩
    refine ⟨v.next (q n), ?_, hv.next⟩
    rw [turn, if_neg (mt ha.mp hh), if_neg hc]

/-- The first hold, not preceded by Ctrl-C. -/
def Accepted (q : ℕ → Poll) (hold n : ℕ) : Prop :=
  Held q hold n ∧ (∀ i < n, ¬ Held q hold i) ∧ ∀ j < n, ¬ (q j).ctrlc

/-- The first Ctrl-C, with no poll accepted up to it. -/
def Cancelled (q : ℕ → Poll) (hold n : ℕ) : Prop :=
  (q n).ctrlc ∧ (∀ j < n, ¬ (q j).ctrlc) ∧ ∀ i ≤ n, ¬ Accepted q hold i

variable {hold : ℕ}

theorem exists_accepted (hc : ∀ j < n, ¬ (q j).ctrlc) (h : Held q hold n) :
    ∃ i ≤ n, Accepted q hold i := by
  induction n using Nat.strongRecOn with
  | ind n ih =>
    by_cases hf : ∃ i < n, Held q hold i
    · obtain ⟨i, hi, hh⟩ := hf
      obtain ⟨k, hk, ha⟩ := ih i hi (fun j hj => hc j (hj.trans hi)) hh
      exact ⟨k, hk.trans hi.le, ha⟩
    · exact ⟨n, Nat.le_refl n, h, fun i hi hh => hf ⟨i, hi, hh⟩, hc⟩

/-- No poll ends the loop: none is held and none is interrupted. -/
theorem not_ends_iff : (∀ r, ¬ Ends q hold n r) ↔ ¬ Held q hold n ∧ ¬ (q n).ctrlc := by
  constructor
  · intro h
    have hh : ¬ Held q hold n := h .success
    exact ⟨hh, fun hc => h .failure ⟨hh, hc⟩⟩
  · intro ⟨hh, hc⟩ r hr
    cases r with
    | success => exact hh hr
    | failure => exact hc hr.2
    | usage => exact hr

theorem accepted_iff :
    Accepted q hold n ↔ Ends q hold n .success ∧ ∀ i < n, ∀ r, ¬ Ends q hold i r := by
  simp only [not_ends_iff, imp_and, forall_and]
  rfl

theorem cancelled_iff :
    Cancelled q hold n ↔ Ends q hold n .failure ∧ ∀ i < n, ∀ r, ¬ Ends q hold i r := by
  simp only [not_ends_iff]
  constructor
  · intro ⟨hc, hb, ha⟩
    have hh : ∀ i ≤ n, ¬ Held q hold i := by
      intro i hi hh
      obtain ⟨k, hk, hka⟩ := exists_accepted (fun j hj => hb j (by omega)) hh
      exact ha k (hk.trans hi) hka
    exact ⟨⟨hh n (Nat.le_refl n), hc⟩, fun i hi => ⟨hh i hi.le, hb i hi⟩⟩
  · intro ⟨⟨hh, hc⟩, hb⟩
    refine ⟨hc, fun j hj => (hb j hj).2, fun i hi ha => ?_⟩
    rcases Nat.lt_or_eq_of_le hi with hi | rfl
    · exact (hb i hi).1 ha.1
    · exact hh ha.1

theorem polling_iff_not_ended :
    (∀ i < n, ∀ r, ¬ Ends q hold i r) ↔ ∀ i < n, ¬ Accepted q hold i ∧ ¬ Cancelled q hold i := by
  constructor
  · intro h i hi
    rw [accepted_iff, cancelled_iff]
    exact ⟨fun ha => h i hi _ ha.1, fun hc => h i hi _ hc.1⟩
  · intro h i
    induction i using Nat.strongRecOn with
    | ind i ih =>
      intro hi r hr
      have hb : ∀ j < i, ∀ r, ¬ Ends q hold j r := fun j hj => ih j hj (hj.trans hi)
      cases r with
      | success => exact (h i hi).1 (accepted_iff.mpr ⟨hr, hb⟩)
      | failure => exact (h i hi).2 (cancelled_iff.mpr ⟨hr, hb⟩)
      | usage => exact hr

/-- The command returns success at the first continuous hold, failure at the first
Ctrl-C before it, and polls as long as neither has come. -/
theorem accepts_continuous_hold (argv : List String) (q : ℕ → Poll) (ha : argv.length ≤ 2)
    (hq : Timed q) (n : ℕ) :
    (do_waitpwrkey argv q (n + 1) = .error (n, .success) ↔
        Accepted q (hold_ms argv).toNat n) ∧
      (do_waitpwrkey argv q (n + 1) = .error (n, .failure) ↔
        Cancelled q (hold_ms argv).toNat n) ∧
      ((∃ v, do_waitpwrkey argv q (n + 1) = .ok v) ↔
        ∀ i ≤ n, ¬ Accepted q (hold_ms argv).toNat i ∧ ¬ Cancelled q (hold_ms argv).toNat i) := by
  have law := waitpwrkey_law hq (hold_ms argv)
  have hw : ∀ k, do_waitpwrkey argv q k =
      polled (fun i => turn (hold_ms argv) (q i)) Press.none k := by
    intro k
    rw [do_waitpwrkey, if_neg (by omega)]
  rw [hw, accepted_iff, cancelled_iff]
  refine ⟨law.left_iff tracks_none, law.left_iff tracks_none, ?_⟩
  rw [law.polling_iff tracks_none, polling_iff_not_ended]
  simp only [Nat.lt_succ_iff]

/-- A press at polls 1 to 3, twenty milliseconds apart, while the timer wraps around. -/
def wrappingPress (n : ℕ) : Poll where
  hpsr := if 1 ≤ n ∧ n ≤ 3 then SNVS_HPSR_BTN else 0
  opened := 2 ^ 32 - 30 + 20 * n
  now := 2 ^ 32 - 30 + 20 * n
  ctrlc := false

theorem wrappingPress_pressed : (wrappingPress n).pressed ↔ 1 ≤ n ∧ n ≤ 3 := by
  by_cases h : 1 ≤ n ∧ n ≤ 3
  · simp only [wrappingPress, Poll.pressed, h, and_self, iff_true]
    decide
  · simp only [wrappingPress, Poll.pressed, h, iff_false]
    decide

theorem wrappingPress_timed : Timed wrappingPress where
  measure _ := Nat.le_refl _
  next n := Nat.add_le_add_left (Nat.mul_le_mul_left 20 (Nat.le_succ n)) _
  short m n h := by
    have hm := wrappingPress_pressed.mp (h.2.1 m (Nat.le_refl m) h.1)
    have hn := wrappingPress_pressed.mp (h.2.1 n h.1 (Nat.le_refl n))
    simp only [wrappingPress]
    omega

theorem accepts_continuous_hold_at_wrap :
    Accepted wrappingPress (hold_ms ["waitpwrkey", "40"]).toNat 3 :=
  (accepts_continuous_hold ["waitpwrkey", "40"] wrappingPress (by decide) wrappingPress_timed
    3).1.mp (by decide)

end Okm6ullOta.PowerKey
