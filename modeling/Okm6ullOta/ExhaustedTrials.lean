import Okm6ullOta.TrialCounter

/-!
# The limit of three attempts, read in the wrong radix

`setexpr` counts in hexadecimal and `test -gt` reads decimal digits up to the
first letter. A power cut between the two saves of the counter branch lets the
counter pass its limit, and from ten on the test may see fewer digits than were
written. What follows says for which counts it still sees a number above three.
-/
namespace Okm6ullOta.ExhaustedTrials
open BootEnvironment PowerCutScripts UBootCommands BootScript BootLog BootSteps LabelledRuns
open BoardRuns TextNumerals TrialCounter

/-- In hexadecimal, `m` begins with a digit from 4 to 9, or with a digit up to 3 and
another decimal digit behind it. -/
def Legible (m : ℕ) : Prop :=
  match (Nat.digits 16 m).reverse with
  | [] => False
  | [t] => 4 ≤ t ∧ t ≤ 9
  | t :: u :: _ => 4 ≤ t ∧ t ≤ 9 ∨ t ≤ 3 ∧ u ≤ 9

theorem leading_digit_pos {m t : ℕ} {ts : List ℕ} (h : (Nat.digits 16 m).reverse = t :: ts) :
    0 < t := by
  have hm : m ≠ 0 := by
    rintro rfl
    simp at h
  have hl := Nat.getLast_digit_ne_zero 16 hm
  have hr : Nat.digits 16 m = ts.reverse ++ [t] := by
    rw [← List.reverse_reverse (Nat.digits 16 m), h, List.reverse_cons]
  simp only [hr, List.getLast_concat] at hl
  exact Nat.pos_of_ne_zero hl

/-- A decimal reader sees more than three in a hexadecimal numeral. -/
theorem leading_numeral_iff (m : ℕ) : 3 < leading 10 (numeral 16 m) ↔ Legible m := by
  by_cases hm : m = 0
  · subst hm
    constructor
    · exact fun h => absurd h (by decide)
    · simp [Legible]
  have hd : ∀ d ∈ (Nat.digits 16 m).reverse, d < 16 := fun d hd =>
    Nat.digits_lt_base (by decide) (List.mem_reverse.mp hd)
  have hp := @leading_digit_pos m
  rw [leading, numeral, String.toList_ofList, toDigits_eq_digits (by decide) hm, Legible]
  cases h : (Nat.digits 16 m).reverse with
  | nil => simp [leadingFrom]
  | cons t ts =>
    rw [h] at hd
    have ht := hp h
    cases ts with
    | nil =>
      rw [List.map_singleton, leadingFrom_digitChar (hd t (by simp))]
      simp only [leadingFrom]
      split_ifs <;> omega
    | cons u us =>
      rw [List.map_cons, leadingFrom_digitChar (hd t (by simp)), List.map_cons,
        leadingFrom_digitChar (hd u (by simp))]
      have hg : (0 * 10 + t) * 10 + u ≤
          leadingFrom 10 ((0 * 10 + t) * 10 + u) (us.map Nat.digitChar) :=
        le_leadingFrom (by decide) _ _
      simp only
      split_ifs <;> omega

instance (m : ℕ) : Decidable (Legible m) := decidable_of_iff _ (leading_numeral_iff m)

/-- The count a boot with a pending update stores. -/
def nextCount (e : Env) : ℕ := (tries e + 1) % 2 ^ 32

/-- The test of the script is passed exactly by the legible counts. -/
theorem exhausted_iff (d : Env) : Exhausted (counted (settled d)) ↔ Legible (nextCount d) := by
  have ht : leading 16 (settled d .ota_try) = tries d := tries_settled d
  rw [← leading_numeral_iff, Exhausted, counted, Env.set_self, nextTry, ht, nextCount]

theorem installLog_givesUp (r : Env) : (installLog r).any givesUp = false := by
  rw [List.any_eq_false]
  exact installLog_silent (fun _ => rfl) r

/-- A boot which is not cut takes the rollback branch where the test is passed. -/
theorem bootLog_givesUp {d : Env} (hp : Pending d) (o : Outcomes) :
    (bootLog o d).any givesUp ↔ Legible (nextCount d) := by
  rw [← exhausted_iff]
  by_cases hx : Exhausted (counted (settled d))
  · rw [exhausted_bootLog hp hx]
    simp [givesUp, hx]
  · have ht := tail_givesUp
      (tail_step (List.prefix_refl (tailLog o (counted (settled d)))) (d := d))
    rw [trial_bootLog hp hx]
    simp [installLog_givesUp, countLog, givesUp, ht, hx]

/-- The update is pending and its third attempt is on record. -/
def Spent (d : Env) : Prop := Pending d ∧ d .ota_try = "3"

instance (d : Env) : Decidable (Spent d) := inferInstanceAs (Decidable (_ ∧ _))

/-- No attempt is left. -/
def Invariant (b : Board) : Prop := Pending b.disk → 3 ≤ tries b.disk

/-- A boot beyond the third attempt stores a legible count. No other update begins: one
which is started while this one is pending goes on with its counter. -/
def Legibly (b : Board) : Move → Prop
  | .boot _ _ => Pending b.disk → 3 ≤ tries b.disk → Legible (nextCount b.disk)
  | .startOTA _ => Pending b.disk
  | _ => True

instance (b : Board) (m : Move) : Decidable (Legibly b m) :=
  match m with
  | .boot _ _ => inferInstanceAs (Decidable (Pending b.disk → 3 ≤ tries b.disk → Legible _))
  | .startOTA _ => inferInstanceAs (Decidable (Pending b.disk))
  | .altboot _ _ => .isTrue trivial
  | .confirm => .isTrue trivial

theorem three_lt_tries {e : Env} (h : Exhausted e) : 3 < tries e :=
  h.trans_le (leadingFrom_mono (by decide) (by decide) (Nat.le_refl 0) _)

theorem Invariant.exhausted {b : Board} {o : Outcomes} {cut : ℕ} (hi : Invariant b)
    (hm : Legibly b (.boot o cut)) (hp : Pending (settled b.disk)) :
    Exhausted (counted (settled b.disk)) := by
  have hd : Pending b.disk := (settled_pending _).mp hp
  exact (exhausted_iff _).mpr (hm hd (hi hd))

/-- A boot which can only roll back leaves a board with no attempt left. -/
theorem boot_invariant {o : Outcomes} {d : Env} {l : List Event} {b : Board}
    (h : BootStep o d d l b) (hi : Pending d → 3 ≤ tries d)
    (hx : Pending (settled d) → Exhausted (counted (settled d))) : Invariant b := by
  have hstored : Pending (stored d d) → 3 ≤ tries (stored d d) := by
    rw [stored_pending, tries_stored]
    exact hi
  cases h with
  | off => exact hi
  | migrated => exact hstored
  | counting => exact hstored
  | exhausted hp => exact fun _ => (three_lt_tries (hx hp)).le
  | gaveUp => exact fun hp => absurd hp (rolledBack_not_pending _ _)
  | trial hp hn => exact absurd (hx hp) hn
  | normal hp ht =>
    intro hb
    rw [normal_disk ht hp, rested_pending, ← settled_pending] at hb
    exact absurd hb hp

theorem step_invariant {b b' : Board} {m : Move} (hi : Invariant b) (h : Step Legibly b m b') :
    Invariant b' := by
  obtain ⟨hm, hn⟩ := h
  cases m with
  | boot o cut => exact boot_invariant (boot_move hn) hi (hi.exhausted hm)
  | altboot o cut =>
    obtain ⟨-, rfl | rfl⟩ := altboot_move hn
    · exact hi
    · exact fun hp => absurd hp (rolledBack_not_pending _ _)
  | startOTA w =>
    obtain ⟨-, rfl⟩ := startOTA_move hn
    intro _
    rw [tries_of_same (apply_of_ne w b.disk (by decide))]
    exact hi hm
  | confirm =>
    obtain ⟨-, rfl⟩ := confirm_move hn
    exact fun hp => absurd hp (confirmed_not_pending _)

theorem run_invariant {b b' : Board} {ms : List Move} (hs : Spent b.disk)
    (run : Run (Step Legibly) b ms b') : Invariant b' := by
  refine run.invariant ?_ fun _ _ _ => step_invariant
  intro _
  rw [tries, hs.2]
  decide

theorem altboot_log_saves {b : Board} {o : Outcomes} {cut : ℕ} {x : Event}
    (h : x ∈ log b (.altboot o cut)) : x = .saved (rolledBack otherSlot b.disk) := by
  have hp := after_log_prefix (exec o) cut altbootcmd (Machine.start b.disk b.disk)
  rw [eval_altbootcmd] at hp
  exact List.mem_singleton.mp (hp.subset h)

/-- With no attempt left, nothing executes `bootz` with the update pending. -/
theorem Invariant.not_booting {b : Board} {m : Move} {ram : Env} {k : Option String}
    (hi : Invariant b) (hm : Legibly b m) (hb : .booting ram k ∈ log b m) : ¬ Pending ram := by
  cases m with
  | boot o cut =>
    intro hp
    obtain ⟨_, _, e, he, -, rfl, -⟩ := boot_booting (boot_move rfl) hb
    rw [ready_pending] at hp
    cases he with
    | trial hs hx => exact hx (hi.exhausted hm hs)
    | normal hs => exact hs ((cleared_pending _).mp hp)
  | altboot o cut => cases altboot_log_saves hb
  | startOTA w => cases hb
  | confirm => cases hb

/-- A boot which is not cut rolls back exactly where the count it stores is legible. In
a run whose boots beyond the third attempt store legible counts, nothing executes `bootz`
with the update pending once its third attempt is on record. -/
theorem exhausted_iff_legible (b : Board) (hp : Pending b.disk) :
    (∀ n < 2 ^ 32 - 1, b.disk .ota_try = numeral 16 n → ∀ o cut, bootCmd.size ≤ cut →
      ((log b (.boot o cut)).any givesUp ↔ Legible (n + 1))) ∧
    (b.disk .ota_try = "3" → ∀ ms b', Run (Step Legibly) b ms b' →
      ∀ m ram k, Legibly b' m → .booting ram k ∈ log b' m → ¬ Pending ram) := by
  constructor
  · intro n hn ht o cut hc
    have hcount : nextCount b.disk = n + 1 := by
      rw [nextCount, tries, ht, leading_numeral (by decide) (by decide)]
      omega
    rw [boot_log_size hc, bootLog_givesUp hp, hcount]
  · intro ht ms b' run m ram k hm hb
    exact (run_invariant ⟨hp, ht⟩ run).not_booting hm hb

/-- The power is cut right after the save of the counter. -/
def cutAfterCount : Move := .boot everyFile 11

def thirdTrial : Board := ⟨(Env.fresh.set .upgrade_available "1").set .ota_try "3", none⟩

/-- A cut in the window costs nothing at the third attempt. -/
theorem exhausted_iff_legible_third :
    (log thirdTrial (.boot everyFile 100)).any givesUp ∧
    ∃ b, next thirdTrial cutAfterCount = some b ∧
      ∀ ram k, .booting ram k ∈ log b (.boot everyFile 100) → ¬ Pending ram := by
  constructor
  · exact ((exhausted_iff_legible thirdTrial (by decide)).1 3 (by decide) (by decide) everyFile 100
      (by decide)).mpr (by decide)
  · have run : Run (Step Legibly) thirdTrial [cutAfterCount] _ := .single ⟨by decide, rfl⟩
    refine ⟨_, rfl, fun ram k => ?_⟩
    exact (exhausted_iff_legible thirdTrial (by decide)).2 (by decide) _ _ run
      (.boot everyFile 100) ram k (by decide)

/-- The test of the script misses nine attempts on record, and `bootz` is executed. -/
def slipsThrough (b : Board) : Bool :=
  decide (Pending b.disk ∧ b.disk .ota_try = numeral 16 9) &&
    !(log b (.boot everyFile 100)).any givesUp && (log b (.boot everyFile 100)).any bootsPending

/-- Six power cuts after the third attempt, and the count of the next boot is `a`. -/
theorem limit_passed_in_hexadecimal : ∃ b₃ b,
    Run (Step fun _ _ => True) ⟨Env.fresh, none⟩ threeTrials b₃ ∧ Spent b₃.disk ∧
    Run (Step fun _ _ => True) b₃ (List.replicate 6 cutAfterCount) b ∧
    Pending b.disk ∧ b.disk .ota_try = numeral 16 9 ∧
    ¬ (log b (.boot everyFile 100)).any givesUp ∧
    (log b (.boot everyFile 100)).any bootsPending := by
  obtain ⟨b₃, run₃, h₃⟩ := free_run _ threeTrials _
    (show (replay (tested (fun _ _ => true) next) ⟨Env.fresh, none⟩ threeTrials).any fun b₃ =>
      decide (Spent b₃.disk) &&
        (replay (tested (fun _ _ => true) next) b₃ (List.replicate 6 cutAfterCount)).any
          slipsThrough by decide)
  obtain ⟨hs, hc⟩ := (Bool.and_eq_true ..).mp h₃
  obtain ⟨b, run, hb⟩ := free_run b₃ (List.replicate 6 cutAfterCount) slipsThrough hc
  simp only [slipsThrough, Bool.and_eq_true, decide_eq_true_eq, Bool.not_eq_true',
    and_assoc] at hb
  obtain ⟨hp, ht, hg, hz⟩ := hb
  exact ⟨b₃, b, run₃, of_decide_eq_true hs, run, hp, ht, ne_true_of_eq_false hg, hz⟩

end Okm6ullOta.ExhaustedTrials
