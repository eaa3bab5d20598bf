import Mathlib.Data.Nat.Digits.Lemmas
import Mathlib.Tactic.IntervalCases

/-!
# Numerals as command lines read and write them

`leading base` reads digits from the front of a text and stops at the first
character which is not a digit of that base, as `strtoul` does; no digit at all
is zero. `numeral` writes the digits without a prefix. A text written in one
base and read in another is read correctly only below the smaller base.
-/
namespace Okm6ullOta.TextNumerals

def digitValue (c : Char) : Option ℕ :=
  if '0' ≤ c ∧ c ≤ '9' then some (c.toNat - '0'.toNat)
  else if 'a' ≤ c ∧ c ≤ 'f' then some (c.toNat - 'a'.toNat + 10)
  else if 'A' ≤ c ∧ c ≤ 'F' then some (c.toNat - 'A'.toNat + 10)
  else none

def leadingFrom (base : ℕ) : ℕ → List Char → ℕ
  | n, [] => n
  | n, c :: cs =>
    match digitValue c with
    | some d => if d < base then leadingFrom base (n * base + d) cs else n
    | none => n

def leading (base : ℕ) (text : String) : ℕ := leadingFrom base 0 text.toList

def numeral (base n : ℕ) : String := String.ofList (Nat.toDigits base n)

theorem toDigits_eq_digits {base n : ℕ} (hb : 1 < base) (hn : n ≠ 0) :
    Nat.toDigits base n = (Nat.digits base n).reverse.map Nat.digitChar := by
  induction n using Nat.strongRecOn with
  | ind n ih =>
    rw [Nat.toDigits_eq_if hb, Nat.digits_def' hb (Nat.pos_of_ne_zero hn), List.reverse_cons,
      List.map_append, List.map_singleton]
    split_ifs with hl
    · rw [Nat.div_eq_of_lt hl, Nat.mod_eq_of_lt hl, Nat.digits_zero]
      rfl
    · have hq : n / base ≠ 0 := (Nat.div_pos (by omega) (by omega)).ne'
      rw [ih (n / base) (Nat.div_lt_self (by omega) hb) hq]

theorem digitValue_digitChar {d : ℕ} (hd : d < 16) : digitValue d.digitChar = some d := by
  interval_cases d <;> rfl

/-- Reading continues over a text all of whose characters are digits. -/
theorem leadingFrom_append {base n : ℕ} {xs ys : List Char}
    (hx : ∀ c ∈ xs, ∃ d < base, digitValue c = some d) :
    leadingFrom base n (xs ++ ys) = leadingFrom base (leadingFrom base n xs) ys := by
  induction xs generalizing n with
  | nil => rfl
  | cons c xs ih =>
    obtain ⟨d, hd, hc⟩ := hx c List.mem_cons_self
    simp only [List.cons_append, leadingFrom, hc, hd, if_true]
    exact ih fun c h => hx c (List.mem_cons_of_mem _ h)

theorem leadingFrom_digitChar {base n d : ℕ} {cs : List Char} (hd : d < 16) :
    leadingFrom base n (d.digitChar :: cs) =
      if d < base then leadingFrom base (n * base + d) cs else n := by
  simp only [leadingFrom, digitValue_digitChar hd]

/-- What has been read only grows. -/
theorem le_leadingFrom {base : ℕ} (hb : 0 < base) (n : ℕ) (cs : List Char) :
    n ≤ leadingFrom base n cs := by
  induction cs generalizing n with
  | nil => exact Nat.le_refl n
  | cons c cs ih =>
    unfold leadingFrom
    split
    · rename_i d _
      split_ifs
      · calc
          n ≤ n * base := Nat.le_mul_of_pos_right n hb
          _ ≤ n * base + d := Nat.le_add_right _ d
          _ ≤ leadingFrom base (n * base + d) cs := ih _
      · exact Nat.le_refl n
    · exact Nat.le_refl n

/-- A larger base reads no less. -/
theorem leadingFrom_mono {base base' n n' : ℕ} (hb : 0 < base) (hbb : base ≤ base') (hn : n ≤ n')
    (cs : List Char) : leadingFrom base n cs ≤ leadingFrom base' n' cs := by
  induction cs generalizing n n' with
  | nil => exact hn
  | cons c cs ih =>
    have hg := le_leadingFrom (hb.trans_le hbb) n' (c :: cs)
    unfold leadingFrom at hg ⊢
    split at hg
    · rename_i d _
      split_ifs at hg ⊢ with h₁ h₂ h₂
      · exact ih (Nat.add_le_add_right (Nat.mul_le_mul hn hbb) d)
      · exact absurd (h₁.trans_le hbb) h₂
      · exact hn.trans hg
      · exact hn
    · exact hn

theorem toDigits_digits {base : ℕ} (hb : 1 < base) (hm : base ≤ 16) (n : ℕ) :
    ∀ c ∈ Nat.toDigits base n, ∃ d < base, digitValue c = some d := by
  induction n using Nat.strongRecOn with
  | ind n ih =>
    intro c hc
    rw [Nat.toDigits_eq_if hb] at hc
    split_ifs at hc with hn
    · obtain rfl := List.mem_singleton.mp hc
      exact ⟨n, hn, digitValue_digitChar (by omega)⟩
    · rcases List.mem_append.mp hc with hc | hc
      · exact ih (n / base) (Nat.div_lt_self (by omega) hb) c hc
      · obtain rfl := List.mem_singleton.mp hc
        have hr : n % base < base := Nat.mod_lt n (by omega)
        exact ⟨n % base, hr, digitValue_digitChar (by omega)⟩

theorem leadingFrom_toDigits {base : ℕ} (hb : 1 < base) (hm : base ≤ 16) (n : ℕ) :
    leadingFrom base 0 (Nat.toDigits base n) = n := by
  induction n using Nat.strongRecOn with
  | ind n ih =>
    rw [Nat.toDigits_eq_if hb]
    split_ifs with hn
    · simp [leadingFrom, digitValue_digitChar (show n < 16 by omega), hn]
    · have hr : n % base < base := Nat.mod_lt n (by omega)
      rw [leadingFrom_append (toDigits_digits hb hm _),
        ih (n / base) (Nat.div_lt_self (by omega) hb)]
      simp only [leadingFrom, digitValue_digitChar (show n % base < 16 by omega), hr, if_true]
      exact Nat.div_add_mod' n base

/-- What is written in a base is read back in that base. -/
theorem leading_numeral {base : ℕ} (hb : 1 < base) (hm : base ≤ 16) (n : ℕ) :
    leading base (numeral base n) = n := by
  rw [leading, numeral, String.toList_ofList, leadingFrom_toDigits hb hm]

/-- A one-digit numeral reads the same in every base above the digit. -/
theorem leading_numeral_digit {base base' n : ℕ} (hn : n < base) (hn' : n < base')
    (hm : base' ≤ 16) : leading base (numeral base' n) = n := by
  rw [leading, numeral, String.toList_ofList, Nat.toDigits_of_lt_base hn']
  simp [leadingFrom, digitValue_digitChar (show n < 16 by omega), hn]

end Okm6ullOta.TextNumerals
