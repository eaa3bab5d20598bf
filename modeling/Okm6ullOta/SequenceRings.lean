import Mathlib.Tactic.Common
import Mathlib.Data.Nat.ModEq

/-!
# Sequence numbers which wrap around

Fixed-width numbers stand for unbounded ones, of which they keep the low bits.
Two of them are compared by one bit of their difference, which is right as long
as the numbers they stand for are at most half a turn apart.
-/
namespace Okm6ullOta.SequenceRings

variable {n k u v : ℕ} {a b : BitVec n}

/-- `a` is behind `b` on a ring of `2 ^ (k + 1)` numbers: bit `k` of the difference is set. -/
def behind (k : ℕ) (a b : BitVec n) : Bool := (a - b) &&& BitVec.twoPow n k != 0#n

/-- The word `a` has the place of `u` on the ring. -/
def Shows (k : ℕ) (a : BitVec n) (u : ℕ) : Prop := a.toNat ≡ u [MOD 2 ^ (k + 1)]

theorem behind_eq_testBit (hk : k < n) : behind k a b = (a - b).toNat.testBit k := by
  rw [← BitVec.getLsbD]
  unfold behind
  rw [BitVec.and_twoPow]
  cases (a - b).getLsbD k
  · simp
  · have hne : BitVec.twoPow n k ≠ 0#n := by
      intro h
      have hb := congrArg (fun x => x.getLsbD k) h
      simp [hk] at hb
    simpa using hne

theorem sub_modEq (hk : k < n) : (a - b).toNat + b.toNat ≡ a.toNat [MOD 2 ^ (k + 1)] := by
  have hd : 2 ^ (k + 1) ∣ 2 ^ n := Nat.pow_dvd_pow 2 hk
  have hs : (a - b).toNat + b.toNat ≡ a.toNat [MOD 2 ^ n] := by
    rw [BitVec.toNat_sub]
    calc
      (2 ^ n - b.toNat + a.toNat) % 2 ^ n + b.toNat
          ≡ 2 ^ n - b.toNat + a.toNat + b.toNat [MOD 2 ^ n] :=
        (Nat.mod_modEq _ _).add_right _
      _ = a.toNat + 2 ^ n := by have := b.isLt; omega
      _ ≡ a.toNat [MOD 2 ^ n] := by simp [Nat.ModEq]
  exact hs.of_dvd hd

/-- On a ring of `2 * p` numbers the upper half is told by one bit. -/
theorem testBit_iff_half (x : ℕ) : x.testBit k ↔ 2 ^ k ≤ x % 2 ^ (k + 1) := by
  rw [Nat.testBit_eq_decide_div_mod_eq, decide_eq_true_iff]
  have hp : 0 < 2 ^ k := Nat.two_pow_pos k
  have hm : x / 2 ^ k % 2 = x % 2 ^ (k + 1) / 2 ^ k := by
    rw [pow_succ, Nat.mod_mul_right_div_self]
  have hlt : x % 2 ^ (k + 1) / 2 ^ k < 2 := by
    rw [Nat.div_lt_iff_lt_mul hp, mul_comm, ← pow_succ]
    exact Nat.mod_lt _ (Nat.two_pow_pos _)
  rw [hm, ← Nat.one_le_div_iff hp]
  omega

/-- The comparison is right for numbers at most half a turn apart. -/
theorem behind_iff (hk : k < n) (ha : Shows k a u) (hb : Shows k b v)
    (near : u < v + 2 ^ k) (near' : v ≤ u + 2 ^ k) : behind k a b ↔ u < v := by
  rw [behind_eq_testBit hk, testBit_iff_half]
  have hp : 2 ^ (k + 1) = 2 * 2 ^ k := by rw [pow_succ, mul_comm]
  have hx : (a - b).toNat + v ≡ u [MOD 2 ^ (k + 1)] :=
    ((Nat.ModEq.refl _).add hb.symm).trans ((sub_modEq hk).trans ha)
  rcases Nat.lt_or_ge u v with huv | huv
  · have h0 : (a - b).toNat ≡ 2 ^ (k + 1) - (v - u) [MOD 2 ^ (k + 1)] := by
      apply Nat.ModEq.add_right_cancel' v
      refine hx.trans ?_
      have he : 2 ^ (k + 1) - (v - u) + v = u + 2 ^ (k + 1) := by omega
      rw [he]
      simp [Nat.ModEq]
    rw [h0, Nat.mod_eq_of_lt (by omega)]
    omega
  · have h0 : (a - b).toNat ≡ u - v [MOD 2 ^ (k + 1)] := by
      apply Nat.ModEq.add_right_cancel' v
      rwa [Nat.sub_add_cancel huv]
    rw [h0, Nat.mod_eq_of_lt (by omega)]
    omega

theorem Shows.inj (ha : Shows k a u) (hb : Shows k b v) (hw : a.toNat < 2 ^ (k + 1))
    (hw' : b.toNat < 2 ^ (k + 1)) (near : u < v + 2 ^ (k + 1)) (near' : v < u + 2 ^ (k + 1)) :
    a = b ↔ u = v := by
  constructor
  · intro h
    have huv : u ≡ v [MOD 2 ^ (k + 1)] := ha.symm.trans (h ▸ hb)
    rcases Nat.le_total u v with hle | hle
    · obtain ⟨c, hc⟩ := (Nat.modEq_iff_dvd' hle).mp huv
      rcases c with _ | c
      · omega
      · rw [Nat.mul_succ] at hc; omega
    · obtain ⟨c, hc⟩ := (Nat.modEq_iff_dvd' hle).mp huv.symm
      rcases c with _ | c
      · omega
      · rw [Nat.mul_succ] at hc; omega
  · intro h
    apply BitVec.eq_of_toNat_eq
    exact Nat.ModEq.eq_of_lt_of_lt (ha.trans (h ▸ hb.symm)) hw hw'

end Okm6ullOta.SequenceRings
