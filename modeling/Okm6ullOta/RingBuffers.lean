import Mathlib.Tactic.Common
import Mathlib.Data.List.Basic
import Mathlib.Data.Nat.ModEq

/-!
# Rings of cells

The cells of an array are used one behind the other and again from the first one on. What
is held from a place on is a list, which grows at its end by a store behind it and loses
its head by a move of the place.
-/
namespace Okm6ullOta.RingBuffers

variable {α : Type*} {size read n : ℕ} {bufs : ℕ → α} {x : α}

/-- The `n` cells from `read` on. -/
def held (size : ℕ) (bufs : ℕ → α) (read n : ℕ) : List α :=
  (List.range n).map fun i => bufs ((read + i) % size)

@[simp] theorem held_zero : held size bufs read 0 = [] := rfl

@[simp] theorem held_length : (held size bufs read n).length = n := by simp [held]

theorem held_succ (h : read < size) :
    held size bufs read (n + 1) = bufs read :: held size bufs ((read + 1) % size) n := by
  rw [held, List.range_succ_eq_map, List.map_cons, List.map_map, Nat.add_zero,
    Nat.mod_eq_of_lt h, held]
  congr 1
  refine List.map_congr_left fun i _ => ?_
  rw [Function.comp_apply, Nat.mod_add_mod, Nat.add_assoc, Nat.add_comm 1]

/-- No two of the places within one turn are the same. -/
theorem place_inj {i j : ℕ} (hi : i < size) (hj : j < size)
    (h : (read + i) % size = (read + j) % size) : i = j := by
  have hm : i ≡ j [MOD size] := Nat.ModEq.add_left_cancel' read h
  exact Nat.ModEq.eq_of_lt_of_lt hm hi hj

theorem held_snoc :
    held size bufs read (n + 1) = held size bufs read n ++ [bufs ((read + n) % size)] := by
  rw [held, List.range_succ, List.map_append, List.map_singleton, held]

/-- A store behind what is held changes nothing of it. -/
theorem held_update (h : n < size) :
    held size (Function.update bufs ((read + n) % size) x) read n = held size bufs read n := by
  refine List.map_congr_left fun i hi => Function.update_of_ne (fun he => ?_) _ _
  have := List.mem_range.mp hi
  have := place_inj (by omega) h he
  omega

end Okm6ullOta.RingBuffers
