import Mathlib.Logic.Equiv.Basic
import Okm6ullOta.StreamCiphers

/-!
# The RC4 generator of the Wi-Fi driver

arcfour_init, arcfour_byte and arcfour_encrypt of core/rtw_security.c. The indices into the
state are masked with 0xff in every place, so they are bytes, and so are the sums which
make them.
-/
namespace Okm6ullOta.Arc4
open StreamCiphers

abbrev Byte := BitVec 8

structure Arc4context where
  x : Byte
  y : Byte
  state : Byte → Byte

/-- The locals of arcfour_init. -/
structure KeySetup where
  state : Byte → Byte
  keyindex : ℕ
  stateindex : Byte

def keyTurn (key : List Byte) (key_len : ℕ) (s : KeySetup) (counter : ℕ) : KeySetup :=
  let t := s.state (BitVec.ofNat 8 counter)
  let stateindex := s.stateindex + key.getD s.keyindex 0 + t
  let u := s.state stateindex
  { state := Function.update (Function.update s.state stateindex t) (BitVec.ofNat 8 counter) u
    keyindex := if s.keyindex + 1 ≥ key_len then 0 else s.keyindex + 1
    stateindex := stateindex }

def keySetup (key : List Byte) (key_len : ℕ) : KeySetup :=
  (List.range 256).foldl (keyTurn key key_len) ⟨id, 0, 0⟩

def arcfourInit (key : List Byte) (key_len : ℕ) : Arc4context :=
  ⟨0, 0, (keySetup key key_len).state⟩

def arcfourByte (c : Arc4context) : Byte × Arc4context :=
  let x := c.x + 1
  let sx := c.state x
  let y := sx + c.y
  let sy := c.state y
  let state := Function.update (Function.update c.state y sx) x sy
  (state (sx + sy), ⟨x, y, state⟩)

/-- `dest` and the context after it, from `src`. Where the code encrypts in place, every
byte is read before it is overwritten. -/
def arcfourEncrypt : Arc4context → List Byte → List Byte × Arc4context := mask arcfourByte

variable {c : Arc4context} {s : KeySetup} {key key' : List Byte} {key_len n : ℕ} {f : Byte → Byte}

/-- Two entries of the state are exchanged. -/
theorem exchanged (h : Function.Bijective f) (i j : Byte) :
    Function.Bijective (Function.update (Function.update f i (f j)) j (f i)) := by
  rw [← Equiv.comp_swap_eq_update]
  exact h.comp (Equiv.bijective _)

theorem keyTurn_bijective (h : Function.Bijective s.state) (counter : ℕ) :
    Function.Bijective (keyTurn key key_len s counter).state := exchanged h _ _

theorem keySetup_bijective (l : List ℕ) (h : Function.Bijective s.state) :
    Function.Bijective (l.foldl (keyTurn key key_len) s).state := by
  induction l generalizing s with
  | nil => exact h
  | cons n l ih => exact ih (keyTurn_bijective h n)

/-- The state is a permutation of the bytes. -/
def Permuted (c : Arc4context) : Prop := Function.Bijective c.state

theorem arcfourByte_permuted (c : Arc4context) (h : Permuted c) : Permuted (arcfourByte c).2 :=
  exchanged h _ _

theorem arcfourEncrypt_permuted (text : List Byte) (h : Permuted c) :
    Permuted (arcfourEncrypt c text).2 := mask_invariant arcfourByte_permuted h

/-- Whatever the key and whatever has been encrypted. -/
theorem state_permutation (key : List Byte) (key_len : ℕ) (texts : List (List Byte)) :
    Permuted (texts.foldl (fun c text => (arcfourEncrypt c text).2) (arcfourInit key key_len)) := by
  suffices ∀ c, Permuted c → Permuted (texts.foldl (fun c text => (arcfourEncrypt c text).2) c) from
    this _ (keySetup_bijective _ Function.bijective_id)
  induction texts with
  | nil => exact fun c h => h
  | cons text texts ih => exact fun c h => ih _ (arcfourEncrypt_permuted text h)

end Okm6ullOta.Arc4
