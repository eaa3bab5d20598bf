import Mathlib.Tactic.Common

/-!
# Updates on trial

What an updater with a trial period is for, over arbitrary persisted states `D`
and versions `S`. A version is confirmed or on trial; the ledger records the
last confirmed version and the last one put on trial. Between the actions of
the updater the persisted state may only be kept up, or fall back: while a
trial is pending it shows the target and knows the way back, otherwise it shows
the confirmed version.
-/
namespace Okm6ullOta.TrialUpdates

structure Ledger (S : Type*) where
  good : S
  target : S

namespace Ledger
variable {S : Type*}

def start (l : Ledger S) (t : S) : Ledger S := { l with target := t }

def confirm (l : Ledger S) : Ledger S := { l with good := l.target }

end Ledger

/-- How a persisted state shows its versions. `restores d s` says that every
rollback procedure started from `d` returns to `s`. -/
structure View (D S : Type*) where
  pending : D → Prop
  current : D → S
  restores : D → S → Prop

namespace View
variable {D S : Type*} (v : View D S)

structure Agrees (l : Ledger S) (d : D) : Prop where
  trial : v.pending d → v.current d = l.target ∧ v.restores d l.good
  settled : ¬ v.pending d → v.current d = l.good

structure Kept (d e : D) : Prop where
  pending : v.pending e ↔ v.pending d
  current : v.current e = v.current d
  restores : ∀ s, v.restores d s → v.restores e s

structure FellBack (d e : D) : Prop where
  pending : v.pending d
  settled : ¬ v.pending e
  current : ∀ s, v.restores d s → v.current e = s

/-- What may happen to the persisted state without the updater. -/
def Upkeep (d e : D) : Prop := v.Kept d e ∨ v.FellBack d e

variable {v} {l : Ledger S} {d e f : D}

theorem Kept.refl (d : D) : v.Kept d d := ⟨Iff.rfl, rfl, fun _ => id⟩

theorem Kept.trans (h : v.Kept d e) (k : v.Kept e f) : v.Kept d f :=
  ⟨k.pending.trans h.pending, k.current.trans h.current,
    fun s hs => k.restores s (h.restores s hs)⟩

theorem Kept.fellBack (h : v.Kept d e) (k : v.FellBack e f) : v.FellBack d f :=
  ⟨h.pending.mp k.pending, k.settled, fun s hs => k.current s (h.restores s hs)⟩

theorem Kept.upkeep (h : v.Kept d e) (k : v.Upkeep e f) : v.Upkeep d f :=
  k.imp h.trans h.fellBack

theorem Agrees.kept (h : v.Agrees l d) (k : v.Kept d e) : v.Agrees l e where
  trial hp := by
    obtain ⟨hc, hr⟩ := h.trial (k.pending.mp hp)
    exact ⟨k.current.trans hc, k.restores _ hr⟩
  settled hp := k.current.trans (h.settled fun hd => hp (k.pending.mpr hd))

theorem Agrees.fellBack (h : v.Agrees l d) (k : v.FellBack d e) : v.Agrees l e where
  trial hp := (k.settled hp).elim
  settled _ := k.current _ (h.trial k.pending).2

theorem Agrees.upkeep (h : v.Agrees l d) (k : v.Upkeep d e) : v.Agrees l e :=
  k.elim h.kept h.fellBack

/-- Starting a trial from a settled state needs the way back to what it shows. -/
theorem Agrees.start (h : v.Agrees l d) (hd : ¬ v.pending d) (he : v.pending e)
    (back : v.restores e (v.current d)) : v.Agrees (l.start (v.current e)) e where
  trial _ := ⟨rfl, h.settled hd ▸ back⟩
  settled hp := (hp he).elim

theorem Agrees.confirm (h : v.Agrees l d) (hd : v.pending d) (he : ¬ v.pending e)
    (same : v.current e = v.current d) : v.Agrees l.confirm e where
  trial hp := (he hp).elim
  settled _ := same.trans (h.trial hd).1

end View
end Okm6ullOta.TrialUpdates
