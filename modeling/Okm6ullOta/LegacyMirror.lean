import Okm6ullOta.HandOff

/-!
# The legacy boot_slot in the stored environment

boot.cmd sets boot_slot to the rootfs slot after its last save of a boot which
hands off, so what other tools read is what the boot has found, with the default
of an unset variable where some save of the boot has stored it.
-/
namespace Okm6ullOta.LegacyMirror
open BootEnvironment PowerCutScripts UBootCommands BootScript BootLog BootSteps LabelledRuns
open BoardRuns CommandLines HandOff

/-- A boot which loads `r` and reaches the slot mapping saves the environment. -/
def Saves (r : Env) : Prop := r .ota_env_ready ≠ "2" ∨ Pending r ∨ r .ota_try ≠ "0"

instance (r : Env) : Decidable (Saves r) := inferInstanceAs (Decidable (_ ∨ _ ∨ _))

/-- The legacy variable names the rootfs slot in use, by a stored value or by a
default which the boot stores. -/
def Mirrored (r : Env) : Prop :=
  orDefault (r .boot_slot) "A" = (effective r .rootfs).letter ∧ (r .boot_slot = "" → Saves r)

instance (r : Env) : Decidable (Mirrored r) := inferInstanceAs (Decidable (_ ∧ _))

/-- The value other tools read after a boot which loads `r` and hands off. -/
def leftOver (r : Env) : String :=
  if Saves r then orDefault (r .boot_slot) "A" else r .boot_slot

theorem leftOver_eq_letter (r : Env) :
    leftOver r = (effective r .rootfs).letter ↔ Mirrored r := by
  unfold leftOver Mirrored
  split_ifs with hs
  · simp [hs]
  · by_cases hb : r .boot_slot = ""
    · have hn := Slot.letter_ne_empty (effective r .rootfs)
      simp [hb, hs, hn.symm]
    · rw [orDefault_of_ne hb]
      simp [hb]

theorem counted_boot_slot (e : Env) : counted e .boot_slot = e .boot_slot := by
  simp [counted]

theorem rested_boot_slot {r : Env} (hp : ¬ Pending r) : rested r r .boot_slot = leftOver r := by
  have ht : settled r .ota_try = r .ota_try := settled_of_ne r (by decide)
  unfold rested stored leftOver Saves
  rw [ht]
  by_cases h₁ : r .ota_try = "0"
  · by_cases h₂ : r .ota_env_ready = "2"
    · simp [h₁, h₂, hp]
    · simp [h₁, h₂, settled_boot_slot]
  · simp [h₁, cleared, settled_boot_slot]

/-- What a boot which hands off tells Linux, and what it leaves for other tools. -/
theorem session_mirror {o : Outcomes} {r : Env} {l : List Event} {b : Board} {s : Session}
    (h : BootStep o r r l b) (hs : b.session = some s) :
    argument "ota.rootfs_slot" s.bootargs = some (effective r .rootfs).letter ∧
      b.disk .boot_slot = leftOver r := by
  obtain ⟨before, e, he, -, rfl, hd⟩ := boot_session h hs
  constructor
  · have hsel : Slot.select (e .rootfs_slot) = effective r .rootfs := he.select .rootfs
    rw [told_rootfs, hsel]
  · rw [hd]
    split_ifs with hp
    · have hsaves : Saves r := .inr (.inl ((settled_pending r).mp hp))
      rw [counted_boot_slot, settled_boot_slot, leftOver, if_pos hsaves]
    · exact rested_boot_slot fun h => hp ((settled_pending r).mpr h)

/-- The environment the last boot has loaded. -/
def watch (r : Env) (b : Board) : Move → Env
  | .boot _ _ => b.disk
  | _ => r

def Invariant (b : Board) (r : Env) : Prop :=
  ∀ s, b.session = some s →
    argument "ota.rootfs_slot" s.bootargs = some (effective r .rootfs).letter ∧
      b.disk .boot_slot = leftOver r

theorem step_invariant {b b' : Board} {r : Env} {m : Move} (hi : Invariant b r)
    (hn : next b m = some b') : Invariant b' (watch r b m) := by
  intro s hs
  cases m with
  | boot o cut => exact session_mirror (boot_move hn) hs
  | altboot o cut =>
    obtain ⟨-, rfl | rfl⟩ := altboot_move hn
    · cases hs
    · cases hs
  | startOTA w =>
    obtain ⟨-, rfl⟩ := startOTA_move hn
    have hb : w.apply b.disk .boot_slot = b.disk .boot_slot := apply_of_ne w _ (by decide)
    obtain ⟨ht, hl⟩ := hi s hs
    exact ⟨ht, hb.trans hl⟩
  | confirm =>
    obtain ⟨-, rfl⟩ := confirm_move hn
    have hb : confirmed b.disk .boot_slot = b.disk .boot_slot := confirmed_of_ne (by decide) _
    obtain ⟨ht, hl⟩ := hi s hs
    exact ⟨ht, hb.trans hl⟩

theorem run_invariant {d r : Env} {ms : List Move} {p : Board × Env}
    (run : Run (Watched (Step fun _ _ => True) watch) (⟨d, none⟩, r) ms p) :
    Invariant p.1 p.2 := by
  refine run.watched (I := Invariant) ?_ fun _ _ _ _ hi hs => step_invariant hi hs.2
  intro s hs
  cases hs

/-- In every state with Linux in control, the stored boot_slot is the rootfs slot
it was told if and only if the environment its boot had loaded was mirrored. -/
theorem mirror_iff {d r₀ r : Env} {ms : List Move} {b : Board} {s : Session}
    (run : Run (Watched (Step fun _ _ => True) watch) (⟨d, none⟩, r₀) ms (b, r))
    (hs : b.session = some s) :
    argument "ota.rootfs_slot" s.bootargs = some (b.disk .boot_slot) ↔ Mirrored r := by
  obtain ⟨ht, hb⟩ := run_invariant run s hs
  rw [ht, hb, Option.some.injEq, ← leftOver_eq_letter, eq_comm]

theorem mirror_iff_kernel_update : ∃ b r s,
    Run (Watched (Step fun _ _ => True) watch) (⟨Env.fresh, none⟩, Env.fresh) threeTrials (b, r) ∧
    b.session = some s ∧ argument "ota.rootfs_slot" s.bootargs = some (b.disk .boot_slot) := by
  obtain ⟨⟨b, r⟩, run, hq⟩ : ∃ q : Board × Env,
      Run (Watched (Step fun _ _ => True) watch) (⟨Env.fresh, none⟩, Env.fresh) threeTrials q ∧
      decide (q.1.session.isSome ∧ Mirrored q.2) :=
    guarded_run (c := fun _ _ => true) (fun _ _ _ => trivial) _ _ _ (by decide)
  obtain ⟨hs, hm⟩ := of_decide_eq_true hq
  obtain ⟨s, hs⟩ := Option.isSome_iff_exists.mp hs
  exact ⟨b, r, s, run, hs, (mirror_iff run hs).mpr hm⟩

/-- After an update of the rootfs the stored boot_slot still names the old one. -/
theorem stale_mirror : ¬ ∀ (ms : List Move) (b : Board) (r : Env) (s : Session),
    Run (Watched (Step fun _ _ => True) watch) (⟨Env.fresh, none⟩, Env.fresh) ms (b, r) →
    b.session = some s → argument "ota.rootfs_slot" s.bootargs = some (b.disk .boot_slot) := by
  intro h
  obtain ⟨⟨b, r⟩, run, hq⟩ : ∃ q : Board × Env,
      Run (Watched (Step fun _ _ => True) watch) (⟨Env.fresh, none⟩, Env.fresh)
        [.boot everyFile 100, .startOTA (oneComponent .rootfs "B" "A"), .boot everyFile 100] q ∧
      decide (q.1.session.isSome ∧ effective q.2 .rootfs = .B ∧ q.1.disk .boot_slot = "A") :=
    guarded_run (c := fun _ _ => true) (fun _ _ _ => trivial) _ _ _ (by decide)
  obtain ⟨hs, he, hb⟩ := of_decide_eq_true hq
  obtain ⟨s, hs⟩ := Option.isSome_iff_exists.mp hs
  have ht := (run_invariant run s hs).1
  rw [h _ b r s run hs, hb, he] at ht
  exact absurd ht (by decide)

end Okm6ullOta.LegacyMirror
