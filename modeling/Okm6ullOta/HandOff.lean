import Okm6ullOta.BoardRuns
import Okm6ullOta.CommandLines

/-!
# What Linux is told about its slots

The command line names the slots boot.cmd has mapped, whatever the console
variables hold. The image which runs is the one of the named kernel slot unless
it did not load, in which case the script falls back to the unslotted image.
-/
namespace Okm6ullOta.HandOff
open BootEnvironment PowerCutScripts UBootCommands BootScript BootLog BootSteps LabelledRuns
open BoardRuns CommandLines

/-- The command line from its `root` argument on. -/
def slotArguments (kernel rootfs : Slot) : String :=
  "root=" ++ rootPartition rootfs ++ " " ++ ("rootwait rw quiet loglevel=3" ++ " " ++
    ("ota.slot=" ++ rootfs.letter ++ " " ++ ("ota.kernel_slot=" ++ kernel.letter ++ " " ++
      ("ota.rootfs_slot=" ++ rootfs.letter ++ " " ++ "panic=5"))))

theorem letter_no_blank (s : Slot) : ' ' ∉ s.letter.toList := by
  cases s <;> decide

theorem rootPartition_no_blank (s : Slot) : ' ' ∉ (rootPartition s).toList := by
  cases s <;> decide

theorem slotArguments_rootfs (k r : Slot) :
    argument "ota.rootfs_slot" (slotArguments k r) = some r.letter := by
  have hw : argument "ota.rootfs_slot" ("ota.rootfs_slot=" ++ r.letter) = some r.letter :=
    argument_self (by decide) (letter_no_blank r)
  have h := (argument_skip (show argument "ota.rootfs_slot" "panic=5" = none by decide) _).trans hw
  exact argument_override (argument_override (argument_override (argument_override h _) _) _) _

theorem slotArguments_kernel (k r : Slot) :
    argument "ota.kernel_slot" (slotArguments k r) = some k.letter := by
  have hw : argument "ota.kernel_slot" ("ota.kernel_slot=" ++ k.letter) = some k.letter :=
    argument_self (by decide) (letter_no_blank k)
  have hr :
      argument "ota.kernel_slot" ("ota.rootfs_slot=" ++ r.letter ++ " " ++ "panic=5") = none := by
    cases r <;> decide
  have h := (argument_skip hr _).trans hw
  exact argument_override (argument_override (argument_override h _) _) _

theorem slotArguments_root (k r : Slot) :
    argument "root" (slotArguments k r) = some (rootPartition r) := by
  have hw : argument "root" ("root=" ++ rootPartition r) = some (rootPartition r) :=
    argument_self (by decide) (rootPartition_no_blank r)
  have hs : argument "root" ("ota.slot=" ++ r.letter) = none := by cases r <;> decide
  have hk : argument "root" ("ota.kernel_slot=" ++ k.letter) = none := by cases k <;> decide
  have hr : argument "root" ("ota.rootfs_slot=" ++ r.letter) = none := by cases r <;> decide
  have hp : argument "root" "panic=5" = none := by decide
  have hq : argument "root" "rootwait rw quiet loglevel=3" = none := by decide
  simp only [slotArguments, argument_append, hw, hs, hk, hr, hp, hq, Option.none_or]

theorem ready_bootargs (e : Env) :
    ready e .bootargs = "console=" ++ e .console ++ "," ++ e .baudrate ++ " " ++
      slotArguments (Slot.select (e .kernel_slot)) (Slot.select (e .rootfs_slot)) := by
  rw [← String.toList_inj]
  simp [ready, prepared, mapped, expand, bootargsWord, slotArguments]

theorem told_kernel (e : Env) : argument "ota.kernel_slot" (ready e .bootargs) =
    some (Slot.select (e .kernel_slot)).letter := by
  rw [ready_bootargs]
  exact argument_override (slotArguments_kernel _ _) _

theorem told_rootfs (e : Env) : argument "ota.rootfs_slot" (ready e .bootargs) =
    some (Slot.select (e .rootfs_slot)).letter := by
  rw [ready_bootargs]
  exact argument_override (slotArguments_rootfs _ _) _

theorem told_root (e : Env) : argument "root" (ready e .bootargs) =
    some (rootPartition (Slot.select (e .rootfs_slot))) := by
  rw [ready_bootargs]
  exact argument_override (slotArguments_root _ _) _

theorem session_told_kernel {o : Outcomes} {d : Env} {l : List Event} {b : Board} {s : Session}
    (h : BootStep o d d l b) (hs : b.session = some s) :
    argument "ota.kernel_slot" s.bootargs = some (effective d .kernel).letter := by
  obtain ⟨before, e, he, -, rfl, -⟩ := boot_session h hs
  have hsel : Slot.select (e .kernel_slot) = effective d .kernel := he.select .kernel
  rw [told_kernel, hsel]

/-- The image is the one of the kernel slot which is told. -/
def TruthfulKernel (bootargs : String) (image : Option String) : Prop :=
  ∃ s, argument "ota.kernel_slot" bootargs = some s ∧ image = some ("zImage_" ++ s)

/-- The image of the kernel slot which is told did not load. -/
def UnslottedKernel (o : Outcomes) (bootargs : String) (image : Option String) : Prop :=
  ∃ s, argument "ota.kernel_slot" bootargs = some s ∧ o.loads ("zImage_" ++ s) = false ∧
    image = some "zImage"

/-- The root partition is the one of the rootfs slot which is told. -/
def TruthfulRoot (bootargs : String) : Prop :=
  argument "ota.rootfs_slot" bootargs = some "A" ∧
    argument "root" bootargs = some "/dev/mmcblk1p2" ∨
  argument "ota.rootfs_slot" bootargs = some "B" ∧
    argument "root" bootargs = some "/dev/mmcblk1p3"

theorem imageFile_eq (s : Slot) : imageFile s = "zImage_" ++ s.letter := by
  cases s <;> rfl

theorem firstLoaded_cases {o : Outcomes} {file fallback image : String}
    (h : firstLoaded o file fallback = some image) :
    image = file ∨ o.loads file = false ∧ image = fallback := by
  unfold firstLoaded at h
  split_ifs at h with h₁ h₂
  · exact .inl (Option.some.inj h).symm
  · exact .inr ⟨eq_false_of_ne_true h₁, (Option.some.inj h).symm⟩

theorem ready_truthful_root (e : Env) : TruthfulRoot (ready e .bootargs) := by
  rw [TruthfulRoot, told_rootfs, told_root]
  cases Slot.select (e .rootfs_slot)
  · exact .inl ⟨rfl, rfl⟩
  · exact .inr ⟨rfl, rfl⟩

theorem ready_kernel {o : Outcomes} {e : Env} (h : (kernelImage o e).isSome) :
    TruthfulKernel (ready e .bootargs) (kernelImage o e) ∨
      UnslottedKernel o (ready e .bootargs) (kernelImage o e) := by
  obtain ⟨image, hk⟩ := Option.isSome_iff_exists.mp h
  rw [hk]
  rcases firstLoaded_cases hk with rfl | ⟨hf, rfl⟩
  · exact .inl ⟨_, told_kernel e, by rw [imageFile_eq]⟩
  · rw [imageFile_eq] at hf
    exact .inr ⟨_, told_kernel e, hf, rfl⟩

/-- The outcomes of the boot which handed off with an update pending, as long as
no other update has been started in its session. -/
def watch (g : Option Outcomes) (b : Board) : Move → Option Outcomes
  | .boot o cut =>
    let b' := (execution bootCmd b.disk o cut).state.board
    if b'.session.isSome ∧ Pending b'.disk then some o else none
  | .altboot _ _ => none
  | .startOTA _ => none
  | .confirm => g

/-- The running kernel is what the boot loaded for the slot which is stored. -/
def Invariant (b : Board) (g : Option Outcomes) : Prop :=
  ∀ o, g = some o → ∃ s image, b.session = some s ∧ s.kernel = some image ∧
    firstLoaded o (imageFile (effective b.disk .kernel)) "zImage" = some image

theorem boot_invariant {b b' : Board} {g : Option Outcomes} {o : Outcomes} {cut : ℕ}
    (hn : next b (.boot o cut) = some b') : Invariant b' (watch g b (.boot o cut)) := by
  have hb := boot_move hn
  obtain rfl := Option.some.inj hn
  simp only [watch]
  generalize (execution bootCmd b.disk o cut).state.board = b' at hb ⊢
  generalize log b (.boot o cut) = l at hb
  split_ifs with h
  · obtain ⟨hs, hp⟩ := h
    obtain ⟨s, hs⟩ := Option.isSome_iff_exists.mp hs
    obtain ⟨before, e, he, hm, hse, hd⟩ := boot_session hb hs
    obtain ⟨-, -, -, -, -, -, hk, -⟩ := boot_booting hb hm
    obtain ⟨image, hi⟩ := Option.isSome_iff_exists.mp hk
    intro o' ho
    obtain rfl := Option.some.inj ho
    refine ⟨s, image, hs, hi, ?_⟩
    cases he with
    | trial hq hx =>
      have hslot := counted_slot_ne_empty b.disk .kernel
      rw [hd, if_pos hq, effective, orDefault_of_ne hslot, ← hi, hse]
      rfl
    | normal hq =>
      rw [hd, if_neg hq, rested_pending, ← settled_pending] at hp
      exact (hq hp).elim
  · intro o' ho
    cases ho

theorem step_invariant {b b' : Board} {g : Option Outcomes} {m : Move} (hi : Invariant b g)
    (hn : next b m = some b') : Invariant b' (watch g b m) := by
  cases m with
  | boot o cut => exact boot_invariant hn
  | altboot o cut =>
    intro o' ho
    cases ho
  | startOTA w =>
    intro o' ho
    cases ho
  | confirm =>
    obtain ⟨-, rfl⟩ := confirm_move hn
    intro o ho
    rw [confirmed_effective]
    exact hi o ho

theorem run_invariant {d : Env} {ms : List Move} {p : Board × Option Outcomes}
    (run : Run (Watched (Step fun _ _ => True) watch) (⟨d, none⟩, none) ms p) :
    Invariant p.1 p.2 := by
  refine run.watched (I := Invariant) ?_ fun _ _ _ _ hi hs => step_invariant hi hs.2
  intro o ho
  cases ho

/-- A `bootz` runs the image of the kernel slot it tells Linux, or the unslotted
image where that one did not load, and tells the partition of the rootfs slot. A
confirm commits a kernel slot whose image was the one which ran, or did not load. -/
theorem truthful_handOff {d : Env} {ms : List Move} {b : Board} {g : Option Outcomes}
    (run : Run (Watched (Step fun _ _ => True) watch) (⟨d, none⟩, none) ms (b, g)) :
    (∀ o cut ram k, .booting ram k ∈ log b (.boot o cut) →
      (TruthfulKernel (ram .bootargs) k ∨ UnslottedKernel o (ram .bootargs) k) ∧
        TruthfulRoot (ram .bootargs)) ∧
    (∀ o, g = some o → ∃ s slot b', b.session = some s ∧ next b .confirm = some b' ∧
      ¬ Pending b'.disk ∧ effective b'.disk .kernel = slot ∧
      (s.kernel = some ("zImage_" ++ slot.letter) ∨
        o.loads ("zImage_" ++ slot.letter) = false ∧ s.kernel = some "zImage")) := by
  constructor
  · intro o cut ram k hm
    obtain ⟨before, rest, e, -, -, rfl, hk, rfl⟩ := boot_booting (boot_move rfl) hm
    exact ⟨ready_kernel hk, ready_truthful_root e⟩
  · intro o ho
    obtain ⟨s, image, hs, hk, hl⟩ := run_invariant run o ho
    refine ⟨s, effective b.disk .kernel, _, hs, confirm_next (by rw [hs]; rfl),
      confirmed_not_pending _, by rw [confirmed_effective], ?_⟩
    rw [hk, ← imageFile_eq]
    rcases firstLoaded_cases hl with rfl | ⟨hf, rfl⟩
    · exact .inl rfl
    · exact .inr ⟨hf, rfl⟩

theorem truthful_handOff_kernel_update : ∃ b o s,
    Run (Watched (Step fun _ _ => True) watch) (⟨Env.fresh, none⟩, none) threeTrials (b, some o) ∧
    b.session = some s ∧ s.kernel = some "zImage_B" := by
  obtain ⟨⟨b, g⟩, run, hq⟩ : ∃ q : Board × Option Outcomes,
      Run (Watched (Step fun _ _ => True) watch) (⟨Env.fresh, none⟩, none) threeTrials q ∧
      decide (q.2.any (fun o => o.loads "zImage_B") ∧
        effective (confirmed q.1.disk) .kernel = .B) :=
    guarded_run (c := fun _ _ => true) (fun _ _ _ => trivial) _ _ _ (by decide)
  obtain ⟨hl, he⟩ := of_decide_eq_true hq
  obtain ⟨o, rfl, hl⟩ := (Option.any_eq_true ..).mp hl
  obtain ⟨s, slot, b', hs, hn, -, rfl, hk⟩ := (truthful_handOff run).2 o rfl
  obtain ⟨-, rfl⟩ := confirm_move hn
  rw [he] at hk
  rcases hk with hk | ⟨hf, -⟩
  · exact ⟨b, o, s, run, hs, hk⟩
  · cases hl.symm.trans hf

/-- A boot partition whose kernel was never slotted. -/
def unslotted : Outcomes :=
  ⟨fun f => f = "zImage" ∨ f = "imx6ull-14x14-evk.dtb", fun _ => true, false⟩

/-- A confirm commits a kernel which never ran, if its image did not load, or if it
is the one of another update which was started in the session. -/
theorem never_ran_confirmed :
    (∃ b s, Run (Step fun _ _ => True) ⟨Env.fresh, none⟩
        [.boot everyFile 100, .startOTA kernelUpdate, .boot unslotted 100] b ∧
      b.session = some s ∧ argument "ota.kernel_slot" s.bootargs = some "B" ∧
      s.kernel = some "zImage" ∧ Pending b.disk ∧ effective (confirmed b.disk) .kernel = .B) ∧
    ∃ b s, Run (Step fun _ _ => True) ⟨Env.fresh, none⟩
        [.boot everyFile 100, .startOTA kernelUpdate, .boot everyFile 100, .confirm,
          .startOTA (oneComponent .kernel "A" "B")] b ∧
      b.session = some s ∧ s.kernel = some "zImage_B" ∧ Pending b.disk ∧
      effective (confirmed b.disk) .kernel = .A := by
  constructor
  · obtain ⟨b, run, hq⟩ := free_run _ _
      (fun b : Board => decide (effective b.disk .kernel = .B) &&
        (next b (.boot unslotted 100)).any fun b : Board => b.session.any fun s : Session =>
          decide (s.kernel = some "zImage" ∧ Pending b.disk ∧
            effective (confirmed b.disk) .kernel = .B))
      (show (replay (tested (fun _ _ => true) next) ⟨Env.fresh, none⟩
        [.boot everyFile 100, .startOTA kernelUpdate]).any _ by decide)
    rw [Bool.and_eq_true, decide_eq_true_eq] at hq
    obtain ⟨hB, hq⟩ := hq
    obtain ⟨b', hn, hq⟩ := (Option.any_eq_true ..).mp hq
    obtain ⟨s, hs, hq⟩ := (Option.any_eq_true ..).mp hq
    have ht := session_told_kernel (boot_move hn) hs
    rw [hB] at ht
    exact ⟨b', s, run.snoc ⟨trivial, hn⟩, hs, ht, of_decide_eq_true hq⟩
  · obtain ⟨b, run, hq⟩ := free_run _ _
      (fun b : Board => b.session.any fun s : Session => decide (s.kernel = some "zImage_B" ∧
        Pending b.disk ∧ effective (confirmed b.disk) .kernel = .A))
      (show (replay (tested (fun _ _ => true) next) ⟨Env.fresh, none⟩
        [.boot everyFile 100, .startOTA kernelUpdate, .boot everyFile 100, .confirm,
          .startOTA (oneComponent .kernel "A" "B")]).any _ by decide)
    obtain ⟨s, hs, hq⟩ := (Option.any_eq_true ..).mp hq
    exact ⟨b, s, run, hs, of_decide_eq_true hq⟩

end Okm6ullOta.HandOff
