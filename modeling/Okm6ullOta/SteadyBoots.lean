import Okm6ullOta.BoardRuns

/-!
# Boots with no update pending

Defaults and normalised slots are computed in RAM, and only the two saves of the
script store some of them. After one boot which is not cut, what is stored is a
fixed point: later boots save nothing and select what the first one selected,
whatever they load and wherever they are cut.
-/
namespace Okm6ullOta.SteadyBoots
open BootEnvironment PowerCutScripts UBootCommands BootScript BootLog BootSteps LabelledRuns
open BoardRuns
open Script (block)

/-- boot.cmd as far as the slots are mapped. -/
def selection : Script Cmd := block [
  echo "Running OKM6ULL OTA boot script",
  slotDefaults,
  installAltbootcmd,
  otaPending,
  mapSlots]

/-- The rest of boot.cmd. -/
def loading : Script Cmd := block [loadKernel, loadDtb, handOff]

theorem bootCmd_eq : bootCmd = selection.seq loading := rfl

/-- An execution which has only to load and boot what `ota_kernel` and `ota_root`
hold in RAM, if its power is not cut before. -/
def Selects (d : Env) (o : Outcomes) (cut : ℕ) (kernel root : String) : Prop :=
  ∃ n ≤ cut, (execution bootCmd d o n).script = loading ∧
    (execution bootCmd d o n).state.ram .ota_kernel = kernel ∧
    (execution bootCmd d o n).state.ram .ota_root = root

theorem eval_selection (o : Outcomes) {m : Machine} (hp : ¬ Pending m.ram) :
    (eval (exec o) selection m).state.ram = mapped (cleared (settled m.ram)) ∧
      (eval (exec o) selection m).halted = false := by
  have he : installed (defaulted m.ram) = settled m.ram := rfl
  have hs : ¬ Pending (settled m.ram) := fun h => hp ((settled_pending m.ram).mp h)
  rw [selection, eval_block_cons, BootScript.echo, eval_echo, andThen_quiet, eval_block_cons,
    eval_slotDefaults, inRam_andThen, eval_block_cons, eval_installAltbootcmd, andThen_running,
    he, eval_block_cons, eval_otaPending, if_neg hs, logged, andThen_running, eval_block_one,
    eval_mapSlots]
  simp only [inRam, and_self]

variable {d : Env} {o : Outcomes} {cut : ℕ}

theorem mapped_selection (hp : ¬ Pending d) :
    mapped (cleared (settled d)) .ota_kernel = imageFile (effective d .kernel) ∧
      mapped (cleared (settled d)) .ota_root = rootPartition (effective d .rootfs) := by
  have h := Reaches.normal fun h => hp ((settled_pending d).mp h)
  have hk : Slot.select (cleared (settled d) .kernel_slot) = effective d .kernel := h.select .kernel
  have hr : Slot.select (cleared (settled d) .rootfs_slot) = effective d .rootfs := h.select .rootfs
  constructor
  · simp [mapped, hk]
  · simp [mapped, hr]

theorem loading_ne_done : loading ≠ .done := nofun

/-- Where nothing is pending, only the stored slots decide. -/
theorem Selects.eq {kernel root : String} (h : Selects d o cut kernel root) (hp : ¬ Pending d) :
    kernel = imageFile (effective d .kernel) ∧ root = rootPartition (effective d .rootfs) := by
  obtain ⟨n, -, hn, rfl, rfl⟩ := h
  obtain ⟨hr, hh⟩ := eval_selection (m := Machine.start d d) o hp
  have hs : (execution bootCmd d o n).state = (eval (exec o) selection (Machine.start d d)).state :=
    after_point (exec o) hh loading_ne_done hn
  rw [hs, hr]
  exact mapped_selection hp

theorem selects (hp : ¬ Pending d) (hc : bootCmd.size ≤ cut) :
    Selects d o cut (imageFile (effective d .kernel)) (rootPartition (effective d .rootfs)) := by
  obtain ⟨hr, hh⟩ := eval_selection (m := Machine.start d d) o hp
  obtain ⟨n, hn, ha⟩ := after_reaches (exec o) loading hh
  have he : execution bootCmd d o n = ⟨loading, (eval (exec o) selection (Machine.start d d)).state,
      (eval (exec o) selection (Machine.start d d)).log⟩ := ha
  have hl : selection.size ≤ bootCmd.size := by
    rw [bootCmd_eq, Script.size_seq]
    exact Nat.le_add_right _ _
  refine ⟨n, hn.trans (hl.trans hc), ?_⟩
  rw [he, hr]
  exact ⟨rfl, mapped_selection hp⟩

def isSave : Event → Bool
  | .saved _ => true
  | _ => false

def saves (l : List Event) : ℕ := l.countP isSave

theorem saves_append (l m : List Event) : saves (l ++ m) = saves l + saves m :=
  List.countP_append

theorem saves_installLog (e : Env) :
    saves (installLog e) = if e .ota_env_ready = "2" then 0 else 1 := by
  unfold installLog
  split_ifs <;> rfl

theorem saves_clearLog (e : Env) : saves (clearLog e) = if e .ota_try = "0" then 0 else 1 := by
  unfold clearLog
  split_ifs <;> rfl

theorem tail_saves {e d : Env} {l : List Event} {b : Board} (h : TailStep o e d l b)
    (hp : ¬ Pending e) : saves l = 0 := by
  cases h with
  | fellBack hk hr => exact absurd ((ready_pending e).mp hr) hp
  | _ => rfl

/-- What a boot with nothing pending leaves: it is cut before its first save or
before its second one, or it goes through the slot mapping. -/
theorem idle_step {l : List Event} {b : Board} (h : BootStep o d d l b) (hp : ¬ Pending d) :
    (l = [] ∧ b.disk = d) ∨ (l = installLog (defaulted d) ∧ b.disk = stored d d) ∨
      ∃ m, l = installLog (defaulted d) ++ (clearLog (settled d) ++ m) ∧ saves m = 0 ∧
        b.disk = rested d d := by
  have hs : ¬ Pending (settled d) := fun h => hp ((settled_pending d).mp h)
  have hc : ¬ Pending (cleared (settled d)) := fun h => hs ((cleared_pending _).mp h)
  cases h with
  | off => exact .inl ⟨rfl, rfl⟩
  | migrated => exact .inr (.inl ⟨rfl, rfl⟩)
  | counting h => exact absurd h hs
  | exhausted h => exact absurd h hs
  | gaveUp h => exact absurd h hs
  | trial h => exact absurd h hs
  | normal _ ht =>
    exact .inr (.inr ⟨_, rfl, tail_saves ht hc, normal_disk ht hs⟩)

/-- With nothing pending there are two places which save. -/
theorem boot_saves {l : List Event} {b : Board} (h : BootStep o d d l b) (hp : ¬ Pending d) :
    saves l ≤ saves (installLog (defaulted d)) + saves (clearLog (settled d)) := by
  rcases idle_step h hp with ⟨rfl, -⟩ | ⟨rfl, -⟩ | ⟨m, rfl, hm, -⟩
  · exact Nat.zero_le _
  · exact Nat.le_add_right _ _
  · rw [saves_append, saves_append, hm, Nat.add_zero]

/-- Nothing is pending, and neither save fires. -/
structure Quiet (d : Env) : Prop where
  idle : ¬ Pending d
  ready : d .ota_env_ready = "2"
  clear : d .ota_try = "0"

theorem settled_try (d : Env) : settled d .ota_try = d .ota_try :=
  settled_of_ne d (by decide)

theorem quiet_rested (hp : ¬ Pending d) : Quiet (rested d d) where
  idle := fun h => hp ((rested_pending d).mp h)
  ready := by
    unfold rested stored
    split_ifs with h₁ h₂
    · exact h₂
    · exact settled_ready d
    · rw [cleared, Env.set_of_ne (by decide)]
      exact settled_ready d
  clear := by
    unfold rested stored
    split_ifs with h₁ h₂
    · exact (settled_try d).symm.trans h₁
    · exact h₁
    · exact Env.set_self ..

theorem rested_effective (d : Env) : effective (rested d d) = effective d := by
  unfold rested
  split_ifs
  · exact stored_effective d
  · rw [cleared, set_try_effective, settled_effective]

theorem Quiet.stored (h : Quiet d) : stored d d = d := if_pos h.ready

theorem Quiet.rested (h : Quiet d) : rested d d = d := by
  rw [BootSteps.rested, settled_try, if_pos h.clear, h.stored]

theorem Quiet.disk (h : Quiet d) {l : List Event} {b : Board} (hb : BootStep o d d l b) :
    b.disk = d := by
  rcases idle_step hb h.idle with ⟨-, hd⟩ | ⟨-, hd⟩ | ⟨m, -, -, hd⟩
  · exact hd
  · rw [hd, h.stored]
  · rw [hd, h.rested]

theorem Quiet.saves (h : Quiet d) {l : List Event} {b : Board} (hb : BootStep o d d l b) :
    saves l = 0 := by
  have hd : defaulted d .ota_env_ready = "2" := by simp [defaulted, fill_of_ne, h.ready]
  have hl := boot_saves hb h.idle
  rw [saves_installLog, if_pos hd, saves_clearLog, settled_try, if_pos h.clear] at hl
  exact Nat.le_zero.mp hl

theorem full_disk {b : Board} (h : FullStep o d d b) (hp : ¬ Pending d) :
    b.disk = rested d d := by
  have hs : ¬ Pending (settled d) := fun h => hp ((settled_pending d).mp h)
  cases h with
  | gaveUp h => exact absurd h hs
  | trial h => exact absurd h hs
  | normal _ ht => exact normal_disk ht hs

theorem first_disk {b b' : Board} (hp : ¬ Pending b.disk) (hc : bootCmd.size ≤ cut)
    (h : next b (.boot o cut) = some b') : b'.disk = rested b.disk b.disk := by
  obtain rfl := Option.some.inj h
  have hl : (execution bootCmd b.disk o cut).log = bootLog o b.disk := boot_log_size hc
  rw [execution_board, hl]
  exact full_disk (full_step o b.disk b.disk) hp

/-- Linux writes nothing between the boots. -/
def Boots (_ : Board) : Move → Prop
  | .boot _ _ => True
  | _ => False

theorem step_disk {b b' : Board} {m : Move} (hq : Quiet b.disk) (h : Step Boots b m b') :
    b'.disk = b.disk := by
  obtain ⟨hm, hn⟩ := h
  cases m with
  | boot o cut => exact hq.disk (boot_move hn)
  | _ => exact hm.elim

theorem run_disk {b b' : Board} {ls : List Move} (hq : Quiet b.disk)
    (h : Run (Step Boots) b ls b') : b'.disk = b.disk := by
  refine h.invariant (I := fun t => t.disk = b.disk) rfl ?_
  intro s m t hs ht
  exact (step_disk (hs ▸ hq) ht).trans hs

/-- The first boot saves at most twice; no later boot saves, and every boot selects
what the first one selected. -/
theorem steady_boots (b₀ b₁ : Board) (o₀ : Outcomes) (cut₀ : ℕ) (hp : ¬ Pending b₀.disk)
    (hc : bootCmd.size ≤ cut₀) (h₁ : next b₀ (.boot o₀ cut₀) = some b₁) :
    saves (log b₀ (.boot o₀ cut₀)) ≤ 2 ∧
      ∃ kernel root, (∀ k r, Selects b₀.disk o₀ cut₀ k r ↔ k = kernel ∧ r = root) ∧
        ∀ ls b, Run (Step Boots) b₁ ls b → b.disk = b₁.disk ∧
          ∀ o cut, saves (log b (.boot o cut)) = 0 ∧
            (∀ k r, Selects b.disk o cut k r → k = kernel ∧ r = root) ∧
            (bootCmd.size ≤ cut → Selects b.disk o cut kernel root) := by
  have hd := first_disk hp hc h₁
  have hq : Quiet b₁.disk := hd ▸ quiet_rested hp
  have he : effective b₁.disk = effective b₀.disk := by rw [hd, rested_effective]
  have hs := boot_saves (boot_move h₁) hp
  rw [saves_installLog, saves_clearLog] at hs
  refine ⟨?_, imageFile (effective b₀.disk .kernel), rootPartition (effective b₀.disk .rootfs),
    ?_, ?_⟩
  · split_ifs at hs <;> omega
  · intro k r
    constructor
    · exact fun h => h.eq hp
    · rintro ⟨rfl, rfl⟩
      exact selects hp hc
  · intro ls b hr
    have hb := run_disk hq hr
    refine ⟨hb, fun o cut => ?_⟩
    rw [← he, ← hb]
    rw [← hb] at hq
    exact ⟨hq.saves (boot_move rfl), fun k r h => h.eq hq.idle, selects hq.idle⟩

/-- The environment of a board from before the slots were split. -/
def legacy : Board := ⟨Env.fresh.set .boot_slot "B", none⟩

/-- Such a board does save twice. -/
theorem steady_boots_legacy : 2 ≤ saves (log legacy (.boot everyFile 100)) ∧
    saves (log legacy (.boot everyFile 100)) ≤ 2 :=
  ⟨by decide, (steady_boots legacy _ everyFile 100 (by decide) (by decide) rfl).1⟩

end Okm6ullOta.SteadyBoots
