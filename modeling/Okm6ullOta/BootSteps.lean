import Okm6ullOta.BootLog

/-!
# What an execution of boot.cmd can leave behind

One inversion lemma for the whole script. An execution which starts with `r` in
RAM and `d` stored, whatever the outcomes of its commands and wherever its
power is cut, leaves a log and a board listed by `BootStep`.
-/
namespace Okm6ullOta.BootSteps
open BootEnvironment PowerCutScripts UBootCommands BootScript BootLog

/-- The RAM copy the counter branch is reached with. -/
def settled (r : Env) : Env := installed (defaulted r)

/-- What is stored when the counter branch is reached. -/
def stored (r d : Env) : Env := if r .ota_env_ready = "2" then d else settled r

/-- What is stored when a boot with no pending update reaches the slot mapping. -/
def rested (r d : Env) : Env :=
  if settled r .ota_try = "0" then stored r d else cleared (settled r)

/-- The RAM copy of `bootz`, from the one the slot mapping starts with. -/
def ready (e : Env) : Env := prepared (mapped e)

def countLog (e : Env) : List Event :=
  [.calculated .ota_try (nextTry (e .ota_try)), .saved (counted e)]

/-- From the slot mapping on, with `e` in RAM and `d` stored. -/
inductive TailStep (o : Outcomes) (e d : Env) : List Event → Board → Prop
  | idle : TailStep o e d [] ⟨d, none⟩
  | booted {k : String} (hk : kernelImage o e = some k) :
      TailStep o e d [.booting (ready e) (some k)] ⟨d, none⟩
  | handedOff {k t : String} (hk : kernelImage o e = some k) (ht : dtbImage o = some t) :
      TailStep o e d
        [.booting (ready e) (some k), .handedOff ⟨ready e .bootargs, some k, some t⟩]
        ⟨d, some ⟨ready e .bootargs, some k, some t⟩⟩
  | fellBack {k : String} (hk : kernelImage o e = some k) (hp : Pending (ready e)) :
      TailStep o e d
        [.booting (ready e) (some k), .saved (rolledBack safeSlot (ready e))]
        ⟨rolledBack safeSlot (ready e), none⟩

inductive BootStep (o : Outcomes) (r d : Env) : List Event → Board → Prop
  | off : BootStep o r d [] ⟨d, none⟩
  | migrated : BootStep o r d (installLog (defaulted r)) ⟨stored r d, none⟩
  | counting (hp : Pending (settled r)) :
      BootStep o r d
        (installLog (defaulted r) ++ [.calculated .ota_try (nextTry (settled r .ota_try))])
        ⟨stored r d, none⟩
  | exhausted (hp : Pending (settled r)) (hx : Exhausted (counted (settled r)))
      {l : List Event} (hl : l = [] ∨ l = [.exceeded (nextTry (settled r .ota_try)) 3]) :
      BootStep o r d (installLog (defaulted r) ++ (countLog (settled r) ++ l))
        ⟨counted (settled r), none⟩
  | gaveUp (hp : Pending (settled r)) (hx : Exhausted (counted (settled r))) :
      BootStep o r d
        (installLog (defaulted r) ++ (countLog (settled r) ++
          [.exceeded (nextTry (settled r .ota_try)) 3,
            .saved (rolledBack safeSlot (counted (settled r)))]))
        ⟨rolledBack safeSlot (counted (settled r)), none⟩
  | trial (hp : Pending (settled r)) (hx : ¬ Exhausted (counted (settled r)))
      {l : List Event} {b : Board}
      (ht : TailStep o (counted (settled r)) (counted (settled r)) l b) :
      BootStep o r d (installLog (defaulted r) ++ (countLog (settled r) ++ l)) b
  | normal (hp : ¬ Pending (settled r)) {l : List Event} {b : Board}
      (ht : TailStep o (cleared (settled r)) (rested r d) l b) :
      BootStep o r d (installLog (defaulted r) ++ (clearLog (settled r) ++ l)) b

theorem settled_of_ne {x : Var} (r : Env)
    (h : x ∉ [Var.boot_slot, .kernel_slot, .rootfs_slot, .upgrade_available, .bootlimit,
      .altbootcmd, .ota_env_ready]) : settled r x = r x := by
  simp only [List.mem_cons, List.not_mem_nil, or_false, not_or] at h
  obtain ⟨h₁, h₂, h₃, h₄, h₅, h₆, h₇⟩ := h
  unfold settled installed
  split_ifs <;> simp [defaulted, fill_of_ne, h₁, h₂, h₃, h₄, h₅, h₆, h₇]

theorem settled_boot_slot (r : Env) : settled r .boot_slot = orDefault (r .boot_slot) "A" := by
  unfold settled installed
  split_ifs <;> simp [defaulted, fill_of_ne, fill_self]

theorem settled_slot (r : Env) (c : Component) :
    settled r c.slot = orDefault (r c.slot) (orDefault (r .boot_slot) "A") := by
  unfold settled installed
  cases c <;> split_ifs <;> simp [defaulted, fill_of_ne, fill_self, Component.slot]

theorem settled_upgrade (r : Env) :
    settled r .upgrade_available = orDefault (r .upgrade_available) "0" := by
  unfold settled installed
  split_ifs <;> simp [defaulted, fill_of_ne, fill_self]

theorem settled_ready (r : Env) : settled r .ota_env_ready = "2" := by
  unfold settled installed
  split_ifs with h
  · exact h
  · exact Env.set_self ..

theorem settled_altbootcmd {r : Env}
    (h : r .ota_env_ready = "2" → r .altbootcmd = altbootcmdText) :
    settled r .altbootcmd = altbootcmdText := by
  have hd (x : Var) (hx : x = .ota_env_ready ∨ x = .altbootcmd) : defaulted r x = r x := by
    rcases hx with rfl | rfl <;> simp [defaulted, fill_of_ne]
  unfold settled installed
  rw [hd _ (.inl rfl)]
  split_ifs with hr
  · rw [hd _ (.inr rfl), h hr]
  · simp

theorem settled_slot_ne_empty (r : Env) (c : Component) : settled r c.slot ≠ "" := by
  rw [settled_slot, ne_eq, orDefault_eq_empty, orDefault_eq_empty]
  simp

@[simp] theorem settled_pending (r : Env) : Pending (settled r) ↔ Pending r := by
  unfold Pending
  rw [settled_upgrade]
  unfold orDefault
  split_ifs with h <;> simp [h]

@[simp] theorem settled_effective (r : Env) : effective (settled r) = effective r := by
  funext c
  have hs := settled_slot_ne_empty r c
  rw [effective, orDefault_of_ne hs, settled_slot, effective]
  unfold orDefault
  split_ifs with h₁ h₂ <;> simp_all [Slot.select]

@[simp] theorem settled_rollbackSource (r : Env) :
    rollbackSource (settled r) = rollbackSource r := by
  funext c
  cases c <;> simp [rollbackSource, Component.rollback, settled_of_ne]

theorem stored_pending (r : Env) : Pending (stored r r) ↔ Pending r := by
  unfold stored
  split_ifs
  · exact Iff.rfl
  · exact settled_pending r

theorem counted_pending (e : Env) : Pending (counted e) ↔ Pending e := by
  simp [Pending, counted]

theorem cleared_pending (e : Env) : Pending (cleared e) ↔ Pending e := by
  simp [Pending, cleared]

theorem rested_pending (r : Env) : Pending (rested r r) ↔ Pending r := by
  unfold rested
  split_ifs
  · exact stored_pending r
  · exact (cleared_pending _).trans (settled_pending r)

theorem ready_pending (e : Env) : Pending (ready e) ↔ Pending e := by
  simp [Pending, ready, prepared, mapped]

theorem rolledBack_not_pending (last : Env → Component → String) (e : Env) :
    ¬ Pending (rolledBack last e) := by
  simp [Pending, rolledBack, closed]

theorem set_try_slot (e : Env) (v : String) (c : Component) :
    e.set .ota_try v c.slot = e c.slot := by
  cases c <;> simp [Component.slot]

theorem set_try_rollbackSource (e : Env) (v : String) :
    rollbackSource (e.set .ota_try v) = rollbackSource e := by
  funext c
  cases c <;> simp [rollbackSource, Component.rollback]

theorem set_try_effective (e : Env) (v : String) : effective (e.set .ota_try v) = effective e := by
  funext c
  cases c <;> simp [effective, Component.slot]

theorem counted_slot_ne_empty (r : Env) (c : Component) : counted (settled r) c.slot ≠ "" := by
  rw [counted, set_try_slot]
  exact settled_slot_ne_empty r c

theorem cleared_slot_ne_empty (r : Env) (c : Component) : cleared (settled r) c.slot ≠ "" := by
  rw [cleared, set_try_slot]
  exact settled_slot_ne_empty r c

/-- The slots the script selects once their variables are set. -/
theorem settled_select (r : Env) (c : Component) :
    Slot.select (settled r c.slot) = effective r c := by
  rw [← settled_effective, effective, orDefault_of_ne (settled_slot_ne_empty r c)]

theorem stored_effective (r : Env) : effective (stored r r) = effective r := by
  unfold stored
  split_ifs
  · rfl
  · exact settled_effective r

theorem stored_rollbackSource (r : Env) : rollbackSource (stored r r) = rollbackSource r := by
  unfold stored
  split_ifs
  · rfl
  · exact settled_rollbackSource r

theorem ready_rollbackSource (e : Env) : rollbackSource (ready e) = rollbackSource e := by
  funext c
  cases c <;> simp [ready, prepared, mapped, rollbackSource, Component.rollback]

theorem ready_slot (e : Env) (c : Component) :
    ready e c.slot = (Slot.select (e c.slot)).letter := by
  cases c <;> simp [ready, prepared, mapped, Component.slot]

theorem rolledBack_slot (last : Env → Component → String) (e : Env) (c : Component) :
    rolledBack last e c.slot = restored last e c := by
  cases c <;> simp [rolledBack, closed, Component.slot]

theorem restored_ne_empty {last : Env → Component → String} {e : Env} {c : Component}
    (h : last e c ≠ "") : restored last e c ≠ "" := by
  rw [restored, ne_eq, orDefault_eq_empty]
  exact fun hn => h hn.2

/-- The slots in use after a rollback. -/
theorem rolledBack_effective {last : Env → Component → String} {e : Env} {c : Component}
    (h : last e c ≠ "") : effective (rolledBack last e) c = Slot.select (restored last e c) := by
  rw [effective, rolledBack_slot, orDefault_of_ne (restored_ne_empty h)]

theorem otherSlot_ne_empty (e : Env) (c : Component) : otherSlot e c ≠ "" := by
  unfold otherSlot
  split_ifs <;> decide

theorem prefix_split {α : Type*} {l a b : List α} (h : l <+: a ++ b) :
    l <+: a ∨ ∃ t, l = a ++ t ∧ t <+: b := by
  obtain ⟨s, hs⟩ := h
  rcases List.append_eq_append_iff.mp hs with ⟨t, ha, -⟩ | ⟨t, hl, hb⟩
  · exact .inl ⟨t, ha.symm⟩
  · exact .inr ⟨t, hl, s, hb.symm⟩

theorem prefix_at_most_one {α : Type*} {p : Prop} [Decidable p] {l : List α} {x : α}
    (h : l <+: if p then [] else [x]) : l = [] ∨ l = if p then [] else [x] := by
  split_ifs at h ⊢
  · exact .inl (List.prefix_nil.mp h)
  · rcases List.prefix_cons_iff.mp h with rfl | ⟨t, rfl, ht⟩
    · exact .inl rfl
    · rw [List.prefix_nil.mp ht]
      exact .inr rfl

theorem prefix_installLog {l : List Event} {e : Env} (h : l <+: installLog e) :
    l = [] ∨ l = installLog e := by
  unfold installLog at h ⊢
  exact prefix_at_most_one h

theorem prefix_clearLog {l : List Event} {e : Env} (h : l <+: clearLog e) :
    l = [] ∨ l = clearLog e := by
  unfold clearLog at h ⊢
  exact prefix_at_most_one h

theorem tail_step {o : Outcomes} {e d : Env} {l : List Event} (h : l <+: tailLog o e) :
    TailStep o e d l (l.foldl Board.absorb ⟨d, none⟩) := by
  unfold tailLog at h
  cases hk : kernelImage o e with
  | none =>
    simp only [hk, Option.isNone_none, true_or, if_true, List.prefix_nil] at h
    subst h
    exact .idle
  | some k =>
    cases ht : dtbImage o with
    | none =>
      simp only [ht, Option.isNone_none, or_true, if_true, List.prefix_nil] at h
      subst h
      exact .idle
    | some t =>
      simp only [hk, ht, Option.isNone_some, Bool.false_eq_true, or_self, if_false, bootzLog,
        List.prefix_cons_iff] at h
      rcases h with rfl | ⟨l, rfl, h⟩
      · exact .idle
      split_ifs at h with hz hp
      · rcases List.prefix_cons_iff.mp h with rfl | ⟨_, rfl, hn⟩
        · exact .booted hk
        · obtain rfl := List.prefix_nil.mp hn
          exact .fellBack hk hp
      · obtain rfl := List.prefix_nil.mp h
        exact .booted hk
      · rcases List.prefix_cons_iff.mp h with rfl | ⟨_, rfl, hn⟩
        · exact .booted hk
        · obtain rfl := List.prefix_nil.mp hn
          exact .handedOff hk ht

theorem absorb_installLog (r d : Env) (s : Option Session) :
    (installLog (defaulted r)).foldl Board.absorb ⟨d, s⟩ = ⟨stored r d, s⟩ := by
  have h : defaulted r .ota_env_ready = r .ota_env_ready := by simp [defaulted, fill_of_ne]
  unfold installLog stored
  rw [h]
  split_ifs <;> rfl

theorem absorb_clearLog (r d : Env) (s : Option Session) :
    (clearLog (settled r)).foldl Board.absorb ⟨stored r d, s⟩ = ⟨rested r d, s⟩ := by
  unfold clearLog rested
  split_ifs <;> rfl

/-- The inversion lemma, for the prefix a power cut leaves of the log. -/
theorem boot_step {o : Outcomes} {r d : Env} {l : List Event} (h : l <+: bootLog o r) :
    BootStep o r d l (l.foldl Board.absorb ⟨d, none⟩) := by
  have hs : installed (defaulted r) = settled r := rfl
  unfold bootLog at h
  rcases prefix_split h with hi | ⟨t, hl, ht⟩
  · rcases prefix_installLog hi with rfl | rfl
    · exact .off
    · rw [absorb_installLog]
      exact .migrated
  rw [hl, List.foldl_append, absorb_installLog]
  rw [hs, trialLog] at ht
  split_ifs at ht with hp hx
  · -- the attempts of the pending update are used up
    simp only [List.prefix_cons_iff, List.prefix_nil] at ht
    rcases ht with rfl | ⟨_, rfl, rfl | ⟨_, rfl, rfl | ⟨_, rfl, rfl | ⟨_, rfl, rfl⟩⟩⟩⟩
    · rw [List.append_nil]
      exact .migrated
    · exact .counting hp
    · exact .exhausted hp hx (.inl rfl)
    · exact .exhausted hp hx (.inr rfl)
    · exact .gaveUp hp hx
  · rcases List.prefix_cons_iff.mp ht with rfl | ⟨_, rfl, hn⟩
    · rw [List.append_nil]
      exact .migrated
    rcases List.prefix_cons_iff.mp hn with rfl | ⟨_, rfl, hm⟩
    · exact .counting hp
    · exact .trial hp hx (tail_step hm)
  · rcases prefix_split ht with hc | ⟨_, ht, hm⟩
    · rcases prefix_clearLog hc with rfl | ht
      · rw [List.append_nil]
        exact .migrated
      · rw [ht, absorb_clearLog]
        simpa only [List.append_nil] using BootStep.normal (d := d) hp (.idle (o := o))
    · rw [ht, List.foldl_append, absorb_clearLog]
      exact .normal hp (tail_step hm)

/-- An execution which is not cut rolls back when the attempts are used up, and
goes through the slot mapping otherwise. -/
inductive FullStep (o : Outcomes) (r d : Env) : Board → Prop
  | gaveUp (hp : Pending (settled r)) (hx : Exhausted (counted (settled r))) :
      FullStep o r d ⟨rolledBack safeSlot (counted (settled r)), none⟩
  | trial (hp : Pending (settled r)) (hx : ¬ Exhausted (counted (settled r)))
      {l : List Event} {b : Board}
      (ht : TailStep o (counted (settled r)) (counted (settled r)) l b) : FullStep o r d b
  | normal (hp : ¬ Pending (settled r)) {l : List Event} {b : Board}
      (ht : TailStep o (cleared (settled r)) (rested r d) l b) : FullStep o r d b

theorem full_step (o : Outcomes) (r d : Env) :
    FullStep o r d ((bootLog o r).foldl Board.absorb ⟨d, none⟩) := by
  have hs : installed (defaulted r) = settled r := rfl
  rw [bootLog, List.foldl_append, absorb_installLog, hs, trialLog]
  split_ifs with hp hx
  · exact .gaveUp hp hx
  · exact .trial hp hx (tail_step (List.prefix_refl _))
  · rw [List.foldl_append, absorb_clearLog]
    exact .normal hp (tail_step (List.prefix_refl _))

/-- What is logged before the slot mapping, and the RAM copy it starts with. -/
inductive Reaches (r : Env) : List Event → Env → Prop
  | trial (hp : Pending (settled r)) (hx : ¬ Exhausted (counted (settled r))) :
      Reaches r (installLog (defaulted r) ++ countLog (settled r)) (counted (settled r))
  | normal (hp : ¬ Pending (settled r)) :
      Reaches r (installLog (defaulted r) ++ clearLog (settled r)) (cleared (settled r))

theorem installLog_saves {r : Env} {x : Event} (h : x ∈ installLog r) :
    x = .saved (installed r) := by
  unfold installLog at h
  split_ifs at h
  · simp at h
  · exact List.mem_singleton.mp h

theorem clearLog_saves {r : Env} {x : Event} (h : x ∈ clearLog r) : x = .saved (cleared r) := by
  unfold clearLog at h
  split_ifs at h
  · simp at h
  · exact List.mem_singleton.mp h

theorem not_booting_install (r : Env) (ram : Env) (k : Option String) :
    Event.booting ram k ∉ installLog r := fun h => by cases installLog_saves h

theorem not_booting_clear (r : Env) (ram : Env) (k : Option String) :
    Event.booting ram k ∉ clearLog r := fun h => by cases clearLog_saves h

theorem Reaches.not_booting {r e : Env} {before : List Event} (h : Reaches r before e)
    (ram : Env) (k : Option String) : .booting ram k ∉ before := by
  have hi := not_booting_install (defaulted r) ram k
  cases h with
  | trial hp hx => simp [hi, countLog]
  | normal hp => simp [hi, not_booting_clear]

/-- The slot mapping selects the effective slots of the environment the boot loads. -/
theorem Reaches.select {r e : Env} {before : List Event} (h : Reaches r before e)
    (c : Component) : Slot.select (e c.slot) = effective r c := by
  rw [← settled_select]
  cases h with
  | trial hp hx => rw [counted, set_try_slot]
  | normal hp => rw [cleared, set_try_slot]

theorem tail_booting {o : Outcomes} {e d ram : Env} {l : List Event} {b : Board}
    {k : Option String} (h : TailStep o e d l b) (hm : .booting ram k ∈ l) :
    ram = ready e ∧ k.isSome ∧ k = kernelImage o e := by
  cases h <;> simp_all

/-- Every `bootz` of an execution is executed after the slot mapping. -/
theorem boot_booting {o : Outcomes} {r d ram : Env} {l : List Event} {b : Board}
    {k : Option String} (h : BootStep o r d l b) (hm : .booting ram k ∈ l) :
    ∃ before rest e, Reaches r before e ∧ l = before ++ rest ∧
      ram = ready e ∧ k.isSome ∧ k = kernelImage o e := by
  have hi := not_booting_install (defaulted r) ram k
  cases h with
  | off => simp at hm
  | migrated => exact (hi hm).elim
  | counting hp => simp [hi] at hm
  | exhausted hp hx hl => rcases hl with rfl | rfl <;> simp [hi, countLog] at hm
  | gaveUp hp hx => simp [hi, countLog] at hm
  | trial hp hx ht =>
    have hr := Reaches.trial hp hx
    rw [← List.append_assoc, List.mem_append] at hm
    have hb := tail_booting ht (hm.resolve_left (hr.not_booting ram k))
    exact ⟨_, _, _, hr, (List.append_assoc ..).symm, hb⟩
  | normal hp ht =>
    have hr := Reaches.normal hp
    rw [← List.append_assoc, List.mem_append] at hm
    have hb := tail_booting ht (hm.resolve_left (hr.not_booting ram k))
    exact ⟨_, _, _, hr, (List.append_assoc ..).symm, hb⟩

/-- The slot mapping and what follows store a rollback, or nothing. -/
theorem tail_disk {o : Outcomes} {e d : Env} {l : List Event} {b : Board}
    (h : TailStep o e d l b) :
    b.disk = d ∨ Pending e ∧ b.disk = rolledBack safeSlot (ready e) := by
  cases h with
  | fellBack hk hp => exact .inr ⟨(ready_pending e).mp hp, rfl⟩
  | _ => exact .inl rfl

/-- A boot with nothing pending stores nothing after the slot mapping. -/
theorem normal_disk {o : Outcomes} {r d : Env} {l : List Event} {b : Board}
    (h : TailStep o (cleared (settled r)) d l b) (hp : ¬ Pending (settled r)) : b.disk = d := by
  rcases tail_disk h with hd | ⟨he, -⟩
  · exact hd
  · exact absurd ((cleared_pending _).mp he) hp

theorem tail_session {o : Outcomes} {e d : Env} {l : List Event} {b : Board} {s : Session}
    (h : TailStep o e d l b) (hs : b.session = some s) :
    b.disk = d ∧ .booting (ready e) s.kernel ∈ l ∧ .handedOff s ∈ l ∧
      s = ⟨ready e .bootargs, kernelImage o e, dtbImage o⟩ := by
  cases h with
  | handedOff hk ht =>
    obtain rfl := Option.some.inj hs
    simp [hk, ht]
  | _ => simp at hs

/-- A board which hands off stores what the slot mapping was reached with. -/
theorem boot_session {o : Outcomes} {r d : Env} {l : List Event} {b : Board} {s : Session}
    (h : BootStep o r d l b) (hs : b.session = some s) :
    ∃ before e, Reaches r before e ∧ .booting (ready e) s.kernel ∈ l ∧
      s = ⟨ready e .bootargs, kernelImage o e, dtbImage o⟩ ∧
      b.disk = if Pending (settled r) then counted (settled r) else rested r d := by
  cases h with
  | trial hp hx ht =>
    obtain ⟨hd, hm, -, he⟩ := tail_session ht hs
    exact ⟨_, _, .trial hp hx, by simp [hm], he, by rw [hd, if_pos hp]⟩
  | normal hp ht =>
    obtain ⟨hd, hm, -, he⟩ := tail_session ht hs
    exact ⟨_, _, .normal hp, by simp [hm], he, by rw [hd, if_neg hp]⟩
  | _ => simp at hs

end Okm6ullOta.BootSteps
