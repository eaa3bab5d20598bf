import Okm6ullOta.StationTable
import Mathlib.Data.Finset.Card

/-!
# The AIDs of the stations

The slot of a station's AID is its own along every run, so no two stations have the same. A
refused association forgets the AID of the station and leaves the slot taken; without these no
slot is lost.
-/
namespace Okm6ullOta.StationAids
open HashBuckets LabelledRuns StationTable

variable {own : Mac} {num : ℕ} {p p' : StaPriv} {live : List (ℕ × Mac)} {psta : ℕ}

theorem aidSearch_free (hm : 0 < p.max_aid) (turns i used_cnt : ℕ)
    (h : aidSearch p turns i used_cnt ≠ 0) :
    aidSearch p turns i used_cnt ≤ p.max_aid ∧
      p.sta_aid (aidSearch p turns i used_cnt - 1) = none := by
  induction turns generalizing i used_cnt with
  | zero => exact absurd rfl h
  | succ turns ih =>
    rw [aidSearch] at h ⊢
    split_ifs at h ⊢ with hs hu hu
    · exact absurd rfl h
    · exact ⟨Nat.mod_lt _ hm, hs⟩
    · exact absurd rfl h
    · exact ih _ _ h

/-- The search for a new AID. -/
def nextAid (p : StaPriv) : ℕ := aidSearch p p.max_aid 0 0

theorem nextAid_free (h : nextAid p ≠ 0) :
    nextAid p ≤ p.max_aid ∧ p.sta_aid (nextAid p - 1) = none := by
  rcases Nat.eq_zero_or_pos p.max_aid with hm | hm
  · rw [nextAid, hm] at h
    exact absurd rfl h
  · exact aidSearch_free hm _ _ _ h

/-- A search which may look at every slot finds none when those ahead of it are taken. -/
theorem aidSearch_none_iff (hs : p.max_aid ≤ p.max_num_sta) (turns i : ℕ)
    (hi : i + turns = p.max_aid) :
    aidSearch p turns i i = 0 ↔
      ∀ j, i ≤ j → j < p.max_aid → p.sta_aid ((j + p.started_aid - 1) % p.max_aid) ≠ none := by
  induction turns generalizing i with
  | zero => exact iff_of_true rfl fun j hij hj => by omega
  | succ turns ih =>
    rw [aidSearch, Nat.add_sub_cancel]
    by_cases hn : p.sta_aid ((i + p.started_aid - 1) % p.max_aid) = none
    · rw [if_pos hn, if_neg (by omega)]
      exact iff_of_false (Nat.succ_ne_zero _) fun h => h i (Nat.le_refl i) (by omega) hn
    · have hrest : (if p.max_num_sta ≤ i + 1 then 0 else aidSearch p turns (i + 1) (i + 1)) = 0 ↔
          aidSearch p turns (i + 1) (i + 1) = 0 := by
        split_ifs with hu
        · -- the limit on stations ends the search in its last turn only
          obtain rfl : turns = 0 := by omega
          exact iff_of_true rfl rfl
        · exact Iff.rfl
      rw [if_neg hn, hrest, ih (i + 1) (by omega)]
      constructor
      · intro h j hij hj
        rcases Nat.eq_or_lt_of_le hij with rfl | hlt
        · exact hn
        · exact h j hlt hj
      · intro h j hij
        exact h j (Nat.le_of_succ_le hij)

/-- The turns of the search reach every slot. -/
theorem turn_of_slot {m s slot : ℕ} (hs : 0 < s) (h : slot < m) :
    ∃ j < m, (j + s - 1) % m = slot := by
  have ht : (s - 1) % m < m := Nat.mod_lt _ (by omega)
  refine ⟨(slot + (m - (s - 1) % m)) % m, Nat.mod_lt _ (by omega), ?_⟩
  have hd := Nat.mod_add_div (s - 1) m
  have hsum : slot + (m - (s - 1) % m) + (s - 1) = slot + m * ((s - 1) / m + 1) := by
    rw [Nat.mul_add, Nat.mul_one]
    omega
  rw [Nat.add_sub_assoc hs, Nat.mod_add_mod, hsum, Nat.add_mul_mod_self_left, Nat.mod_eq_of_lt h]

theorem nextAid_none_iff (hs : p.max_aid ≤ p.max_num_sta) (h0 : 0 < p.started_aid) :
    nextAid p = 0 ↔ ∀ slot < p.max_aid, p.sta_aid slot ≠ none := by
  rw [nextAid, aidSearch_none_iff hs _ 0 (Nat.zero_add _)]
  constructor
  · intro h slot hslot
    obtain ⟨j, hj, rfl⟩ := turn_of_slot h0 hslot
    exact h j (Nat.zero_le j) hj
  · intro h j _ hj
    exact h _ (Nat.mod_lt _ (Nat.zero_lt_of_lt hj))

theorem rtwAidAlloc_fst (p : StaPriv) (psta : ℕ) : (rtwAidAlloc p psta).1 = nextAid p := by
  rw [rtwAidAlloc, nextAid]
  dsimp only
  split_ifs <;> rfl

theorem rtwAidAlloc_none (h : nextAid p = 0) (psta : ℕ) :
    (rtwAidAlloc p psta).2 = setAid p psta 0 := by
  rw [nextAid] at h
  rw [rtwAidAlloc, h]
  rfl

theorem rtwAidAlloc_some (h : nextAid p ≠ 0) (psta : ℕ) :
    (rtwAidAlloc p psta).2 =
      { setAid p psta (nextAid p) with
        sta_aid := Function.update p.sta_aid (nextAid p - 1) (some psta)
        started_aid := if p.rr_aid then nextAid p % p.max_aid + 1 else p.started_aid } := by
  rw [nextAid] at h ⊢
  rw [rtwAidAlloc]
  simp only [if_neg h]

/-- What the search reads. -/
structure SameSlots (p p' : StaPriv) : Prop where
  sta_aid : p'.sta_aid = p.sta_aid
  max_aid : p'.max_aid = p.max_aid
  started_aid : p'.started_aid = p.started_aid
  max_num_sta : p'.max_num_sta = p.max_num_sta

theorem SameSlots.aidSearch (h : SameSlots p p') (turns i used_cnt : ℕ) :
    aidSearch p' turns i used_cnt = StationTable.aidSearch p turns i used_cnt := by
  induction turns generalizing i used_cnt with
  | zero => rfl
  | succ turns ih =>
    rw [StationTable.aidSearch, StationTable.aidSearch, ih, h.sta_aid, h.max_aid, h.started_aid,
      h.max_num_sta]

theorem SameSlots.nextAid (h : SameSlots p p') : nextAid p' = StationAids.nextAid p := by
  rw [StationAids.nextAid, StationAids.nextAid, h.max_aid, h.aidSearch]

theorem setAid_self (p : StaPriv) (psta aid : ℕ) : ((setAid p psta aid).sta psta).aid = aid := by
  simp [setAid]

theorem setAid_ne {i : ℕ} (hi : i ≠ psta) (aid : ℕ) :
    ((setAid p psta aid).sta i).aid = (p.sta i).aid := by
  simp [setAid, hi]

/-- The slot of a station's AID is its own. -/
def Held (p : StaPriv) (live : List (ℕ × Mac)) : Prop :=
  ∀ i k, (i, k) ∈ live → 0 < (p.sta i).aid →
    (p.sta i).aid ≤ p.max_aid ∧ p.sta_aid ((p.sta i).aid - 1) = some i

theorem Held.mono {live' : List (ℕ × Mac)} (h : Held p live) (hl : live' ⊆ live) : Held p live' :=
  fun i k hi => h i k (hl hi)

/-- An AID is forgotten. -/
theorem Held.refuse (h : Held p live) (psta : ℕ) : Held (onAssocReqFail p psta) live := by
  intro i k hi ha
  by_cases he : i = psta
  · rw [he, onAssocReqFail, setAid_self] at ha
    exact absurd ha (Nat.lt_irrefl 0)
  · rw [onAssocReqFail, setAid_ne he] at ha ⊢
    exact h i k hi ha

theorem Held.assoc (h : Held p live) (psta : ℕ) : Held (assignAid p psta) live := by
  rw [assignAid]
  split_ifs with hold
  · exact h
  · by_cases hn : nextAid p = 0
    · rw [rtwAidAlloc_none hn]
      exact h.refuse psta
    · obtain ⟨hle, hfree⟩ := nextAid_free hn
      rw [rtwAidAlloc_some hn]
      intro i k hi ha
      dsimp only at ha ⊢
      by_cases he : i = psta
      · rw [he, setAid_self, Function.update_self]
        exact ⟨hle, rfl⟩
      · rw [setAid_ne he] at ha ⊢
        obtain ⟨hmax, hslot⟩ := h i k hi ha
        refine ⟨hmax, ?_⟩
        rw [Function.update_of_ne, hslot]
        intro hs
        rw [hs, hfree] at hslot
        cases hslot

theorem detach_aid (own : Mac) (p : StaPriv) (psta i : ℕ) :
    ((detach own p psta).sta i).aid = (p.sta i).aid := by
  by_cases hi : i = psta <;> simp [detach, hi]

/-- A station which goes takes no AID but its own with it. -/
theorem free_aids (own : Mac) (ap : Bool) (p : StaPriv) {psta i : ℕ} (hi : i ≠ psta) :
    ((rtwFreeStainfo own ap p psta).sta i).aid = (p.sta i).aid ∧
    (rtwFreeStainfo own ap p psta).max_aid = p.max_aid ∧
    ∀ slot, p.sta_aid slot = some i → (rtwFreeStainfo own ap p psta).sta_aid slot = some i := by
  have ha := detach_aid own p psta
  simp only [rtwFreeStainfo, clearAid]
  split_ifs with hc
  · refine ⟨(setAid_ne hi 0).trans (ha i), rfl, fun slot hs => ?_⟩
    have hne : slot ≠ ((detach own p psta).sta psta).aid - 1 := by
      rintro rfl
      exact hi (Option.some.inj (hs.symm.trans hc.2.2))
    exact (Function.update_of_ne hne _ _).trans hs
  · exact ⟨ha i, rfl, fun _ hs => hs⟩

theorem Held.free (h : Held p live) (own : Mac) (ap : Bool) (psta : ℕ) :
    Held (rtwFreeStainfo own ap p psta) (live.filter (·.1 ≠ psta)) := by
  intro i k hi ha
  obtain ⟨hi, hne⟩ := mem_gone.mp hi
  obtain ⟨haid, hmax, hslot⟩ := free_aids own ap p hne
  rw [haid] at ha ⊢
  rw [hmax]
  exact ⟨(h i k hi ha).1, hslot _ (h i k hi ha).2⟩

theorem Held.free_list (h : Held p live) (own : Mac) (ap : Bool) (ids : List ℕ) :
    Held (ids.foldl (rtwFreeStainfo own ap) p) (live.filter (·.1 ∉ ids)) := by
  induction ids generalizing p live with
  | nil => simpa using h
  | cons psta ids ih =>
    refine (ih (h.free own ap psta)).mono fun e he => ?_
    rw [List.filter_filter]
    simpa [and_comm] using he

theorem Held.freeAll (h : Held p live) (ht : Table own p live) (ap : Bool) :
    Held (rtwFreeAllStainfo own ap p)
      (if live.length = 1 then live else (oldest live bcAddr).toList) := by
  rw [freeAll_eq]
  by_cases h1 : live.length = 1
  · rw [if_pos (ht.count_one.mpr h1), if_pos h1]
    exact h
  · rw [if_neg fun hc => h1 (ht.count_one.mp hc), if_neg h1, ← ht.unlisted]
    exact h.free_list own ap _

theorem alloc_slots (own : Mac) (p : StaPriv) (hwaddr : Mac) :
    SameSlots p (rtwAllocStainfo own p hwaddr).2 := by
  rw [rtwAllocStainfo]
  cases p.free_sta_queue with
  | nil => exact ⟨rfl, rfl, rfl, rfl⟩
  | cons psta rest =>
    dsimp only
    split_ifs
    · exact ⟨rfl, rfl, rfl, rfl⟩
    · exact ⟨rfl, rfl, rfl, rfl⟩

theorem alloc_aids {hwaddr : Mac} (h : (rtwAllocStainfo own p hwaddr).1 = some psta) :
    ((rtwAllocStainfo own p hwaddr).2.sta psta).aid = 0 ∧
    ∀ i, i ≠ psta → ((rtwAllocStainfo own p hwaddr).2.sta i).aid = (p.sta i).aid := by
  rw [rtwAllocStainfo] at h ⊢
  cases hq : p.free_sta_queue with
  | nil =>
    rw [hq] at h
    cases h
  | cons first rest =>
    simp only [hq, if_neg (Nat.not_le_of_lt (wifiMacHash_lt hwaddr))] at h ⊢
    obtain rfl := Option.some.inj h
    refine ⟨?_, fun i hi => ?_⟩
    · rw [Function.update_self]
    · rw [Function.update_of_ne hi]

/-- A new station has no AID, and the others keep theirs. -/
theorem Held.alloc (h : Held p live) (ht : Table own p live) (hwaddr : Mac) :
    Held (rtwAllocStainfo own p hwaddr).2 (watch own live p (.alloc hwaddr)) := by
  rcases ht.alloc hwaddr with ⟨he, -⟩ | ⟨psta, he, hnew, -, -⟩
  · rw [watch, he]
    simpa using h
  · obtain ⟨hzero, hkeep⟩ := alloc_aids he
    have hsame := alloc_slots own p hwaddr
    rw [watch, he]
    intro i k hi ha
    rcases List.mem_append.mp hi with hi | hi
    · rw [hkeep i (hnew _ hi)] at ha ⊢
      rw [hsame.max_aid, hsame.sta_aid]
      exact h i k hi ha
    · obtain ⟨rfl, rfl⟩ := Prod.mk.inj (List.mem_singleton.mp hi)
      rw [hzero] at ha
      exact absurd ha (Nat.lt_irrefl 0)

theorem step_held {m : Move} (h : Held p live) (ht : Table own p live) (hs : Step own p m p') :
    Held p' (watch own live p m) := by
  cases hs with
  | alloc hwaddr => exact h.alloc ht hwaddr
  | free ap psta => exact h.free own ap psta
  | freeAll ap => exact h.freeAll ht ap
  | assoc psta => exact h.assoc psta
  | refuse psta => exact h.refuse psta

theorem runs_held {ms : List Move} {q : StaPriv × List (ℕ × Mac)} (h1 : defaultMgmtMacid < num)
    (h2 : num ≤ 32) (h : Runs own num ms q) : Table own q.1 q.2 ∧ Held q.1 q.2 := by
  refine h.watched (I := fun p live => Table own p live ∧ Held p live)
    ⟨table_init h1 h2, fun i k hi => absurd hi List.not_mem_nil⟩ ?_
  rintro p live m p' ⟨ht, hh⟩ hs
  exact ⟨step_table ht hs, step_held hh ht hs⟩

/-- What the search may rely on. -/
structure Limits (num : ℕ) (p : StaPriv) : Prop where
  max_aid : p.max_aid = num
  max_num_sta : p.max_num_sta = numSta
  started_aid : 0 < p.started_aid

theorem Limits.of_eq (h : Limits num p) (hm : p'.max_aid = p.max_aid)
    (hn : p'.max_num_sta = p.max_num_sta) (hs : p'.started_aid = p.started_aid) : Limits num p' :=
  ⟨hm.trans h.max_aid, hn.trans h.max_num_sta, hs ▸ h.started_aid⟩

theorem Limits.free (h : Limits num p) (own : Mac) (ap : Bool) (psta : ℕ) :
    Limits num (rtwFreeStainfo own ap p psta) := by
  simp only [rtwFreeStainfo, clearAid]
  split_ifs
  · exact h.of_eq rfl rfl rfl
  · exact h.of_eq rfl rfl rfl

theorem Limits.free_list (h : Limits num p) (own : Mac) (ap : Bool) (ids : List ℕ) :
    Limits num (ids.foldl (rtwFreeStainfo own ap) p) := by
  induction ids generalizing p with
  | nil => exact h
  | cons psta ids ih => exact ih (h.free own ap psta)

theorem Limits.assoc (h : Limits num p) (psta : ℕ) : Limits num (assignAid p psta) := by
  rw [assignAid]
  split_ifs
  · exact h
  · by_cases hn : nextAid p = 0
    · rw [rtwAidAlloc_none hn]
      exact h.of_eq rfl rfl rfl
    · rw [rtwAidAlloc_some hn]
      refine ⟨h.max_aid, h.max_num_sta, ?_⟩
      dsimp only
      split_ifs
      · exact Nat.succ_pos _
      · exact h.started_aid

theorem step_limits {m : Move} (h : Limits num p) (hs : Step own p m p') : Limits num p' := by
  cases hs with
  | alloc hwaddr =>
    have hsame := alloc_slots own p hwaddr
    exact h.of_eq hsame.max_aid hsame.max_num_sta hsame.started_aid
  | free ap psta => exact h.free own ap psta
  | freeAll ap =>
    rw [freeAll_eq]
    split_ifs
    · exact h
    · exact h.free_list own ap _
  | assoc psta => exact h.assoc psta
  | refuse psta => exact h.of_eq rfl rfl rfl

theorem runs_limits {ms : List Move} {q : StaPriv × List (ℕ × Mac)} (h : Runs own num ms q) :
    Limits num q.1 :=
  h.watched (I := fun p _ => Limits num p) ⟨rfl, rfl, Nat.one_pos⟩ fun _ _ _ _ => step_limits

/-- Along every run no two stations have the same AID, a new AID is one which none has, and there
is one until every slot is taken. -/
theorem runs_aids {ms : List Move} {q : StaPriv × List (ℕ × Mac)} (h1 : defaultMgmtMacid < num)
    (h2 : num ≤ 32) (h : Runs own num ms q) :
    (∀ e ∈ q.2, 0 < (q.1.sta e.1).aid →
      (q.1.sta e.1).aid ≤ q.1.max_aid ∧ q.1.sta_aid ((q.1.sta e.1).aid - 1) = some e.1) ∧
    (∀ e ∈ q.2, ∀ f ∈ q.2, 0 < (q.1.sta e.1).aid → (q.1.sta e.1).aid = (q.1.sta f.1).aid → e = f) ∧
    (∀ psta, (rtwAidAlloc q.1 psta).1 ≠ 0 →
      (rtwAidAlloc q.1 psta).1 ≤ q.1.max_aid ∧
      ∀ e ∈ q.2, (q.1.sta e.1).aid ≠ (rtwAidAlloc q.1 psta).1) ∧
    ∀ psta, (rtwAidAlloc q.1 psta).1 = 0 ↔
      ∀ slot < q.1.max_aid, q.1.sta_aid slot ≠ none := by
  obtain ⟨ht, hh⟩ := runs_held h1 h2 h
  have hl := runs_limits h
  have hmax : q.1.max_aid ≤ q.1.max_num_sta := by
    rw [hl.max_aid, hl.max_num_sta]
    exact h2
  refine ⟨fun e he => hh e.1 e.2 he, fun e he f hf ha hef => ?_, fun psta ha => ?_, fun psta => ?_⟩
  · have hs := (hh e.1 e.2 he ha).2
    rw [hef, (hh f.1 f.2 hf (hef ▸ ha)).2] at hs
    exact List.inj_on_of_nodup_map ht.ids_nodup he hf (Option.some.inj hs).symm
  · rw [rtwAidAlloc_fst] at ha ⊢
    obtain ⟨hle, hfree⟩ := nextAid_free ha
    refine ⟨hle, fun e he hea => ?_⟩
    have hs := (hh e.1 e.2 he (hea ▸ Nat.pos_of_ne_zero ha)).2
    rw [hea, hfree] at hs
    cases hs
  · rw [rtwAidAlloc_fst]
    exact nextAid_none_iff hmax hl.started_aid

theorem runs_aids_one :
    ∃ q, Runs sampleOwn 16 [.alloc bcAddr, .alloc sampleSta, .assoc 1] q ∧
      (q.1.sta 1).aid ≤ q.1.max_aid ∧ q.1.sta_aid ((q.1.sta 1).aid - 1) = some 1 := by
  have start : Runs sampleOwn 16 [] _ := .nil
  have both := runs_snoc (runs_snoc start (.alloc bcAddr)) (.alloc sampleSta)
  have run := runs_snoc both (.assoc 1 (wifiMacHash sampleSta) (by decide))
  exact ⟨_, run, (runs_aids (by decide) (by decide) run).1 (1, sampleSta) (by decide) (by decide)⟩

/-- Every slot which is taken is that of a station's AID. -/
def Full (p : StaPriv) (live : List (ℕ × Mac)) : Prop :=
  ∀ slot i, p.sta_aid slot = some i → ∃ k, (i, k) ∈ live ∧ (p.sta i).aid = slot + 1

theorem Full.free (h : Full p live) (own : Mac) (psta : ℕ) :
    Full (rtwFreeStainfo own true p psta) (live.filter (·.1 ≠ psta)) := by
  intro slot i hs
  have hslot : i ≠ psta ∧ p.sta_aid slot = some i := by
    simp only [rtwFreeStainfo, clearAid, detach_aid] at hs
    split_ifs at hs with hc
    · dsimp only at hs
      have hne : slot ≠ (p.sta psta).aid - 1 := by
        rintro rfl
        rw [Function.update_self] at hs
        cases hs
      rw [Function.update_of_ne hne] at hs
      refine ⟨?_, hs⟩
      rintro rfl
      obtain ⟨k, -, ha⟩ := h slot i hs
      omega
    · refine ⟨?_, hs⟩
      rintro rfl
      obtain ⟨k, -, ha⟩ := h slot i hs
      refine hc ⟨trivial, by omega, ?_⟩
      rw [ha]
      exact hs
  obtain ⟨k, hk, ha⟩ := h slot i hslot.2
  exact ⟨k, mem_gone.mpr ⟨hk, hslot.1⟩, (free_aids own true p hslot.1).1.trans ha⟩

theorem Full.free_list (h : Full p live) (own : Mac) (ids : List ℕ) :
    Full (ids.foldl (rtwFreeStainfo own true) p) (live.filter (·.1 ∉ ids)) := by
  induction ids generalizing p live with
  | nil => simpa using h
  | cons psta ids ih =>
    intro slot i hs
    obtain ⟨k, hk, ha⟩ := ih (h.free own psta) slot i hs
    rw [List.filter_filter] at hk
    refine ⟨k, ?_, ha⟩
    simpa [and_comm] using hk

theorem Full.assoc (h : Full p live) {k : Mac} (hk : (psta, k) ∈ live) :
    Full (assignAid p psta) live := by
  rw [assignAid]
  split_ifs with hold
  · exact h
  · have hold' {slot : ℕ} (hs : p.sta_aid slot = some psta) : False := by
      obtain ⟨-, -, ha⟩ := h slot psta hs
      omega
    by_cases hn : nextAid p = 0
    · rw [rtwAidAlloc_none hn]
      intro slot i hs
      obtain ⟨k', hk', ha⟩ := h slot i hs
      have hi : i ≠ psta := by
        rintro rfl
        exact hold' hs
      exact ⟨k', hk', (setAid_ne hi 0).trans ha⟩
    · rw [rtwAidAlloc_some hn]
      intro slot i hs
      dsimp only at hs ⊢
      by_cases he : slot = nextAid p - 1
      · rw [he, Function.update_self] at hs
        obtain rfl := Option.some.inj hs
        refine ⟨k, hk, ?_⟩
        rw [setAid_self]
        omega
      · rw [Function.update_of_ne he] at hs
        obtain ⟨k', hk', ha⟩ := h slot i hs
        have hi : i ≠ psta := by
          rintro rfl
          exact hold' hs
        exact ⟨k', hk', (setAid_ne hi _).trans ha⟩

/-- Stations are freed while the state is _HW_STATE_AP_, and none is refused which has an AID. -/
def Kept (p : StaPriv) : Move → Prop
  | .alloc _ => True
  | .free ap _ => ap = true
  | .freeAll ap => ap = true
  | .assoc _ => True
  | .refuse psta => (p.sta psta).aid = 0

theorem step_full {m : Move} (h : Full p live) (ht : Table own p live) (hm : Kept p m)
    (hs : Step own p m p') : Full p' (watch own live p m) := by
  cases hs with
  | alloc hwaddr =>
    intro slot i hi
    rw [(alloc_slots own p hwaddr).sta_aid] at hi
    obtain ⟨k, hk, ha⟩ := h slot i hi
    refine ⟨k, List.mem_append_left _ hk, ?_⟩
    rcases ht.alloc hwaddr with ⟨he, -⟩ | ⟨psta, he, hnew, -, -⟩
    · rw [he]
      exact ha
    · exact ((alloc_aids he).2 i (hnew _ hk)).trans ha
  | free ap psta =>
    obtain rfl : ap = true := hm
    exact h.free own psta
  | freeAll ap =>
    obtain rfl : ap = true := hm
    rw [watch, freeAll_eq]
    by_cases h1 : live.length = 1
    · rw [if_pos (ht.count_one.mpr h1), if_pos h1]
      exact h
    · rw [if_neg fun hc => h1 (ht.count_one.mp hc), if_neg h1, ← ht.unlisted]
      exact h.free_list own _
  | assoc psta b hp =>
    obtain ⟨k, hk⟩ := ht.files.mem_iff.mp ⟨b, hp⟩
    exact h.assoc hk
  | refuse psta =>
    intro slot i hi
    obtain ⟨k, hk, ha⟩ := h slot i hi
    have hne : i ≠ psta := by
      rintro rfl
      rw [show (p.sta i).aid = 0 from hm] at ha
      omega
    exact ⟨k, hk, (setAid_ne hne 0).trans ha⟩

abbrev KeptRuns (own : Mac) (num : ℕ) : List Move → StaPriv × List (ℕ × Mac) → Prop :=
  Run (Watched (fun p m p' => Kept p m ∧ Step own p m p') (watch own)) (initStaPriv num, [])

theorem keptRuns_snoc {ms : List Move} {q : StaPriv × List (ℕ × Mac)} {m : Move}
    (h : KeptRuns own num ms q) (hs : Step own q.1 m p') (hm : Kept q.1 m) :
    KeptRuns own num (ms ++ [m]) (p', watch own q.2 q.1 m) := h.snoc ⟨⟨hm, hs⟩, rfl⟩

/-- Along every run of such moves the slots which are taken are those of the stations' AIDs. -/
theorem kept_slots (h1 : defaultMgmtMacid < num) (h2 : num ≤ 32) {ms : List Move}
    {q : StaPriv × List (ℕ × Mac)} (h : KeptRuns own num ms q) (slot i : ℕ) :
    q.1.sta_aid slot = some i ↔
      slot < q.1.max_aid ∧ ∃ k, (i, k) ∈ q.2 ∧ (q.1.sta i).aid = slot + 1 := by
  obtain ⟨-, hh, hf⟩ : Table own q.1 q.2 ∧ Held q.1 q.2 ∧ Full q.1 q.2 := by
    refine h.watched (I := fun p live => Table own p live ∧ Held p live ∧ Full p live)
      ⟨table_init h1 h2, fun i k hi => absurd hi List.not_mem_nil, fun slot i hs => by cases hs⟩ ?_
    rintro p live m p' ⟨ht, hh, hf⟩ ⟨hm, hs⟩
    exact ⟨step_table ht hs, step_held hh ht hs, step_full hf ht hm hs⟩
  constructor
  · intro hs
    obtain ⟨k, hk, ha⟩ := hf slot i hs
    obtain ⟨hle, -⟩ := hh i k hk (by omega)
    exact ⟨by omega, k, hk, ha⟩
  · rintro ⟨-, k, hk, ha⟩
    obtain ⟨-, hs⟩ := hh i k hk (by omega)
    rw [ha] at hs
    exact hs

theorem kept_slots_one :
    ∃ q, KeptRuns sampleOwn 16 [.alloc bcAddr, .alloc sampleSta, .assoc 1] q ∧
      (q.1.sta_aid 0 = some 1 ↔
        0 < q.1.max_aid ∧ ∃ k, (1, k) ∈ q.2 ∧ (q.1.sta 1).aid = 1) := by
  have start : KeptRuns sampleOwn 16 [] _ := .nil
  have first := keptRuns_snoc start (.alloc bcAddr) trivial
  have both := keptRuns_snoc first (.alloc sampleSta) trivial
  have run := keptRuns_snoc both (.assoc 1 (wifiMacHash sampleSta) (by decide)) trivial
  exact ⟨_, run, kept_slots (by decide) (by decide) run 0 1⟩

/-- An association, and one which is refused. -/
def round (psta : ℕ) (p : StaPriv) : StaPriv := onAssocReqFail (assignAid p psta) psta

/-- The slots which are free. -/
def freeSlots (p : StaPriv) : Finset ℕ :=
  (Finset.range p.max_aid).filter fun slot => p.sta_aid slot = none

theorem round_aid (psta : ℕ) (p : StaPriv) : ((round psta p).sta psta).aid = 0 := setAid_self ..

theorem round_none (h0 : (p.sta psta).aid = 0) (hn : nextAid p = 0) :
    SameSlots p (round psta p) := by
  rw [round, assignAid, if_neg (by omega), rtwAidAlloc_none hn]
  exact ⟨rfl, rfl, rfl, rfl⟩

theorem round_some (h0 : (p.sta psta).aid = 0) (hn : nextAid p ≠ 0) :
    (freeSlots (round psta p)).card < (freeSlots p).card := by
  obtain ⟨hle, hfree⟩ := nextAid_free hn
  have hmem : nextAid p - 1 ∈ freeSlots p :=
    Finset.mem_filter.mpr ⟨Finset.mem_range.mpr (by omega), hfree⟩
  have hr : freeSlots (round psta p) = (freeSlots p).erase (nextAid p - 1) := by
    rw [round, assignAid, if_neg (by omega), rtwAidAlloc_some hn, onAssocReqFail]
    ext slot
    by_cases hs : slot = nextAid p - 1 <;> simp [freeSlots, setAid, hs]
  rw [hr]
  exact Finset.card_erase_lt_of_mem hmem

theorem none_left (h : freeSlots p = ∅) : nextAid p = 0 := by
  by_contra hn
  obtain ⟨hle, hfree⟩ := nextAid_free hn
  have hmem : nextAid p - 1 ∈ freeSlots p :=
    Finset.mem_filter.mpr ⟨Finset.mem_range.mpr (by omega), hfree⟩
  rw [h] at hmem
  exact absurd hmem (Finset.notMem_empty _)

theorem rounds_none (n : ℕ) (h0 : (p.sta psta).aid = 0) (hn : nextAid p = 0) :
    nextAid ((round psta)^[n] p) = 0 := by
  induction n generalizing p with
  | zero => exact hn
  | succ n ih =>
    rw [Function.iterate_succ_apply]
    exact ih (round_aid psta p) ((round_none h0 hn).nextAid.trans hn)

/-- Every round takes a slot, until the search finds none. -/
theorem rounds_use_up (n : ℕ) (h0 : (p.sta psta).aid = 0) (hc : (freeSlots p).card ≤ n) :
    nextAid ((round psta)^[n] p) = 0 := by
  induction n generalizing p with
  | zero => exact none_left (Finset.card_eq_zero.mp (Nat.le_zero.mp hc))
  | succ n ih =>
    by_cases hn : nextAid p = 0
    · exact rounds_none (n + 1) h0 hn
    · rw [Function.iterate_succ_apply]
      have hlt := round_some h0 hn
      exact ih (round_aid psta p) (by omega)

theorem rounds_aid (n : ℕ) (h0 : (p.sta psta).aid = 0) :
    (((round psta)^[n] p).sta psta).aid = 0 := by
  cases n with
  | zero => exact h0
  | succ n =>
    rw [Function.iterate_succ_apply']
    exact round_aid ..

/-- A station without an AID gives none back. -/
theorem free_slots (own : Mac) (ap : Bool) (h0 : (p.sta psta).aid = 0) :
    SameSlots p (rtwFreeStainfo own ap p psta) := by
  have hc : clearAid ap (detach own p psta) psta = detach own p psta := by
    rw [clearAid, if_neg]
    rw [detach_aid, h0]
    exact fun hc => absurd hc.2.1 (Nat.lt_irrefl 0)
  rw [rtwFreeStainfo, hc]
  exact ⟨rfl, rfl, rfl, rfl⟩

def roundMoves (psta n : ℕ) : List Move := (List.replicate n [.assoc psta, .refuse psta]).flatten

variable {ms : List Move} {q : StaPriv × List (ℕ × Mac)} {k : Mac}

theorem runs_rounds (h1 : defaultMgmtMacid < num) (h2 : num ≤ 32) (h : Runs own num ms q)
    (hk : (psta, k) ∈ q.2) (n : ℕ) :
    Runs own num (ms ++ roundMoves psta n) ((round psta)^[n] q.1, q.2) := by
  induction n with
  | zero =>
    rw [roundMoves, List.replicate_zero, List.flatten_nil, List.append_nil]
    exact h
  | succ n ih =>
    have hin := (runs_table h1 h2 ih).files.mem_iff.mpr ⟨k, hk⟩
    have hassoc := runs_snoc ih (.assoc psta _ hin.choose_spec)
    have hin' := (runs_table h1 h2 hassoc).files.mem_iff.mpr ⟨k, hk⟩
    have hrefuse := runs_snoc hassoc (.refuse psta _ hin'.choose_spec)
    rw [roundMoves, List.replicate_succ', List.flatten_append, Function.iterate_succ_apply']
    rw [List.append_assoc, List.append_assoc] at hrefuse
    exact hrefuse

/-- One station which is refused as often as there are AIDs leaves none to any other, and they do
not come back when it goes. -/
theorem refusals_use_up_aids (h1 : defaultMgmtMacid < num) (h2 : num ≤ 32) (h : Runs own num ms q)
    (hk : (psta, k) ∈ q.2) (h0 : (q.1.sta psta).aid = 0) {n : ℕ} (hn : q.1.max_aid ≤ n) :
    ∃ p, Runs own num (ms ++ roundMoves psta n ++ [.free true psta])
        (p, q.2.filter (·.1 ≠ psta)) ∧
      ∀ i, (rtwAidAlloc p i).1 = 0 := by
  have hr := runs_rounds h1 h2 h hk n
  obtain ⟨b, hb⟩ := (runs_table h1 h2 hr).files.mem_iff.mpr ⟨k, hk⟩
  have hf := runs_snoc hr (.free true psta b hb)
  refine ⟨_, hf, fun i => ?_⟩
  have hcard : (freeSlots q.1).card ≤ n :=
    (Finset.card_filter_le _ _).trans ((Finset.card_range _).trans_le hn)
  rw [rtwAidAlloc_fst, (free_slots own true (rounds_aid n h0)).nextAid]
  exact rounds_use_up n h0 hcard

theorem refusals_use_up_sixteen :
    ∃ p, Runs sampleOwn 16 ([.alloc bcAddr, .alloc sampleSta] ++ roundMoves 1 16 ++ [.free true 1])
        (p, [(0, bcAddr)]) ∧
      ∀ i, (rtwAidAlloc p i).1 = 0 := by
  have start : Runs sampleOwn 16 [] _ := .nil
  have run := runs_snoc (runs_snoc start (.alloc bcAddr)) (.alloc sampleSta)
  exact refusals_use_up_aids (k := sampleSta) (by decide) (by decide) run (by decide) (by decide)
    (by decide)

end Okm6ullOta.StationAids
