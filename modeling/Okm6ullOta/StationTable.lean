import Okm6ullOta.HashBuckets
import Okm6ullOta.LabelledRuns
import Mathlib.Data.BitVec

/-!
# The stations of the Wi-Fi driver

rtw_alloc_stainfo, rtw_free_stainfo, rtw_free_all_stainfo, rtw_get_stainfo and rtw_aid_alloc of
core/rtw_sta_mgt.c with the mac ids of core/rtw_wlan_util.c, and what OnAssocReq of
core/rtw_mlme_ext.c does to an AID. There is one interface, as the recipe builds the driver:
without CONFIG_CONCURRENT_MODE, CONFIG_MCC_MODE and CONFIG_RTW_PRE_LINK_STA.
A station is its offset in pstainfo_buf.
-/
namespace Okm6ullOta.StationTable
open HashBuckets LabelledRuns

structure Mac where
  b₀ : BitVec 8
  b₁ : BitVec 8
  b₂ : BitVec 8
  b₃ : BitVec 8
  b₄ : BitVec 8
  b₅ : BitVec 8
  deriving DecidableEq

def bcAddr : Mac := ⟨0xff, 0xff, 0xff, 0xff, 0xff, 0xff⟩

def isMcast (da : Mac) : Bool := da.b₀ &&& 0x01 != 0

/-- The maps have one bit for each mac id; `sta` tells who has it. -/
structure MacidCtl where
  num : ℕ
  used : BitVec 32
  bmc : BitVec 32
  if_g : BitVec 32
  sta : ℕ → Option ℕ

def rtwMacidIsSet (map : BitVec 32) (id : ℕ) : Bool := id < 32 && map &&& 1#32 <<< id != 0

def rtwMacidMapSet (map : BitVec 32) (id : ℕ) : BitVec 32 :=
  if id < 32 then map ||| 1#32 <<< id else map

def rtwMacidMapClr (map : BitVec 32) (id : ℕ) : BitVec 32 :=
  if id < 32 then map &&& ~~~(1#32 <<< id) else map

/-- RTW_DEFAULT_MGMT_MACID -/
def defaultMgmtMacid : ℕ := 1

/-- The map and the mac id of the station; `own` is the address of the adapter. -/
def rtwAllocMacid (own : Mac) (c : MacidCtl) (psta : ℕ) (mac_addr : Mac) : MacidCtl × ℕ :=
  if mac_addr = own then (c, c.num)
  else if mac_addr = bcAddr then (c, defaultMgmtMacid)
  else
    match (List.range c.num).find? fun i => !rtwMacidIsSet c.used i with
    | some i =>
      ({ c with
          used := rtwMacidMapSet c.used i
          if_g := rtwMacidMapSet c.if_g i
          sta := Function.update c.sta i (some psta) }, i)
    | none => (c, c.num)

/-- Afterwards the mac id of the station is `num`. -/
def rtwReleaseMacid (own : Mac) (c : MacidCtl) (mac_addr : Mac) (mac_id : ℕ) : MacidCtl :=
  if mac_addr = own then c
  else if c.num ≤ mac_id then c
  else if mac_id = defaultMgmtMacid then c
  else if !rtwMacidIsSet c.used mac_id then c
  else if !rtwMacidIsSet c.if_g mac_id then c
  else
    { c with
      used := rtwMacidMapClr c.used mac_id
      bmc := rtwMacidMapClr c.bmc mac_id
      if_g := rtwMacidMapClr c.if_g mac_id
      sta := Function.update c.sta mac_id none }

structure StaInfo where
  mac_addr : Mac
  mac_id : ℕ
  aid : ℕ

structure StaPriv where
  sta : ℕ → StaInfo
  free_sta_queue : List ℕ
  sta_hash : ℕ → List ℕ
  asoc_sta_count : ℤ
  macid_ctl : MacidCtl
  sta_aid : ℕ → Option ℕ
  max_aid : ℕ
  started_aid : ℕ
  rr_aid : Bool
  max_num_sta : ℕ

/-- NUM_STA -/
def numSta : ℕ := 32

def wifiMacHash (mac : Mac) : ℕ :=
  let x := mac.b₀.setWidth 32
  let x := x <<< 2 ^^^ mac.b₁.setWidth 32
  let x := x <<< 2 ^^^ mac.b₂.setWidth 32
  let x := x <<< 2 ^^^ mac.b₃.setWidth 32
  let x := x <<< 2 ^^^ mac.b₄.setWidth 32
  let x := x <<< 2 ^^^ mac.b₅.setWidth 32
  let x := x ^^^ x >>> 8
  (x &&& BitVec.ofNat 32 (numSta - 1)).toNat

def rtwAllocStainfo (own : Mac) (p : StaPriv) (hwaddr : Mac) : Option ℕ × StaPriv :=
  match p.free_sta_queue with
  | [] => (none, p)
  | psta :: rest =>
    let index := wifiMacHash hwaddr
    if numSta ≤ index then
      (none, { p with free_sta_queue := rest, sta := Function.update p.sta psta ⟨hwaddr, 0, 0⟩ })
    else
      let r := rtwAllocMacid own p.macid_ctl psta hwaddr
      (some psta,
        { p with
          free_sta_queue := rest
          sta := Function.update p.sta psta ⟨hwaddr, r.2, 0⟩
          sta_hash := Function.update p.sta_hash index (p.sta_hash index ++ [psta])
          asoc_sta_count := p.asoc_sta_count + 1
          macid_ctl := r.1 })

/-- `psta` leaves the list it is on. -/
def unhash (p : StaPriv) (psta : ℕ) : StaPriv :=
  { p with sta_hash := fun b => (p.sta_hash b).filter (· ≠ psta) }

/-- The station leaves the table and gives back its mac id. -/
def detach (own : Mac) (p : StaPriv) (psta : ℕ) : StaPriv :=
  { unhash p psta with
    asoc_sta_count := p.asoc_sta_count - 1
    macid_ctl := rtwReleaseMacid own p.macid_ctl (p.sta psta).mac_addr (p.sta psta).mac_id
    sta := Function.update p.sta psta { p.sta psta with mac_id := p.macid_ctl.num } }

def setAid (p : StaPriv) (psta aid : ℕ) : StaPriv :=
  { p with sta := Function.update p.sta psta { p.sta psta with aid := aid } }

/-- What happens to the AID; `ap` is `pmlmeinfo->state == _HW_STATE_AP_`. -/
def clearAid (ap : Bool) (p : StaPriv) (psta : ℕ) : StaPriv :=
  if ap ∧ 0 < (p.sta psta).aid ∧ p.sta_aid ((p.sta psta).aid - 1) = some psta then
    { setAid p psta 0 with
      sta_aid := Function.update p.sta_aid ((p.sta psta).aid - 1) none }
  else p

def rtwFreeStainfo (own : Mac) (ap : Bool) (p : StaPriv) (psta : ℕ) : StaPriv :=
  let p := clearAid ap (detach own p psta) psta
  { p with free_sta_queue := p.free_sta_queue ++ [psta] }

def rtwGetStainfo (p : StaPriv) (hwaddr : Mac) : Option ℕ :=
  let addr := if isMcast hwaddr then bcAddr else hwaddr
  (p.sta_hash (wifiMacHash addr)).find? fun psta => (p.sta psta).mac_addr = addr

def rtwGetBcmcStainfo (p : StaPriv) : Option ℕ := rtwGetStainfo p bcAddr

def freeStaList (p : StaPriv) : List ℕ :=
  let pbcmc_stainfo := rtwGetBcmcStainfo p
  (List.range numSta).flatMap fun index =>
    (p.sta_hash index).filter fun psta => pbcmc_stainfo ≠ some psta

/-- The stations are listed and taken from their buckets first, and freed then. -/
def rtwFreeAllStainfo (own : Mac) (ap : Bool) (p : StaPriv) : StaPriv :=
  if p.asoc_sta_count = 1 then p
  else (freeStaList p).foldl (rtwFreeStainfo own ap) ((freeStaList p).foldl unhash p)

/-- The search of rtw_aid_alloc with the turns it has left. No AID is 0. -/
def aidSearch (p : StaPriv) : ℕ → ℕ → ℕ → ℕ
  | 0, _, _ => 0
  | turns + 1, i, used_cnt =>
    let aid := (i + p.started_aid - 1) % p.max_aid + 1
    if p.sta_aid (aid - 1) = none then if p.max_num_sta ≤ used_cnt then 0 else aid
    else if p.max_num_sta ≤ used_cnt + 1 then 0
    else aidSearch p turns (i + 1) (used_cnt + 1)

def rtwAidAlloc (p : StaPriv) (psta : ℕ) : ℕ × StaPriv :=
  let aid := aidSearch p p.max_aid 0 0
  if aid = 0 then (aid, setAid p psta aid)
  else
    (aid,
      { setAid p psta aid with
        sta_aid := Function.update p.sta_aid (aid - 1) (some psta)
        started_aid := if p.rr_aid then aid % p.max_aid + 1 else p.started_aid })

/-- The AID assignment of OnAssocReq. -/
def assignAid (p : StaPriv) (psta : ℕ) : StaPriv :=
  if 0 < (p.sta psta).aid then p else (rtwAidAlloc p psta).2

/-- OnAssocReqFail -/
def onAssocReqFail (p : StaPriv) (psta : ℕ) : StaPriv := setAid p psta 0

/-- _rtw_init_sta_priv and rtw_macid_ctl_init, on zeroed memory. -/
def initStaPriv (num : ℕ) : StaPriv where
  sta _ := ⟨⟨0, 0, 0, 0, 0, 0⟩, 0, 0⟩
  free_sta_queue := List.range numSta
  sta_hash _ := []
  asoc_sta_count := 0
  macid_ctl :=
    { num := num
      used := rtwMacidMapSet 0 defaultMgmtMacid
      bmc := rtwMacidMapSet 0 defaultMgmtMacid
      if_g := rtwMacidMapSet 0 defaultMgmtMacid
      sta := fun _ => none }
  sta_aid _ := none
  max_aid := num
  started_aid := 1
  rr_aid := false
  max_num_sta := numSta

theorem isSet_eq (map : BitVec 32) {id : ℕ} (h : id < 32) :
    rtwMacidIsSet map id = map.getLsbD id := by
  have h1 : BitVec.twoPow 32 id ≠ 0#32 := fun hz => by
    have hb := congrArg (·.getLsbD id) hz
    simp [h] at hb
  rw [rtwMacidIsSet, ← BitVec.twoPow_eq, BitVec.and_twoPow, decide_eq_true h, Bool.true_and]
  split_ifs with hb
  · rw [hb, bne_iff_ne]
    exact h1
  · rw [Bool.not_eq_true] at hb
    rw [hb]
    rfl

theorem isSet_set (map : BitVec 32) {i : ℕ} (h : i < 32) (id : ℕ) :
    rtwMacidIsSet (rtwMacidMapSet map i) id = true ↔ id = i ∨ rtwMacidIsSet map id = true := by
  by_cases hid : id < 32
  · rw [isSet_eq _ hid, isSet_eq _ hid, rtwMacidMapSet, if_pos h, ← BitVec.twoPow_eq,
      BitVec.getLsbD_or, BitVec.getLsbD_twoPow, decide_eq_true h, Bool.true_and, Bool.or_eq_true,
      decide_eq_true_eq,
      or_comm, eq_comm]
  · have hne : id ≠ i := by omega
    simp [rtwMacidIsSet, hid, hne]

theorem isSet_clr (map : BitVec 32) {i : ℕ} (h : i < 32) (id : ℕ) :
    rtwMacidIsSet (rtwMacidMapClr map i) id = true ↔ id ≠ i ∧ rtwMacidIsSet map id = true := by
  by_cases hid : id < 32
  · rw [isSet_eq _ hid, isSet_eq _ hid, rtwMacidMapClr, if_pos h, ← BitVec.twoPow_eq,
      BitVec.getLsbD_and, BitVec.getLsbD_not, BitVec.getLsbD_twoPow, decide_eq_true h,
      decide_eq_true hid, Bool.true_and, Bool.true_and, Bool.and_eq_true, Bool.not_eq_true',
      decide_eq_false_iff_not, and_comm, eq_comm]
  · simp [rtwMacidIsSet, hid]

/-- The address of a station which gets a mac id for itself. -/
def Tracked (own k : Mac) : Prop := k ≠ own ∧ k ≠ bcAddr

instance (own k : Mac) : Decidable (Tracked own k) := inferInstanceAs (Decidable (_ ∧ _))

/-- The mac ids in use are those of the stations in the list, each of one station, and the one which
the broadcast station has. -/
structure Assigned (own : Mac) (c : MacidCtl) (mac_id : ℕ → ℕ) (live : List (ℕ × Mac)) : Prop where
  num_le : c.num ≤ 32
  num_gt : defaultMgmtMacid < c.num
  used : ∀ id, rtwMacidIsSet c.used id = true ↔ id = defaultMgmtMacid ∨ ∃ i, c.sta id = some i
  if_g : ∀ id, rtwMacidIsSet c.if_g id = rtwMacidIsSet c.used id
  owner : ∀ id i, c.sta id = some i ↔
    id < c.num ∧ ∃ k, (i, k) ∈ live ∧ Tracked own k ∧ mac_id i = id
  spare : c.sta defaultMgmtMacid = none
  broadcast : ∀ i k, (i, k) ∈ live → k ≠ own → k = bcAddr → mac_id i = defaultMgmtMacid
  unnumbered : ∀ i, (i, own) ∈ live → mac_id i = c.num

variable {own k : Mac} {c : MacidCtl} {mac_id : ℕ → ℕ} {live : List (ℕ × Mac)} {i : ℕ}

/-- The lowest mac id which is not in use, if there is one. -/
theorem Assigned.free_cases (h : Assigned own c mac_id live) :
    (∃ id, (List.range c.num).find? (fun i => !rtwMacidIsSet c.used i) = some id ∧ id < c.num ∧
      id ≠ defaultMgmtMacid ∧ c.sta id = none) ∨
    (List.range c.num).find? (fun i => !rtwMacidIsSet c.used i) = none ∧
      ∀ id < c.num, id = defaultMgmtMacid ∨ ∃ i, c.sta id = some i := by
  cases hf : (List.range c.num).find? fun i => !rtwMacidIsSet c.used i with
  | none =>
    refine .inr ⟨rfl, fun id hid => (h.used id).mp ?_⟩
    simpa using List.find?_eq_none.mp hf id (List.mem_range.mpr hid)
  | some id =>
    have hu := List.find?_some hf
    rw [Bool.not_eq_true', ← Bool.not_eq_true, h.used, not_or, not_exists] at hu
    have hm := List.mem_range.mp (List.mem_of_find?_eq_some hf)
    refine .inl ⟨id, rfl, hm, hu.1, ?_⟩
    cases hs : c.sta id with
    | none => rfl
    | some i => exact absurd hs (hu.2 i)

section
variable (h : Assigned own c mac_id live) (hi : ∀ e ∈ live, e.1 ≠ i)
include h hi

/-- A station without a mac id for itself is added. -/
theorem Assigned.alloc_none {m : ℕ} (hown : k = own → m = c.num)
    (hbc : k ≠ own → k = bcAddr → m = defaultMgmtMacid) (ht : Tracked own k → m = c.num) :
    Assigned own c (Function.update mac_id i m) (live ++ [(i, k)]) where
  num_le := h.num_le
  num_gt := h.num_gt
  used := h.used
  if_g := h.if_g
  owner id j := by
    rw [h.owner]
    refine and_congr_right fun hid => exists_congr fun k' => ?_
    rw [List.mem_append, List.mem_singleton]
    constructor
    · rintro ⟨hm, hk, he⟩
      exact ⟨.inl hm, hk, by rw [Function.update_of_ne (hi _ hm), he]⟩
    · rintro ⟨hm | hm, hk, he⟩
      · rw [Function.update_of_ne (hi _ hm)] at he
        exact ⟨hm, hk, he⟩
      · obtain ⟨rfl, rfl⟩ := Prod.mk.inj hm
        rw [Function.update_self, ht hk] at he
        omega
  spare := h.spare
  broadcast j k' hm := by
    rcases List.mem_append.mp hm with hm | hm
    · rw [Function.update_of_ne (hi _ hm)]
      exact h.broadcast j k' hm
    · obtain ⟨rfl, rfl⟩ := Prod.mk.inj (List.mem_singleton.mp hm)
      rw [Function.update_self]
      exact hbc
  unnumbered j hm := by
    rcases List.mem_append.mp hm with hm | hm
    · rw [Function.update_of_ne (hi _ hm)]
      exact h.unnumbered j hm
    · obtain ⟨rfl, hk⟩ := Prod.mk.inj (List.mem_singleton.mp hm)
      rw [Function.update_self]
      exact hown hk.symm

/-- A station with a mac id which nobody has is added. -/
theorem Assigned.alloc_some {id : ℕ} (ht : Tracked own k) (hid : id < c.num)
    (hne : id ≠ defaultMgmtMacid) (hs : c.sta id = none) :
    Assigned own
      { c with
        used := rtwMacidMapSet c.used id
        if_g := rtwMacidMapSet c.if_g id
        sta := Function.update c.sta id (some i) }
      (Function.update mac_id i id) (live ++ [(i, k)]) where
  num_le := h.num_le
  num_gt := h.num_gt
  used id' := by
    rw [isSet_set _ (Nat.lt_of_lt_of_le hid h.num_le), h.used]
    by_cases he : id' = id
    · simp [he]
    · simp [he]
  if_g id' := by
    rw [Bool.eq_iff_iff, isSet_set _ (Nat.lt_of_lt_of_le hid h.num_le),
      isSet_set _ (Nat.lt_of_lt_of_le hid h.num_le), h.if_g]
  owner id' j := by
    simp only [List.mem_append, List.mem_singleton]
    by_cases he : id' = id
    · subst he
      rw [Function.update_self]
      constructor
      · intro hj
        obtain rfl := Option.some.inj hj
        exact ⟨hid, k, .inr rfl, ht, Function.update_self ..⟩
      · rintro ⟨-, k', hm | hm, hk, hv⟩
        · rw [Function.update_of_ne (hi _ hm)] at hv
          have := (h.owner id' j).mpr ⟨hid, k', hm, hk, hv⟩
          rw [hs] at this
          cases this
        · rw [(Prod.mk.inj hm).1]
    · rw [Function.update_of_ne he, h.owner]
      refine and_congr_right fun _ => exists_congr fun k' => ?_
      constructor
      · rintro ⟨hm, hk, hv⟩
        exact ⟨.inl hm, hk, by rw [Function.update_of_ne (hi _ hm), hv]⟩
      · rintro ⟨hm | hm, hk, hv⟩
        · rw [Function.update_of_ne (hi _ hm)] at hv
          exact ⟨hm, hk, hv⟩
        · obtain ⟨rfl, rfl⟩ := Prod.mk.inj hm
          rw [Function.update_self] at hv
          exact absurd hv.symm he
  spare := (Function.update_of_ne hne.symm _ _).trans h.spare
  broadcast j k' hm := by
    rcases List.mem_append.mp hm with hm | hm
    · rw [Function.update_of_ne (hi _ hm)]
      exact h.broadcast j k' hm
    · obtain ⟨rfl, rfl⟩ := Prod.mk.inj (List.mem_singleton.mp hm)
      exact fun _ hb => absurd hb ht.2
  unnumbered j hm := by
    rcases List.mem_append.mp hm with hm | hm
    · rw [Function.update_of_ne (hi _ hm)]
      exact h.unnumbered j hm
    · obtain ⟨rfl, hk⟩ := Prod.mk.inj (List.mem_singleton.mp hm)
      exact absurd hk.symm ht.1

/-- A new station gets the lowest mac id which is not in use. -/
theorem Assigned.alloc (k : Mac) :
    Assigned own (rtwAllocMacid own c i k).1
      (Function.update mac_id i (rtwAllocMacid own c i k).2) (live ++ [(i, k)]) := by
  rw [rtwAllocMacid]
  split_ifs with ho hb
  · exact h.alloc_none hi (fun _ => rfl) (fun hn => absurd ho hn) fun ht => absurd ho ht.1
  · exact h.alloc_none hi (fun hk => absurd hk ho) (fun _ _ => rfl) fun ht => absurd hb ht.2
  · rcases h.free_cases with ⟨id, hf, hid, hne, hs⟩ | ⟨hf, -⟩
    · rw [hf]
      exact h.alloc_some hi ⟨ho, hb⟩ hid hne hs
    · rw [hf]
      exact h.alloc_none hi (fun hk => absurd hk ho) (fun _ hk => absurd hk hb) fun _ => rfl

end

theorem mem_gone {j : ℕ} {k' : Mac} : (j, k') ∈ live.filter (·.1 ≠ i) ↔ (j, k') ∈ live ∧ j ≠ i := by
  simp [List.mem_filter]

section
variable (h : Assigned own c mac_id live) {mac_id' : ℕ → ℕ} (hm : ∀ j, j ≠ i → mac_id' j = mac_id j)
include h hm

/-- A station without a mac id for itself goes. -/
theorem Assigned.release_none (hs : ∀ id, c.sta id ≠ some i) :
    Assigned own c mac_id' (live.filter (·.1 ≠ i)) where
  num_le := h.num_le
  num_gt := h.num_gt
  used := h.used
  if_g := h.if_g
  owner id j := by
    simp only [mem_gone]
    rw [h.owner]
    refine and_congr_right fun hid => exists_congr fun k' => ?_
    constructor
    · rintro ⟨hj, hk, he⟩
      have hne : j ≠ i := by
        rintro rfl
        exact hs id ((h.owner id j).mpr ⟨hid, k', hj, hk, he⟩)
      exact ⟨⟨hj, hne⟩, hk, by rw [hm j hne, he]⟩
    · rintro ⟨⟨hj, hne⟩, hk, he⟩
      rw [hm j hne] at he
      exact ⟨hj, hk, he⟩
  spare := h.spare
  broadcast j k' hj := by
    obtain ⟨hj, hne⟩ := mem_gone.mp hj
    rw [hm j hne]
    exact h.broadcast j k' hj
  unnumbered j hj := by
    obtain ⟨hj, hne⟩ := mem_gone.mp hj
    rw [hm j hne]
    exact h.unnumbered j hj

/-- The station which has a mac id goes. -/
theorem Assigned.release_some {id : ℕ} (hs : c.sta id = some i) :
    Assigned own
      { c with
        used := rtwMacidMapClr c.used id
        bmc := rtwMacidMapClr c.bmc id
        if_g := rtwMacidMapClr c.if_g id
        sta := Function.update c.sta id none }
      mac_id' (live.filter (·.1 ≠ i)) where
  num_le := h.num_le
  num_gt := h.num_gt
  used id' := by
    have hne : id ≠ defaultMgmtMacid := by
      rintro rfl
      rw [h.spare] at hs
      cases hs
    have hid := Nat.lt_of_lt_of_le ((h.owner id i).mp hs).1 h.num_le
    rw [isSet_clr _ hid, h.used]
    by_cases he : id' = id
    · simp [he, hne]
    · simp [he]
  if_g id' := by
    have hid := Nat.lt_of_lt_of_le ((h.owner id i).mp hs).1 h.num_le
    rw [Bool.eq_iff_iff, isSet_clr _ hid, isSet_clr _ hid, h.if_g]
  owner id' j := by
    simp only [mem_gone]
    obtain ⟨hid, k, hi, hk, hv⟩ := (h.owner id i).mp hs
    by_cases he : id' = id
    · subst he
      rw [Function.update_self]
      refine iff_of_false (by simp) ?_
      rintro ⟨-, k', ⟨hj, hne⟩, hk', hv'⟩
      rw [hm j hne] at hv'
      have hj' := (h.owner id' j).mpr ⟨hid, k', hj, hk', hv'⟩
      rw [hs] at hj'
      exact hne (Option.some.inj hj').symm
    · rw [Function.update_of_ne he, h.owner]
      refine and_congr_right fun hid' => exists_congr fun k' => ?_
      constructor
      · rintro ⟨hj, hk', hv'⟩
        have hne : j ≠ i := by
          rintro rfl
          exact he (hv'.symm.trans hv)
        exact ⟨⟨hj, hne⟩, hk', by rw [hm j hne, hv']⟩
      · rintro ⟨⟨hj, hne⟩, hk', hv'⟩
        rw [hm j hne] at hv'
        exact ⟨hj, hk', hv'⟩
  spare := by
    have hne : defaultMgmtMacid ≠ id := by
      rintro rfl
      rw [h.spare] at hs
      cases hs
    exact (Function.update_of_ne hne _ _).trans h.spare
  broadcast j k' hj := by
    obtain ⟨hj, hne⟩ := mem_gone.mp hj
    rw [hm j hne]
    exact h.broadcast j k' hj
  unnumbered j hj := by
    obtain ⟨hj, hne⟩ := mem_gone.mp hj
    rw [hm j hne]
    exact h.unnumbered j hj

/-- A station gives its mac id back. -/
theorem Assigned.release (hk : (i, k) ∈ live) (hu : ∀ k', (i, k') ∈ live → k' = k) :
    Assigned own (rtwReleaseMacid own c k (mac_id i)) mac_id' (live.filter (·.1 ≠ i)) := by
  have hv {id : ℕ} (hs : c.sta id = some i) : id < c.num ∧ Tracked own k ∧ mac_id i = id := by
    obtain ⟨hid, k', hi, hk', hv⟩ := (h.owner id i).mp hs
    obtain rfl := hu k' hi
    exact ⟨hid, hk', hv⟩
  rw [rtwReleaseMacid]
  split_ifs with ho hn h1 hused hif
  · exact h.release_none hm fun id hs => (hv hs).2.1.1 ho
  · refine h.release_none hm fun id hs => ?_
    obtain ⟨hid, -, rfl⟩ := hv hs
    omega
  · refine h.release_none hm fun id hs => ?_
    obtain ⟨-, -, rfl⟩ := hv hs
    rw [h1, h.spare] at hs
    cases hs
  · refine h.release_none hm fun id hs => ?_
    obtain ⟨-, -, rfl⟩ := hv hs
    rw [(h.used _).mpr (.inr ⟨i, hs⟩)] at hused
    cases hused
  · refine h.release_none hm fun id hs => ?_
    obtain ⟨-, -, rfl⟩ := hv hs
    rw [h.if_g, (h.used _).mpr (.inr ⟨i, hs⟩)] at hif
    cases hif
  · -- neither the own nor the broadcast address, so the mac id is its own
    have hb : k ≠ bcAddr := fun hb => h1 (h.broadcast i k hk ho hb)
    exact h.release_some hm ((h.owner _ i).mpr ⟨Nat.lt_of_not_le hn, k, hk, ⟨ho, hb⟩, rfl⟩)

end

/-- The stations in the list, the oldest first, are those which are allocated. -/
structure Table (own : Mac) (p : StaPriv) (live : List (ℕ × Mac)) : Prop where
  files : Files wifiMacHash (fun i => (p.sta i).mac_addr) p.sta_hash live
  queue : (live.map Prod.fst ++ p.free_sta_queue).Perm (List.range numSta)
  count : p.asoc_sta_count = live.length
  macids : Assigned own p.macid_ctl (fun i => (p.sta i).mac_id) live

variable {p : StaPriv} {num : ℕ}

theorem wifiMacHash_lt (mac : Mac) : wifiMacHash mac < numSta := by
  rw [wifiMacHash, BitVec.toNat_and]
  exact Nat.lt_succ_of_le Nat.and_le_right

theorem table_init (h1 : defaultMgmtMacid < num) (h2 : num ≤ 32) :
    Table own (initStaPriv num) [] where
  files := Files.empty
  queue := List.Perm.refl _
  count := rfl
  macids :=
    { num_le := h2
      num_gt := h1
      used := fun id => by
        rw [initStaPriv, isSet_set _ (by decide)]
        simp [rtwMacidIsSet]
      if_g := fun _ => rfl
      owner := by simp [initStaPriv]
      spare := rfl
      broadcast := by simp
      unnumbered := by simp }

theorem update_field {β γ : Type*} (g : ℕ → β) (f : β → γ) (i : ℕ) (x : β) :
    (fun j => f (Function.update g i x j)) = Function.update (fun j => f (g j)) i (f x) := by
  funext j
  by_cases hj : j = i
  · rw [hj, Function.update_self, Function.update_self]
  · rw [Function.update_of_ne hj, Function.update_of_ne hj]

section
variable (h : Table own p live)
include h

theorem Table.queue_nodup : (live.map Prod.fst ++ p.free_sta_queue).Nodup :=
  h.queue.symm.nodup List.nodup_range

theorem Table.ids_nodup : (live.map Prod.fst).Nodup := (List.nodup_append.mp h.queue_nodup).1

theorem Table.unique {k' : Mac} (hk : (i, k) ∈ live) (hk' : (i, k') ∈ live) : k = k' :=
  (h.files.keyed _ hk).symm.trans (h.files.keyed _ hk')

theorem Table.alloc (hwaddr : Mac) :
    (rtwAllocStainfo own p hwaddr = (none, p) ∧ live.length = numSta) ∨
    ∃ psta, (rtwAllocStainfo own p hwaddr).1 = some psta ∧ (∀ e ∈ live, e.1 ≠ psta) ∧
      live.length < numSta ∧
        Table own (rtwAllocStainfo own p hwaddr).2 (live ++ [(psta, hwaddr)]) := by
  have hq := h.queue.length_eq
  rw [List.length_append, List.length_map, List.length_range] at hq
  rw [rtwAllocStainfo]
  cases hf : p.free_sta_queue with
  | nil =>
    rw [hf, List.length_nil, Nat.add_zero] at hq
    exact .inl ⟨rfl, hq⟩
  | cons psta rest =>
    have hn := h.queue_nodup
    rw [hf, List.length_cons] at hq
    rw [hf] at hn
    have hi (e : ℕ × Mac) (he : e ∈ live) : e.1 ≠ psta := by
      rintro rfl
      exact (List.nodup_append.mp hn).2.2 _ (List.mem_map_of_mem he) _ List.mem_cons_self rfl
    simp only [if_neg (Nat.not_le_of_lt (wifiMacHash_lt hwaddr))]
    refine .inr ⟨psta, rfl, hi, by omega, ?_, ?_, ?_, ?_⟩
    · simp only [update_field p.sta StaInfo.mac_addr]
      exact h.files.insert hwaddr hi
    · refine List.Perm.trans ?_ h.queue
      rw [hf, List.map_append, List.append_assoc]
      exact List.Perm.refl _
    · simp only [h.count, List.length_append, List.length_singleton]
      omega
    · simp only [update_field p.sta StaInfo.mac_id]
      exact h.macids.alloc hi hwaddr

end

@[simp] theorem setAid_mac_addr (p : StaPriv) (psta aid i : ℕ) :
    ((setAid p psta aid).sta i).mac_addr = (p.sta i).mac_addr := by
  by_cases hi : i = psta <;> simp [setAid, hi]

@[simp] theorem setAid_mac_id (p : StaPriv) (psta aid i : ℕ) :
    ((setAid p psta aid).sta i).mac_id = (p.sta i).mac_id := by
  by_cases hi : i = psta <;> simp [setAid, hi]

/-- What the table reads of a state; the AIDs are not part of it. -/
structure SameTable (p p' : StaPriv) : Prop where
  sta_hash : p'.sta_hash = p.sta_hash
  free_sta_queue : p'.free_sta_queue = p.free_sta_queue
  asoc_sta_count : p'.asoc_sta_count = p.asoc_sta_count
  macid_ctl : p'.macid_ctl = p.macid_ctl
  mac_addr : ∀ i, (p'.sta i).mac_addr = (p.sta i).mac_addr
  mac_id : ∀ i, (p'.sta i).mac_id = (p.sta i).mac_id

theorem Table.same {p' : StaPriv} (h : Table own p live) (hs : SameTable p p') :
    Table own p' live where
  files := by
    simp only [hs.sta_hash, hs.mac_addr]
    exact h.files
  queue := by
    rw [hs.free_sta_queue]
    exact h.queue
  count := by
    rw [hs.asoc_sta_count]
    exact h.count
  macids := by
    simp only [hs.macid_ctl, hs.mac_id]
    exact h.macids

theorem setAid_same (p : StaPriv) (psta aid : ℕ) : SameTable p (setAid p psta aid) :=
  ⟨rfl, rfl, rfl, rfl, setAid_mac_addr p psta aid, setAid_mac_id p psta aid⟩

theorem assignAid_same (p : StaPriv) (psta : ℕ) : SameTable p (assignAid p psta) := by
  rw [assignAid]
  split_ifs
  · exact ⟨rfl, rfl, rfl, rfl, fun _ => rfl, fun _ => rfl⟩
  · rw [rtwAidAlloc]
    by_cases ha : aidSearch p p.max_aid 0 0 = 0
    · simp only [ha, if_true]
      exact setAid_same ..
    · simp only [if_neg ha]
      exact ⟨rfl, rfl, rfl, rfl, setAid_mac_addr p psta _, setAid_mac_id p psta _⟩

theorem clearAid_same (ap : Bool) (p : StaPriv) (psta : ℕ) : SameTable p (clearAid ap p psta) := by
  rw [clearAid]
  split_ifs
  · exact ⟨rfl, rfl, rfl, rfl, setAid_mac_addr p psta 0, setAid_mac_id p psta 0⟩
  · exact ⟨rfl, rfl, rfl, rfl, fun _ => rfl, fun _ => rfl⟩

theorem free_spec (own : Mac) (ap : Bool) (p : StaPriv) (psta : ℕ) :
    (rtwFreeStainfo own ap p psta).sta_hash = (fun b => (p.sta_hash b).filter (· ≠ psta)) ∧
    (rtwFreeStainfo own ap p psta).free_sta_queue = p.free_sta_queue ++ [psta] ∧
    (rtwFreeStainfo own ap p psta).asoc_sta_count = p.asoc_sta_count - 1 ∧
    (rtwFreeStainfo own ap p psta).macid_ctl =
      rtwReleaseMacid own p.macid_ctl (p.sta psta).mac_addr (p.sta psta).mac_id ∧
    (∀ i, ((rtwFreeStainfo own ap p psta).sta i).mac_addr = (p.sta i).mac_addr) ∧
    ∀ i, i ≠ psta → ((rtwFreeStainfo own ap p psta).sta i).mac_id = (p.sta i).mac_id := by
  have hs := clearAid_same ap (detach own p psta) psta
  refine ⟨hs.sta_hash, congrArg (· ++ [psta]) hs.free_sta_queue, hs.asoc_sta_count, hs.macid_ctl,
    fun i => (hs.mac_addr i).trans ?_, fun i hne => (hs.mac_id i).trans ?_⟩
  · by_cases he : i = psta <;> simp [detach, he]
  · simp [detach, hne]

section
variable (h : Table own p live)
include h

/-- A station leaves the table for the end of the free queue. -/
theorem Table.free (ap : Bool) (hk : (i, k) ∈ live) :
    Table own (rtwFreeStainfo own ap p i) (live.filter (·.1 ≠ i)) := by
  obtain ⟨hh, hq, hc, hm, ha, hi⟩ := free_spec own ap p i
  have hids : (live.filter (·.1 ≠ i)).map Prod.fst = (live.map Prod.fst).erase i := by
    rw [h.ids_nodup.erase_eq_filter, List.filter_map]
    refine congrArg _ (List.filter_congr fun e _ => ?_)
    rw [Function.comp_apply, bne, beq_eq_decide, decide_not]
  have hmem : i ∈ live.map Prod.fst := List.mem_map_of_mem hk
  refine ⟨?_, ?_, ?_, ?_⟩
  · rw [hh]
    simp only [ha]
    exact h.files.remove fun _ _ => rfl
  · rw [hq, hids, ← List.append_assoc]
    refine (List.perm_append_singleton i _).trans (List.Perm.trans ?_ h.queue)
    exact (List.perm_cons_erase hmem).symm.append_right _
  · have hl := congrArg List.length hids
    have hpos := List.length_pos_of_mem hmem
    rw [List.length_map, List.length_erase_of_mem hmem, List.length_map] at hl
    rw [List.length_map] at hpos
    rw [hc, h.count, hl]
    omega
  · rw [hm, h.files.keyed _ hk]
    exact h.macids.release hi hk fun k' hk' => h.unique hk' hk

end

theorem clearAid_buckets (ap : Bool) (p : StaPriv) (g : ℕ → List ℕ) (i : ℕ) :
    clearAid ap { p with sta_hash := g } i = { clearAid ap p i with sta_hash := g } := by
  rw [clearAid, clearAid]
  split_ifs <;> rfl

/-- To free a station, the buckets are only read to take it out. -/
theorem free_buckets (own : Mac) (ap : Bool) (p : StaPriv) (g : ℕ → List ℕ) (i : ℕ) :
    rtwFreeStainfo own ap { p with sta_hash := g } i =
      { rtwFreeStainfo own ap p i with sta_hash := fun b => (g b).filter (· ≠ i) } := by
  have hd : detach own { p with sta_hash := g } i =
      { detach own p i with sta_hash := fun b => (g b).filter (· ≠ i) } := rfl
  rw [rtwFreeStainfo, hd, clearAid_buckets]
  rfl

theorem filter_gone (l : List ℕ) (i : ℕ) (ids : List ℕ) :
    (l.filter (· ≠ i)).filter (· ∉ ids) = l.filter (· ∉ i :: ids) := by
  rw [List.filter_filter]
  refine List.filter_congr fun j _ => ?_
  simp [Bool.and_comm]

theorem foldl_unhash (ids : List ℕ) (p : StaPriv) :
    ids.foldl unhash p = { p with sta_hash := fun b => (p.sta_hash b).filter (· ∉ ids) } := by
  induction ids generalizing p with
  | nil => simp
  | cons i ids ih =>
    rw [List.foldl_cons, ih]
    simp only [unhash, filter_gone]

theorem foldl_free (own : Mac) (ap : Bool) (ids : List ℕ) (p : StaPriv) (g : ℕ → List ℕ) :
    ids.foldl (rtwFreeStainfo own ap) { p with sta_hash := g } =
      { ids.foldl (rtwFreeStainfo own ap) p with sta_hash := fun b => (g b).filter (· ∉ ids) } := by
  induction ids generalizing p g with
  | nil => simp
  | cons i ids ih =>
    rw [List.foldl_cons, List.foldl_cons, free_buckets, ih]
    simp only [filter_gone]

/-- That the stations leave their buckets beforehand makes no difference. -/
theorem foldl_free_unhash (own : Mac) (ap : Bool) (ids : List ℕ) (p : StaPriv) :
    ids.foldl (rtwFreeStainfo own ap) (ids.foldl unhash p) =
      ids.foldl (rtwFreeStainfo own ap) p := by
  have hp := foldl_free own ap ids p p.sta_hash
  rw [foldl_unhash, foldl_free]
  refine Eq.trans ?_ hp.symm
  simp only [List.filter_filter, Bool.and_self]

theorem freeAll_eq (own : Mac) (ap : Bool) (p : StaPriv) :
    rtwFreeAllStainfo own ap p =
      if p.asoc_sta_count = 1 then p else (freeStaList p).foldl (rtwFreeStainfo own ap) p := by
  rw [rtwFreeAllStainfo, foldl_free_unhash]

theorem Table.free_list {ids : List ℕ} (ap : Bool) (h : Table own p live)
    (hids : ∀ i ∈ ids, ∃ k, (i, k) ∈ live) (hn : ids.Nodup) :
    Table own (ids.foldl (rtwFreeStainfo own ap) p) (live.filter (·.1 ∉ ids)) := by
  induction ids generalizing p live with
  | nil => simpa using h
  | cons i ids ih =>
    obtain ⟨hi, hn⟩ := List.nodup_cons.mp hn
    obtain ⟨k, hk⟩ := hids i List.mem_cons_self
    have hkeep (j : ℕ) (hj : j ∈ ids) : ∃ k, (j, k) ∈ live.filter (·.1 ≠ i) := by
      obtain ⟨k, hk⟩ := hids j (List.mem_cons_of_mem _ hj)
      exact ⟨k, mem_gone.mpr ⟨hk, fun he => hi (he ▸ hj)⟩⟩
    have ht := ih (h.free ap hk) hkeep hn
    rw [List.filter_filter] at ht
    rw [List.foldl_cons]
    convert ht using 1
    refine List.filter_congr fun e _ => ?_
    simp [Bool.and_comm]

/-- The oldest station with an address. -/
def oldest (live : List (ℕ × Mac)) (addr : Mac) : Option (ℕ × Mac) := live.find? fun e => e.2 = addr

section
variable (h : Table own p live)
include h

theorem Table.get (hwaddr : Mac) :
    rtwGetStainfo p hwaddr =
      (oldest live (if isMcast hwaddr then bcAddr else hwaddr)).map Prod.fst :=
  h.files.find _

theorem Table.kept :
    live.filter (fun e => (oldest live bcAddr).map Prod.fst = some e.1) =
      (oldest live bcAddr).toList := by
  cases ho : oldest live bcAddr with
  | none => simp
  | some e =>
    have he : e ∈ live := List.mem_of_find?_eq_some ho
    have hn : live.Nodup := List.Nodup.of_map _ h.ids_nodup
    rw [Option.toList_some, ← List.replicate_one, ← List.count_eq_one_of_mem hn he,
      ← List.filter_eq]
    refine List.filter_congr fun e' he' => ?_
    rw [Option.map_some, decide_eq_decide, Option.some_inj]
    exact ⟨fun hi => List.inj_on_of_nodup_map h.ids_nodup he' he hi.symm, fun hi => hi ▸ rfl⟩

theorem Table.mem_list (i : ℕ) : i ∈ freeStaList p ↔
    (∃ k, (i, k) ∈ live) ∧ (oldest live bcAddr).map Prod.fst ≠ some i := by
  have hget : rtwGetBcmcStainfo p = (oldest live bcAddr).map Prod.fst := h.get bcAddr
  rw [freeStaList, hget, h.files.mem_flatMap _ wifiMacHash_lt, decide_eq_true_eq]

theorem Table.unlisted :
    live.filter (·.1 ∉ freeStaList p) = (oldest live bcAddr).toList := by
  rw [← h.kept]
  refine List.filter_congr fun e he => ?_
  rw [decide_eq_decide, h.mem_list, not_and, not_not]
  exact ⟨fun hb => hb ⟨e.2, he⟩, fun hb _ => hb⟩

theorem Table.count_one : p.asoc_sta_count = 1 ↔ live.length = 1 := by
  rw [h.count]
  exact Nat.cast_eq_one

/-- Only the oldest broadcast station stays, unless there is one station at all. -/
theorem Table.freeAll (ap : Bool) : Table own (rtwFreeAllStainfo own ap p)
    (if live.length = 1 then live else (oldest live bcAddr).toList) := by
  rw [freeAll_eq]
  by_cases h1 : live.length = 1
  · rw [if_pos (h.count_one.mpr h1), if_pos h1]
    exact h
  · rw [if_neg fun hc => h1 (h.count_one.mp hc), if_neg h1, ← h.unlisted]
    exact h.free_list ap (fun i hi => ((h.mem_list i).mp hi).1)
      (h.files.flatMap_nodup h.ids_nodup ..)

end

inductive Move where
  | alloc (hwaddr : Mac)
  | free (ap : Bool) (psta : ℕ)
  | freeAll (ap : Bool)
  | assoc (psta : ℕ)
  | refuse (psta : ℕ)

/-- Only a station which is in the table is freed or asks for an association. -/
inductive Step (own : Mac) (p : StaPriv) : Move → StaPriv → Prop
  | alloc (hwaddr : Mac) : Step own p (.alloc hwaddr) (rtwAllocStainfo own p hwaddr).2
  | free (ap : Bool) (psta b : ℕ) (hp : psta ∈ p.sta_hash b) :
      Step own p (.free ap psta) (rtwFreeStainfo own ap p psta)
  | freeAll (ap : Bool) : Step own p (.freeAll ap) (rtwFreeAllStainfo own ap p)
  | assoc (psta b : ℕ) (hp : psta ∈ p.sta_hash b) : Step own p (.assoc psta) (assignAid p psta)
  | refuse (psta b : ℕ) (hp : psta ∈ p.sta_hash b) :
      Step own p (.refuse psta) (onAssocReqFail p psta)

/-- The stations which have been handed out and not taken back, the oldest first. -/
def watch (own : Mac) (live : List (ℕ × Mac)) (p : StaPriv) : Move → List (ℕ × Mac)
  | .alloc hwaddr =>
    live ++ ((rtwAllocStainfo own p hwaddr).1.map fun psta => (psta, hwaddr)).toList
  | .free _ psta => live.filter (·.1 ≠ psta)
  | .freeAll _ => if live.length = 1 then live else (oldest live bcAddr).toList
  | .assoc _ => live
  | .refuse _ => live

abbrev Runs (own : Mac) (num : ℕ) : List Move → StaPriv × List (ℕ × Mac) → Prop :=
  Run (Watched (Step own) (watch own)) (initStaPriv num, [])

theorem runs_snoc {ms : List Move} {q : StaPriv × List (ℕ × Mac)} {m : Move} {p' : StaPriv}
    (h : Runs own num ms q) (hs : Step own q.1 m p') :
    Runs own num (ms ++ [m]) (p', watch own q.2 q.1 m) := h.snoc ⟨hs, rfl⟩

theorem step_table {m : Move} {p' : StaPriv} (h : Table own p live) (hs : Step own p m p') :
    Table own p' (watch own live p m) := by
  cases hs with
  | alloc hwaddr =>
    rcases h.alloc hwaddr with ⟨he, -⟩ | ⟨psta, he, -, -, ht⟩
    · rw [watch, he]
      simpa using h
    · rw [watch, he]
      exact ht
  | free _ _ _ hp =>
    obtain ⟨k, hk⟩ := h.files.mem_iff.mp ⟨_, hp⟩
    exact h.free _ hk
  | freeAll => exact h.freeAll _
  | assoc psta => exact h.same (assignAid_same p psta)
  | refuse psta => exact h.same (setAid_same p psta 0)

theorem runs_table {ms : List Move} {q : StaPriv × List (ℕ × Mac)} (h1 : defaultMgmtMacid < num)
    (h2 : num ≤ 32) (h : Runs own num ms q) : Table own q.1 q.2 :=
  h.watched (I := Table own) (table_init h1 h2) fun _ _ _ _ => step_table

/-- Along every run the table answers for the stations which have been handed out and not taken
back: a search finds the oldest with the address, and there is room until there are NUM_STA. -/
theorem runs_find {ms : List Move} {q : StaPriv × List (ℕ × Mac)} (h1 : defaultMgmtMacid < num)
    (h2 : num ≤ 32) (h : Runs own num ms q) :
    (∀ hwaddr, rtwGetStainfo q.1 hwaddr =
      (oldest q.2 (if isMcast hwaddr then bcAddr else hwaddr)).map Prod.fst) ∧
    (∀ hwaddr, (rtwAllocStainfo own q.1 hwaddr).1 = none ↔ q.2.length = numSta) ∧
    (∀ hwaddr psta, (rtwAllocStainfo own q.1 hwaddr).1 = some psta →
      psta < numSta ∧ ∀ e ∈ q.2, e.1 ≠ psta) ∧
    (q.2.map Prod.fst).Nodup ∧ q.1.asoc_sta_count = q.2.length := by
  have ht := runs_table h1 h2 h
  refine ⟨ht.get, fun hwaddr => ?_, fun hwaddr psta ha => ?_, ht.ids_nodup, ht.count⟩
  · rcases ht.alloc hwaddr with ⟨he, hfull⟩ | ⟨psta, he, -, hroom, -⟩
    · exact iff_of_true (congrArg Prod.fst he) hfull
    · refine iff_of_false ?_ (Nat.ne_of_lt hroom)
      rw [he]
      exact Option.some_ne_none psta
  · rcases ht.alloc hwaddr with ⟨he, -⟩ | ⟨psta', he, hnew, -, hnext⟩
    · rw [he] at ha
      cases ha
    · obtain rfl := Option.some.inj (he.symm.trans ha)
      refine ⟨?_, hnew⟩
      have hm : psta' ∈ (q.2 ++ [(psta', hwaddr)]).map Prod.fst := by simp
      exact List.mem_range.mp (hnext.queue.mem_iff.mp (List.mem_append_left _ hm))

def sampleOwn : Mac := ⟨0x00, 0xe0, 0x4c, 0x00, 0x00, 0x01⟩

def sampleSta : Mac := ⟨0x00, 0xe0, 0x4c, 0x00, 0x00, 0x02⟩

def sampleMoves : List Move := [.alloc bcAddr, .alloc sampleSta, .free true 1]

theorem runs_find_three :
    ∃ q, Runs sampleOwn 16 sampleMoves q ∧ rtwGetStainfo q.1 ⟨0x01, 0, 0x5e, 0, 0, 1⟩ = some 0 ∧
      rtwGetStainfo q.1 sampleSta = none ∧ q.1.asoc_sta_count = 1 := by
  have start : Runs sampleOwn 16 [] _ := .nil
  have both := runs_snoc (runs_snoc start (.alloc bcAddr)) (.alloc sampleSta)
  have run := runs_snoc both (.free true 1 (wifiMacHash sampleSta) (by decide))
  obtain ⟨hfind, -, -, -, hcount⟩ := runs_find (by decide) (by decide) run
  exact ⟨_, run, (hfind _).trans (by decide), (hfind _).trans (by decide), hcount⟩

theorem allocMacid_num (own : Mac) (c : MacidCtl) (psta : ℕ) (k : Mac) :
    (rtwAllocMacid own c psta k).1.num = c.num := by
  rw [rtwAllocMacid]
  split_ifs
  · rfl
  · rfl
  · cases (List.range c.num).find? fun i => !rtwMacidIsSet c.used i <;> rfl

theorem releaseMacid_num (own : Mac) (c : MacidCtl) (k : Mac) (mac_id : ℕ) :
    (rtwReleaseMacid own c k mac_id).num = c.num := by
  rw [rtwReleaseMacid]
  split_ifs <;> rfl

theorem alloc_num (own : Mac) (p : StaPriv) (hwaddr : Mac) :
    (rtwAllocStainfo own p hwaddr).2.macid_ctl.num = p.macid_ctl.num := by
  rw [rtwAllocStainfo]
  cases p.free_sta_queue with
  | nil => rfl
  | cons psta rest =>
    dsimp only
    split_ifs
    · rfl
    · exact allocMacid_num ..

theorem free_num (own : Mac) (ap : Bool) (p : StaPriv) (psta : ℕ) :
    (rtwFreeStainfo own ap p psta).macid_ctl.num = p.macid_ctl.num := by
  rw [(free_spec own ap p psta).2.2.2.1, releaseMacid_num]

theorem foldl_num (own : Mac) (ap : Bool) (ids : List ℕ) (p : StaPriv) :
    (ids.foldl (rtwFreeStainfo own ap) p).macid_ctl.num = p.macid_ctl.num := by
  induction ids generalizing p with
  | nil => rfl
  | cons i ids ih => rw [List.foldl_cons, ih, free_num]

theorem step_num {m : Move} {p' : StaPriv} (hs : Step own p m p') :
    p'.macid_ctl.num = p.macid_ctl.num := by
  cases hs with
  | alloc => exact alloc_num ..
  | free => exact free_num ..
  | freeAll =>
    rw [freeAll_eq]
    split_ifs
    · rfl
    · exact foldl_num ..
  | assoc psta => rw [(assignAid_same p psta).macid_ctl]
  | refuse => rfl

theorem runs_num {ms : List Move} {q : StaPriv × List (ℕ × Mac)} (h : Runs own num ms q) :
    q.1.macid_ctl.num = num :=
  h.watched (I := fun p _ => p.macid_ctl.num = num) rfl fun _ _ _ _ hn hs => (step_num hs).trans hn

/-- A station with an address of its own goes without a mac id when none is left. -/
theorem Assigned.without_iff (h : Assigned own c mac_id live) (ht : Tracked own k) :
    (rtwAllocMacid own c i k).2 = c.num ↔
      ∀ id < c.num, id = defaultMgmtMacid ∨ ∃ i, c.sta id = some i := by
  rw [rtwAllocMacid, if_neg ht.1, if_neg ht.2]
  rcases h.free_cases with ⟨id, hf, hid, hne, hs⟩ | ⟨hf, hall⟩
  · rw [hf]
    refine iff_of_false (Nat.ne_of_lt hid) fun hall => ?_
    obtain ⟨j, hj⟩ := (hall id hid).resolve_left hne
    rw [hs] at hj
    cases hj
  · rw [hf]
    exact iff_of_true rfl hall

/-- Along every run a mac id belongs to the one station which has it, and a station with an address
of its own goes without only when all are taken. -/
theorem runs_macids {ms : List Move} {q : StaPriv × List (ℕ × Mac)} (h1 : defaultMgmtMacid < num)
    (h2 : num ≤ 32) (h : Runs own num ms q) :
    (∀ id i, q.1.macid_ctl.sta id = some i ↔
      id < num ∧ ∃ k, (i, k) ∈ q.2 ∧ Tracked own k ∧ (q.1.sta i).mac_id = id) ∧
    (∀ i k, (i, k) ∈ q.2 → Tracked own k → (q.1.sta i).mac_id ≠ defaultMgmtMacid) ∧
    (∀ id, rtwMacidIsSet q.1.macid_ctl.used id = true ↔
      id = defaultMgmtMacid ∨ ∃ i, q.1.macid_ctl.sta id = some i) ∧
    ∀ psta k, Tracked own k → ((rtwAllocMacid own q.1.macid_ctl psta k).2 = num ↔
      ∀ id < num, id = defaultMgmtMacid ∨ ∃ i, q.1.macid_ctl.sta id = some i) := by
  have hm := (runs_table h1 h2 h).macids
  have hnum := runs_num h
  refine ⟨fun id i => ?_, fun i k hi hk hd => ?_, hm.used, fun psta k hk => ?_⟩
  · rw [hm.owner, hnum]
  · have hs := (hm.owner defaultMgmtMacid i).mpr ⟨hm.num_gt, k, hi, hk, hd⟩
    rw [hm.spare] at hs
    cases hs
  · have hw := hm.without_iff (i := psta) hk
    rw [hnum] at hw
    exact hw

theorem runs_macids_two :
    ∃ q, Runs sampleOwn 16 [.alloc bcAddr, .alloc sampleSta] q ∧ q.1.macid_ctl.sta 0 = some 1 ∧
      (q.1.sta 1).mac_id ≠ defaultMgmtMacid := by
  have start : Runs sampleOwn 16 [] _ := .nil
  have run := runs_snoc (runs_snoc start (.alloc bcAddr)) (.alloc sampleSta)
  obtain ⟨howner, hmgmt, -, -⟩ := runs_macids (by decide) (by decide) run
  have hk : Tracked sampleOwn sampleSta := by decide
  exact ⟨_, run, (howner 0 1).mpr ⟨by decide, sampleSta, by decide, hk, by decide⟩,
    hmgmt 1 sampleSta (by decide) hk⟩

end Okm6ullOta.StationTable
