import Okm6ullOta.TypeLengthValues
import Mathlib.Data.BitVec

/-!
# Information elements

rtw_set_ie to rtw_ies_remove_ie and rtw_ieee802_11_parse_elems of core/rtw_ieee80211.c,
without CONFIG_RTW_MESH. Pointers are addresses of one memory; the bytes to be copied into an
element come from somewhere else.
-/
namespace Okm6ullOta.InfoElements
open ByteMemory TypeLengthValues

abbrev Byte := BitVec 8

abbrev Mem := ℕ → Byte

/-- One byte for the id and one for the length. -/
def ie : Header Byte Byte where
  width := 2
  bound := 256
  write id n := [id, BitVec.ofNat 8 n]
  read l := (l.getD 0 0, (l.getD 1 0).toNat)
  width_pos := by decide
  write_length _ _ := rfl
  read_write id n h := by
    simp only [List.getD_cons_zero, List.getD_cons_succ, BitVec.toNat_ofNat]
    rw [Nat.mod_eq_of_lt h]
  read_lt l := (l.getD 1 0).isLt
  write_read l h := by
    obtain ⟨x, y, rfl⟩ := List.length_eq_two.mp h
    simp

abbrev Element := Record ie

/-- The memory, the frame length and the pointer behind the element. -/
def rtwSetIe (m : Mem) (pbuf index len : ℕ) (source : Mem) (frlen : Option ℕ) :
    Mem × Option ℕ × ℕ :=
  let m := store m pbuf [BitVec.ofNat 8 index]
  let m := store m (pbuf + 1) [BitVec.ofNat 8 len]
  let m := if 0 < len then store m (pbuf + 2) (load source 0 len) else m
  (m, frlen.map (· + (len + 2)), pbuf + len + 2)

def getIeLoop (m : Mem) (index limit p i : ℕ) : Option ℕ :=
  if (m p).toNat = index then some p
  else
    let tmp := (m (p + 1)).toNat
    if limit ≤ i + (tmp + 2) then none
    else getIeLoop m index limit (p + (tmp + 2)) (i + (tmp + 2))
termination_by limit - i

/-- The pointer and `*len`. -/
def rtwGetIe (m : Mem) (pbuf index len limit : ℕ) : Option ℕ × ℕ :=
  if limit < 1 then (none, len)
  else match getIeLoop m index limit pbuf 0 with
    | some p => (some p, (m (p + 1)).toNat)
    | none => (none, 0)

/-- `!oui || _rtw_memcmp(p, oui, oui_len) == _TRUE` -/
def ouiAt (m : Mem) (p : ℕ) : Option (List Byte) → Bool
  | none => true
  | some oui => load m p oui.length == oui

def getIeExLoop (m : Mem) (inIe inLen : ℕ) (eid : Byte) (oui : Option (List Byte)) (cnt : ℕ) :
    Option ℕ :=
  if cnt < inLen then
    if eid = m (inIe + cnt) ∧ ouiAt m (inIe + cnt + 2) oui then some (inIe + cnt)
    else getIeExLoop m inIe inLen eid oui (cnt + (m (inIe + cnt + 1)).toNat + 2)
  else none
termination_by inLen - cnt

/-- The pointer and what is copied to `ie`, whose length is `*ielen`. -/
def rtwGetIeEx (m : Mem) (inIe inLen : ℕ) (eid : Byte) (oui : Option (List Byte)) :
    Option (ℕ × List Byte) :=
  (getIeExLoop m inIe inLen eid oui 0).map fun p => (p, load m p ((m (p + 1)).toNat + 2))

theorem getIeExLoop_ge {m : Mem} {inIe inLen : ℕ} {eid : Byte}
    {oui : Option (List Byte)} {cnt p : ℕ}
    (h : getIeExLoop m inIe inLen eid oui cnt = some p) : inIe ≤ p ∧ p < inIe + inLen := by
  induction cnt using getIeExLoop.induct m inIe inLen eid oui with
  | case1 cnt hc he =>
    rw [getIeExLoop, if_pos hc, if_pos he] at h
    obtain rfl := Option.some.inj h
    omega
  | case2 cnt hc he ih =>
    rw [getIeExLoop, if_pos hc, if_neg he] at h
    exact ih h
  | case3 cnt hc =>
    rw [getIeExLoop, if_neg hc] at h
    cases h

/-- `none` is a memmove of nearly 2^32 bytes, where an element passes the end. -/
def removeLoop (m : Mem) (eid : Byte) (oui : Option (List Byte)) (start searchLen iesLen : ℕ)
    (ret : Bool) : Option (Mem × ℕ × Bool) :=
  match _h : rtwGetIeEx m start searchLen eid oui with
  | some (targetIe, ie) =>
    let remainIes := targetIe + ie.length
    if remainIes ≤ start + searchLen then
      let remainLen := searchLen - (remainIes - start)
      removeLoop (store m targetIe (load m remainIes remainLen)) eid oui targetIe remainLen
        (iesLen - ie.length) true
    else none
  | none => some (m, iesLen, ret)
termination_by searchLen
decreasing_by
  obtain ⟨p, hp, he⟩ := Option.map_eq_some_iff.mp _h
  obtain ⟨rfl, rfl⟩ := Prod.mk.inj he
  have := getIeExLoop_ge hp
  rw [load_length] at *
  omega

/-- The memory, `*ies_len` and whether it is _SUCCESS. -/
def rtwIesRemoveIe (m : Mem) (ies iesLen offset : ℕ) (eid : Byte) (oui : Option (List Byte)) :
    Option (Mem × ℕ × Bool) :=
  if iesLen ≤ offset then some (m, iesLen, false)
  else removeLoop m eid oui (ies + offset) (iesLen - offset) iesLen false

/-- The pairs of a pointer and a length in struct rtw_ieee802_11_elems. -/
inductive Slot
  | ssid | supp_rates | fh_params | ds_params | cf_params | tim | ibss_params | challenge
  | erp_info | ext_supp_rates | wpa_ie | rsn_ie | wme | wme_tspec | wps_ie | power_cap
  | supp_channels | mdie | ftie | timeout_int | ht_capabilities | ht_operation | vendor_ht_cap
  | vht_capabilities | vht_operation | vht_op_mode_notify | rm_en_cap
  deriving DecidableEq

abbrev Elems := Slot → Option (ℕ × ℕ)

/-- The slot which is set, or `none` for -1. -/
def parseVendorSpecific : List Byte → Option Slot
  | p₀ :: p₁ :: p₂ :: p₃ :: rest =>
    let oui := p₀ ++ p₁ ++ p₂
    if oui = 0x0050f2#24 then
      if p₃ = 1 then some .wpa_ie
      else if p₃ = 2 then
        match rest with
        | [] => none
        | p₄ :: _ =>
          if p₄ = 0 ∨ p₄ = 1 then some .wme else if p₄ = 2 then some .wme_tspec else none
      else if p₃ = 4 then some .wps_ie
      else none
    else if oui = 0x00904c#24 then
      if p₃ = 0x33 then some .vendor_ht_cap else none
    else none
  | _ => none

/-- The switch over the id. -/
def elemSlot (id : Byte) (pos : List Byte) : Option Slot :=
  match id.toNat with
  | 0 => some .ssid
  | 1 => some .supp_rates
  | 2 => some .fh_params
  | 3 => some .ds_params
  | 4 => some .cf_params
  | 5 => some .tim
  | 6 => some .ibss_params
  | 16 => some .challenge
  | 42 => some .erp_info
  | 50 => some .ext_supp_rates
  | 221 => parseVendorSpecific pos
  | 48 => some .rsn_ie
  | 33 => some .power_cap
  | 36 => some .supp_channels
  | 54 => some .mdie
  | 55 => some .ftie
  | 56 => some .timeout_int
  | 45 => some .ht_capabilities
  | 61 => some .ht_operation
  | 191 => some .vht_capabilities
  | 192 => some .vht_operation
  | 199 => some .vht_op_mode_notify
  | 70 => some .rm_en_cap
  | _ => none

inductive ParseRes
  | ok | unknown | failed
  deriving DecidableEq

def parseLoop (m : Mem) (left pos unknown : ℕ) (elems : Elems) : ParseRes × Elems :=
  if 2 ≤ left then
    let id := m pos
    let elen := (m (pos + 1)).toNat
    if left - 2 < elen then (.failed, elems)
    else match elemSlot id (load m (pos + 2) elen) with
      | some s =>
        parseLoop m (left - 2 - elen) (pos + 2 + elen) unknown
          (Function.update elems s (some (pos + 2, elen)))
      | none => parseLoop m (left - 2 - elen) (pos + 2 + elen) (unknown + 1) elems
  else if left ≠ 0 then (.failed, elems)
  else (if unknown ≠ 0 then .unknown else .ok, elems)
termination_by left

def rtwIeee80211ParseElems (m : Mem) (start len : ℕ) : ParseRes × Elems :=
  parseLoop m len start 0 fun _ => none

variable {m : Mem} {a n : ℕ} {e : Element} {es : List Element}

def Element.slot (e : Element) : Option Slot := elemSlot e.tag e.value

theorem size_eq (e : Element) : e.size = 2 + e.value.length := rfl

theorem headerAt_eq (m : Mem) (a : ℕ) : headerAt ie m a = (m a, (m (a + 1)).toNat) := rfl

section
variable (h : recordAt ie m a = e)
include h

theorem tag_eq : m a = e.tag := congrArg Record.tag h

theorem length_eq : (m (a + 1)).toNat = e.value.length := by
  rw [← h, recordAt_length, headerAt_eq]

theorem value_eq : load m (a + 2) e.value.length = e.value := by
  rw [← h, recordAt_length]
  rfl

theorem slot_eq : elemSlot (m a) (load m (a + 2) (m (a + 1)).toNat) = e.slot := by
  rw [length_eq h, value_eq h, tag_eq h, Element.slot]

end

/-- What one element does to the number of unknown elements and to the slots. -/
def noted (acc : ℕ × Elems) (p : ℕ × Element) : ℕ × Elems :=
  match p.2.slot with
  | some s => (acc.1, Function.update acc.2 s (some (p.1 + 2, p.2.value.length)))
  | none => (acc.1 + 1, acc.2)

/-- An element in front of more bytes is noted. -/
theorem parseLoop_cons {left pos unknown : ℕ} {elems : Elems} (h : recordAt ie m pos = e)
    (hn : e.size ≤ left) :
    parseLoop m left pos unknown elems = parseLoop m (left - e.size) (pos + e.size)
      (noted (unknown, elems) (pos, e)).1 (noted (unknown, elems) (pos, e)).2 := by
  have hs := size_eq e
  have hl := length_eq h
  rw [parseLoop, if_pos (by omega), if_neg (by omega), slot_eq h, hl, Nat.sub_sub,
    Nat.add_assoc pos, ← hs,
    noted]
  cases e.slot with
  | none => rfl
  | some s => rfl

theorem parseLoop_encode {left pos unknown : ℕ} {elems : Elems} (h : load m pos left = encode es) :
    parseLoop m left pos unknown elems =
      (if ((placed pos es).foldl noted (unknown, elems)).1 ≠ 0 then .unknown else .ok,
        ((placed pos es).foldl noted (unknown, elems)).2) := by
  induction es generalizing left pos unknown elems with
  | nil =>
    obtain rfl : left = 0 := by simpa using congrArg List.length h
    rw [parseLoop, if_neg (by decide), if_neg (by decide)]
    rfl
  | cons e es ih =>
    obtain ⟨rfl, he, hs⟩ := load_cons h
    rw [parseLoop_cons he (Nat.le_add_right _ _), Nat.add_sub_cancel_left, ih hs]
    rfl

/-- Bytes which are no elements fail, wherever that is seen. -/
theorem parseLoop_failed {left pos unknown : ℕ} {elems : Elems}
    (h : ¬ ∃ es : List Element, load m pos left = encode es) :
    (parseLoop m left pos unknown elems).1 = .failed := by
  induction left using Nat.strongRecOn generalizing pos unknown elems with
  | ind left ih =>
    have he := load_encode_iff.not.mp h
    rw [not_or, not_and] at he
    have hs := size_eq (recordAt ie m pos)
    by_cases hn : (recordAt ie m pos).size ≤ left
    · rw [parseLoop_cons rfl hn]
      exact ih _ (by omega) (he.2 hn)
    · have hl := length_eq (rfl : recordAt ie m pos = _)
      rw [parseLoop]
      by_cases h2 : 2 ≤ left
      · rw [if_pos h2, if_pos (by omega)]
      · rw [if_neg h2, if_pos he.1]

/-- The last element with a slot, as a pointer and a length. -/
def lastIn (s : Slot) (ps : List (ℕ × Element)) : Option (ℕ × ℕ) :=
  (ps.reverse.find? fun p => p.2.slot = some s).map fun p => (p.1 + 2, p.2.value.length)

theorem noted_unknown (elems : Elems) (ps : List (ℕ × Element)) :
    (ps.foldl noted (0, elems)).1 ≠ 0 ↔ ∃ p ∈ ps, p.2.slot = none := by
  induction ps using List.reverseRecOn with
  | nil => simp
  | append_singleton ps p ih =>
    rw [List.foldl_append, List.foldl_cons, List.foldl_nil, noted]
    cases hs : p.2.slot with
    | some s => simpa [or_and_right, exists_or, hs] using ih
    | none => simp [hs]

theorem noted_slots (unknown : ℕ) (ps : List (ℕ × Element)) (s : Slot) :
    (ps.foldl noted (unknown, fun _ => none)).2 s = lastIn s ps := by
  induction ps using List.reverseRecOn with
  | nil => rfl
  | append_singleton ps p ih =>
    rw [List.foldl_append, List.foldl_cons, List.foldl_nil, lastIn, List.reverse_append, noted]
    cases hs : p.2.slot with
    | none => simpa [hs, lastIn] using ih
    | some t =>
      by_cases ht : s = t
      · simp [hs, ht]
      · have ht' : ¬ t = s := fun h => ht h.symm
        simpa [hs, Function.update_of_ne ht, ht', lastIn] using ih

/-- The parser accepts the bytes of elements and nothing else; every slot then shows the last
element which belongs there, and elements without a slot are told. -/
theorem parseElems_spec (m : Mem) (start len : ℕ) :
    ((rtwIeee80211ParseElems m start len).1 = .failed ↔
      ¬ ∃ es : List Element, load m start len = encode es) ∧
    ∀ es : List Element, load m start len = encode es → rtwIeee80211ParseElems m start len =
      (if ∃ e ∈ es, e.slot = none then .unknown else .ok, fun s => lastIn s (placed start es)) := by
  have hok (es : List Element) (h : load m start len = encode es) :
      rtwIeee80211ParseElems m start len =
        (if ∃ e ∈ es, e.slot = none then .unknown else .ok,
          fun s => lastIn s (placed start es)) := by
    rw [rtwIeee80211ParseElems, parseLoop_encode h]
    refine Prod.ext ?_ (funext fun s => noted_slots 0 _ s)
    have hu : (∃ p ∈ placed start es, Element.slot p.2 = none) ↔ ∃ e ∈ es, e.slot = none :=
      exists_placed (P := fun e => Element.slot e = none)
    exact if_congr ((noted_unknown _ _).trans hu) rfl rfl
  refine ⟨⟨?_, parseLoop_failed⟩, hok⟩
  rintro hf ⟨es, h⟩
  rw [hok es h] at hf
  split_ifs at hf

/-- An SSID, an element without a slot, and a second SSID. -/
theorem parseElems_spec_three :
    load (store (fun _ => 0) 10 [0, 1, 65, 7, 0, 0, 2, 66, 67]) 10 9 =
      encode [⟨0, [65], by decide⟩, ⟨7, [], by decide⟩, (⟨0, [66, 67], by decide⟩ : Element)] ∧
    rtwIeee80211ParseElems (store (fun _ => 0) 10 [0, 1, 65, 7, 0, 0, 2, 66, 67]) 10 9 =
      (.unknown, fun s => lastIn s (placed 10
        [⟨0, [65], by decide⟩, ⟨7, [], by decide⟩, ⟨0, [66, 67], by decide⟩])) ∧
    lastIn .ssid (placed 10
      [⟨0, [65], by decide⟩, ⟨7, [], by decide⟩, ⟨0, [66, 67], by decide⟩]) = some (17, 2) := by
  refine ⟨by decide, ?_, by decide⟩
  rw [(parseElems_spec _ 10 9).2
    [⟨0, [65], by decide⟩, ⟨7, [], by decide⟩, ⟨0, [66, 67], by decide⟩] (by decide)]
  rfl

/-- What a caller hands to rtw_set_ie; the length fits into its byte. -/
structure SetCall where
  index : ℕ
  len : ℕ
  source : Mem
  short : len < 256

def SetCall.element (c : SetCall) : Element where
  tag := BitVec.ofNat 8 c.index
  value := load c.source 0 c.len
  short := by
    rw [load_length]
    exact c.short

/-- Each call gets the pointer which the call before it returned. -/
def setAll (calls : List SetCall) (s : Mem × Option ℕ × ℕ) : Mem × Option ℕ × ℕ :=
  calls.foldl (fun s c => rtwSetIe s.1 s.2.2 c.index c.len c.source s.2.1) s

theorem rtwSetIe_eq (m : Mem) (pbuf : ℕ) (frlen : Option ℕ) (c : SetCall) :
    rtwSetIe m pbuf c.index c.len c.source frlen =
      (store m pbuf c.element.bytes, frlen.map (· + c.element.size), pbuf + c.element.size) := by
  have hv : c.element.value.length = c.len := load_length
  have hs : c.element.size = c.len + 2 := by rw [size_eq, hv, Nat.add_comm]
  have hb : c.element.bytes =
      [BitVec.ofNat 8 c.index] ++ ([BitVec.ofNat 8 c.len] ++ load c.source 0 c.len) := by
    rw [Record.bytes, hv]
    rfl
  rw [rtwSetIe, hs, hb, store_append, store_append]
  refine Prod.ext ?_ rfl
  by_cases hl : 0 < c.len
  · simp only [if_pos hl, List.length_singleton]
  · obtain hl : c.len = 0 := Nat.eq_zero_of_not_pos hl
    simp only [hl, Nat.lt_irrefl, if_false, load_zero, List.length_singleton, store_nil]

theorem setAll_eq (calls : List SetCall) (m : Mem) (frlen : Option ℕ) (pbuf : ℕ) :
    setAll calls (m, frlen, pbuf) =
      (store m pbuf (encode (calls.map SetCall.element)),
        frlen.map (· + (encode (calls.map SetCall.element)).length),
        pbuf + (encode (calls.map SetCall.element)).length) := by
  induction calls generalizing m frlen pbuf with
  | nil => simp [setAll]
  | cons c calls ih =>
    rw [setAll, List.foldl_cons, ← setAll, rtwSetIe_eq, ih, List.map_cons,
      encode_cons, store_append,
      List.length_append, Record.bytes_length, Option.map_map, Nat.add_assoc]
    simp only [Function.comp_def, Nat.add_assoc]

theorem getIeLoop_eq {index limit p i : ℕ} (h : load m p n = encode es) (hi : limit = i + n)
    (hn : 0 < n) :
    getIeLoop m index limit p i =
      ((placed p es).find? fun q => q.2.tag.toNat = index).map Prod.fst := by
  induction es generalizing p i n with
  | nil =>
    obtain rfl : n = 0 := by simpa using congrArg List.length h
    omega
  | cons e es ih =>
    obtain ⟨rfl, he, hs⟩ := load_cons h
    rw [getIeLoop, tag_eq he, length_eq he, placed, List.find?_cons]
    have hz := size_eq e
    by_cases ht : e.tag.toNat = index
    · simp [ht]
    · rw [if_neg ht, decide_eq_false ht]
      cases es with
      | nil =>
        rw [encode_nil, List.length_nil] at hi
        exact if_pos (by omega)
      | cons f es =>
        have hf : 0 < (encode (f :: es)).length := by
          rw [encode_cons_length]
          exact Nat.add_pos_left f.size_pos _
        simp only [Nat.add_comm e.value.length 2, ← hz]
        rw [if_neg (by omega)]
        exact ih hs (by omega) hf

theorem rtwGetIe_eq {index len limit pbuf : ℕ} (h : load m pbuf limit = encode es)
    (hl : 0 < limit) :
    rtwGetIe m pbuf index len limit =
      ((placed pbuf es).find? fun q => q.2.tag.toNat = index).elim (none, 0)
        fun q => (some q.1, q.2.value.length) := by
  rw [rtwGetIe, if_neg (by omega), getIeLoop_eq h (Nat.zero_add _).symm hl]
  cases hf : (placed pbuf es).find? fun q => q.2.tag.toNat = index with
  | none => rfl
  | some q =>
    have hq := recordAt_placed h (List.mem_of_find?_eq_some hf)
    simp only [Option.map_some, Option.elim_some, length_eq hq]

/-- Elements which were written one behind the other are found, the first one of each id, and
hold what was handed over; an id which was not written is not found. -/
theorem rtwGetIe_setAll (m : Mem) (frlen : Option ℕ) (pbuf index len : ℕ) (calls : List SetCall)
    (hc : calls ≠ []) :
    rtwGetIe (setAll calls (m, frlen, pbuf)).1 pbuf index len
          ((setAll calls (m, frlen, pbuf)).2.2 - pbuf) =
        ((placed pbuf (calls.map SetCall.element)).find?
          fun q => q.2.tag.toNat = index).elim (none, 0)
          (fun q => (some q.1, q.2.value.length)) ∧
      ∀ q ∈ placed pbuf (calls.map SetCall.element),
        load (setAll calls (m, frlen, pbuf)).1 (q.1 + 2) q.2.value.length = q.2.value := by
  rw [setAll_eq, Nat.add_sub_cancel_left]
  have hs : load (store m pbuf (encode (calls.map SetCall.element))) pbuf
      (encode (calls.map SetCall.element)).length = encode (calls.map SetCall.element) :=
        load_store rfl
  refine ⟨rtwGetIe_eq hs ?_, fun q hq => value_eq (recordAt_placed hs hq)⟩
  obtain ⟨c, calls, rfl⟩ := List.exists_cons_of_ne_nil hc
  rw [List.map_cons, encode_cons_length]
  exact Nat.add_pos_left c.element.size_pos _

theorem rtwGetIe_setAll_two :
    ([⟨48, 2, fun _ => 9, by decide⟩, ⟨3, 1, fun _ => 6, by decide⟩] : List SetCall) ≠ [] ∧
    rtwGetIe (setAll [⟨48, 2, fun _ => 9, by decide⟩, ⟨3, 1, fun _ => 6, by decide⟩]
      (fun _ => 0, some 36, 100)).1 100 3 0 7 = (some 104, 1) :=
  ⟨by decide, (rtwGetIe_setAll (fun _ => 0) (some 36) 100 3 0
    [⟨48, 2, fun _ => 9, by decide⟩, ⟨3, 1, fun _ => 6, by decide⟩] (by decide)).1⟩

/-- What rtw_get_ie_ex looks for. -/
def Wanted (eid : Byte) (oui : Option (List Byte)) (e : Element) : Prop :=
  eid = e.tag ∧ oui.elim True fun o => o <+: e.value

instance (eid : Byte) (oui : Option (List Byte)) (e : Element) : Decidable (Wanted eid oui e) :=
  match oui with
  | none => inferInstanceAs (Decidable (_ ∧ True))
  | some o => inferInstanceAs (Decidable (_ ∧ o <+: e.value))

/-- The elements with the id are long enough for the comparison. -/
def Comparable (eid : Byte) (oui : Option (List Byte)) (es : List Element) : Prop :=
  ∀ e ∈ es, eid = e.tag → oui.elim 0 List.length ≤ e.value.length

instance (eid : Byte) (oui : Option (List Byte)) (es : List Element) :
    Decidable (Comparable eid oui es) :=
  inferInstanceAs (Decidable (∀ e ∈ es, eid = e.tag → _ ≤ _))

variable {eid : Byte} {oui : Option (List Byte)}

theorem wanted_iff (h : recordAt ie m a = e)
    (hc : eid = e.tag → oui.elim 0 List.length ≤ e.value.length) :
    eid = m a ∧ ouiAt m (a + 2) oui ↔ Wanted eid oui e := by
  rw [tag_eq h, Wanted]
  refine and_congr_right fun ht => ?_
  cases oui with
  | none => exact iff_of_true rfl trivial
  | some o =>
    have hl : o.length ≤ e.value.length := hc ht
    have hv := value_eq h
    rw [← Nat.add_sub_cancel' hl, load_add] at hv
    rw [ouiAt, beq_iff_eq, Option.elim_some, ← hv]
    constructor
    · intro ho
      exact ⟨_, congrArg (· ++ _) ho.symm⟩
    · intro ho
      have hp := List.prefix_append (load m (a + 2) o.length)
        (load m (a + 2 + o.length) (e.value.length - o.length))
      exact (List.prefix_of_prefix_length_le ho hp (by simp)).eq_of_length (by simp) |>.symm

/-- Either no element is wanted, or the first wanted one is found. -/
theorem getIeExLoop_cases (inIe : ℕ) {inLen cnt : ℕ} (h : load m (inIe + cnt) n = encode es)
    (hn : inLen = cnt + n) (hc : Comparable eid oui es) :
    (getIeExLoop m inIe inLen eid oui cnt = none ∧ ∀ e ∈ es, ¬ Wanted eid oui e) ∨
    ∃ before e after, es = before ++ e :: after ∧ (∀ f ∈ before, ¬ Wanted eid oui f) ∧
      Wanted eid oui e ∧
      getIeExLoop m inIe inLen eid oui cnt = some (inIe + cnt + (encode before).length) := by
  induction es generalizing cnt n with
  | nil =>
    obtain rfl : n = 0 := by simpa using congrArg List.length h
    rw [getIeExLoop, if_neg (by omega)]
    exact .inl ⟨rfl, fun e he => absurd he List.not_mem_nil⟩
  | cons e es ih =>
    obtain ⟨rfl, he, hs⟩ := load_cons h
    obtain ⟨hce, hcs⟩ := List.forall_mem_cons.mp hc
    have hp := e.size_pos
    rw [getIeExLoop, if_pos (by omega)]
    by_cases hw : Wanted eid oui e
    · rw [if_pos ((wanted_iff he hce).mpr hw)]
      exact .inr ⟨[], e, es, rfl, fun f hf => absurd hf List.not_mem_nil, hw, rfl⟩
    · rw [if_neg fun hm => hw ((wanted_iff he hce).mp hm), length_eq he, Nat.add_assoc cnt,
        Nat.add_comm _ 2,
        ← size_eq]
      rw [Nat.add_assoc] at hs
      rcases ih hs (by omega) hcs with ⟨hl, hn⟩ | ⟨before, f, after, rfl, hb, hf, hl⟩
      · exact .inl ⟨hl, List.forall_mem_cons.mpr ⟨hw, hn⟩⟩
      · refine .inr ⟨e :: before, f, after, rfl, List.forall_mem_cons.mpr ⟨hw, hb⟩, hf, ?_⟩
        rw [hl, encode_cons_length]
        congr 1
        omega

section
variable {start searchLen iesLen target : ℕ} {ret : Bool} {ie : List Byte}

theorem removeLoop_none (h : rtwGetIeEx m start searchLen eid oui = none) :
    removeLoop m eid oui start searchLen iesLen ret = some (m, iesLen, ret) := by
  rw [removeLoop]
  split
  · rename_i h'
    rw [h] at h'
    cases h'
  · rfl

theorem removeLoop_some (h : rtwGetIeEx m start searchLen eid oui = some (target, ie))
    (hl : target + ie.length ≤ start + searchLen) :
    removeLoop m eid oui start searchLen iesLen ret =
      removeLoop (store m target
        (load m (target + ie.length) (searchLen - (target + ie.length - start))))
        eid oui target (searchLen - (target + ie.length - start)) (iesLen - ie.length) true := by
  rw [removeLoop]
  split
  · rename_i h'
    rw [h] at h'
    obtain ⟨rfl, rfl⟩ := Prod.mk.inj (Option.some.inj h')
    rw [if_pos hl]
  · rename_i h'
    rw [h] at h'
    cases h'

end

/-- What is left of the elements. -/
def kept (eid : Byte) (oui : Option (List Byte)) (es : List Element) : List Element :=
  es.filter fun e => ¬ Wanted eid oui e

theorem kept_of_none (h : ∀ e ∈ es, ¬ Wanted eid oui e) : kept eid oui es = es :=
  List.filter_eq_self.mpr fun e he => decide_eq_true (h e he)

theorem kept_middle {before after : List Element} (hb : ∀ f ∈ before, ¬ Wanted eid oui f)
    (he : Wanted eid oui e) :
    kept eid oui (before ++ e :: after) = before ++ kept eid oui after := by
  have hk := kept_of_none hb
  rw [kept] at hk ⊢
  rw [List.filter_append, hk, List.filter_cons_of_neg (by simpa using he)]
  rfl

section
variable {start base : ℕ} {ret : Bool} {before after : List Element}

/-- The first wanted element is cut out, and the search goes on in the bytes behind it, which
have moved to its place. -/
theorem removeLoop_middle
    (h : load m start (encode (before ++ e :: after)).length = encode (before ++ e :: after))
    (hl : getIeExLoop m start (encode (before ++ e :: after)).length eid oui 0 =
      some (start + (encode before).length)) :
    removeLoop m eid oui start (encode (before ++ e :: after)).length
        (base + (encode (before ++ e :: after)).length) ret =
      removeLoop (store m (start + (encode before).length) (encode after)) eid oui
        (start + (encode before).length) (encode after).length
        (base + (encode before).length + (encode after).length) true := by
  obtain ⟨-, hr, ha⟩ := load_middle h
  have hie : rtwGetIeEx m start (encode (before ++ e :: after)).length eid oui =
      some (start + (encode before).length, load m (start + (encode before).length) e.size) := by
    rw [rtwGetIeEx, hl, Option.map_some, length_eq hr, Nat.add_comm e.value.length, ← size_eq]
  have hn : (encode (before ++ e :: after)).length =
      (encode before).length + (e.size + (encode after).length) := by
    rw [encode_append, List.length_append, encode_cons_length]
  have hrest : (encode (before ++ e :: after)).length -
      (start + (encode before).length + e.size - start) = (encode after).length := by omega
  have hlive : base + (encode (before ++ e :: after)).length - e.size =
      base + (encode before).length + (encode after).length := by omega
  rw [removeLoop_some hie (by rw [load_length]; omega), load_length, hrest, hlive, ha]

theorem removeLoop_spec (base : ℕ) (ret : Bool) (h : load m start (encode es).length = encode es)
    (hc : Comparable eid oui es) :
    ∃ m', removeLoop m eid oui start (encode es).length (base + (encode es).length) ret =
        some (m', base + (encode (kept eid oui es)).length,
          ret || es.any fun e => Wanted eid oui e) ∧
      load m' start (encode (kept eid oui es)).length = encode (kept eid oui es) ∧
      ∀ x, x < start ∨ start + (encode es).length ≤ x → m' x = m x := by
  induction hk : es.length using Nat.strongRecOn generalizing es m start base ret with
  | ind k ih =>
    rcases getIeExLoop_cases start h (Nat.zero_add _).symm hc with
      ⟨hl, hn⟩ | ⟨before, e, after, rfl, hb, he, hl⟩
    · have hany : (es.any fun e => Wanted eid oui e) = false := by simpa using hn
      rw [kept_of_none hn, hany, Bool.or_false, removeLoop_none (by rw [rtwGetIeEx, hl]; rfl)]
      exact ⟨m, rfl, h, fun _ _ => rfl⟩
    · have hca : Comparable eid oui after := fun f hf => hc f (by simp [hf])
      have hany : ((before ++ e :: after).any fun e => Wanted eid oui e) = true := by simp [he]
      have hn : (encode (before ++ e :: after)).length =
          (encode before).length + (e.size + (encode after).length) := by
        rw [encode_append, List.length_append, encode_cons_length]
      obtain ⟨m', hm, hload, hframe⟩ := ih after.length (by simp [← hk]; omega)
        (base + (encode before).length) true
        (load_store (m := m) (a := start + (encode before).length) (l := encode after) rfl) hca rfl
      rw [removeLoop_middle h hl, hm, kept_middle hb he, encode_append, List.length_append, hany]
      refine ⟨m', by simp [Nat.add_assoc], ?_, fun x hx => ?_⟩
      · have hsame : load m' start (encode before).length = load m start (encode before).length :=
          load_congr fun x _ hx => by rw [hframe x (.inl hx), store_of_lt hx]
        rw [load_add, hload, hsame, (load_middle h).1]
      · rw [hframe x (by omega)]
        rcases hx with hx | hx
        · exact store_of_lt (by omega)
        · exact store_of_ge (by omega)

end

/-- Of the elements behind `offset` those with the id and the OUI are gone, the others stand in
the same order, and nothing else of the memory has changed. -/
theorem rtwIesRemoveIe_spec (ies offset : ℕ)
    (h : load m (ies + offset) (encode es).length = encode es)
    (hc : Comparable eid oui es) :
    ∃ m', rtwIesRemoveIe m ies (offset + (encode es).length) offset eid oui =
        some (m', offset + (encode (kept eid oui es)).length, es.any fun e => Wanted eid oui e) ∧
      load m' (ies + offset) (encode (kept eid oui es)).length = encode (kept eid oui es) ∧
      ∀ x, x < ies + offset ∨ ies + offset + (encode es).length ≤ x → m' x = m x := by
  rw [rtwIesRemoveIe]
  split_ifs with hl
  · have hnil : es = [] := by
      cases es with
      | nil => rfl
      | cons e es =>
        have := e.size_pos
        rw [encode_cons_length] at hl
        omega
    subst hnil
    exact ⟨m, rfl, h, fun _ _ => rfl⟩
  · rw [Nat.add_sub_cancel_left]
    exact removeLoop_spec offset false h hc

/-- The element with the OUI goes, the one with another OUI stays. -/
theorem rtwIesRemoveIe_spec_two :
    load (store (fun _ => 0) 12 [221, 3, 0, 80, 242, 221, 3, 1, 2, 3]) (10 + 2) 10 =
      encode [⟨221, [0, 80, 242], by decide⟩, (⟨221, [1, 2, 3], by decide⟩ : Element)] ∧
    Comparable 221 (some [0, 80, 242])
      [⟨221, [0, 80, 242], by decide⟩, ⟨221, [1, 2, 3], by decide⟩] ∧
    ∃ m', rtwIesRemoveIe (store (fun _ => 0) 12 [221, 3, 0, 80, 242, 221, 3, 1, 2, 3]) 10 12 2 221
        (some [0, 80, 242]) = some (m', 7, true) ∧
      load m' 12 5 = [221, 3, 1, 2, 3] := by
  have hl : load (store (fun _ => 0) 12 [221, 3, 0, 80, 242, 221, 3, 1, 2, 3]) (10 + 2) 10 =
      encode [⟨221, [0, 80, 242], by decide⟩, (⟨221, [1, 2, 3], by decide⟩ : Element)] := by decide
  have hc : Comparable 221 (some [0, 80, 242])
      [⟨221, [0, 80, 242], by decide⟩, ⟨221, [1, 2, 3], by decide⟩] := by decide
  obtain ⟨m', hm, hk, -⟩ := rtwIesRemoveIe_spec 10 2 hl hc
  exact ⟨hl, hc, m', hm, hk⟩

end Okm6ullOta.InfoElements
