import Okm6ullOta.RxReorder
import Okm6ullOta.StationTable
import Okm6ullOta.XmitFrames

/-!
# The header of a data frame

rtw_make_wlanhdr of core/rtw_xmit.c, without TDLS and without mesh, as the Makefile and
include/autoconf.h have it. The half words of the header stand with the low byte first.
-/
namespace Okm6ullOta.WlanHeader
open Arc4 ByteMemory XmitFrames
open RxReorder (snLess)
open StationTable (Mac StaPriv rtwGetStainfo)

def wlanhdrOffset : ℕ := 64
def ethAlen : ℕ := 6

def halfWord (m : Mem) (p : ℕ) : BitVec 16 := m (p + 1) ++ m p

def setHalfWord (m : Mem) (p : ℕ) (v : BitVec 16) : Mem :=
  store m p [v.extractLsb' 0 8, v.extractLsb' 8 8]

def setFctrl (bits : BitVec 16) (m : Mem) (fctrl : ℕ) : Mem :=
  setHalfWord m fctrl (halfWord m fctrl ||| bits)

def clearFctrl (bits : BitVec 16) (m : Mem) (fctrl : ℕ) : Mem :=
  setHalfWord m fctrl (halfWord m fctrl &&& ~~~bits)

def setToDs : Mem → ℕ → Mem := setFctrl 0x0100
def setFrDs : Mem → ℕ → Mem := setFctrl 0x0200
def setMFrag : Mem → ℕ → Mem := setFctrl 0x0400
def clearMFrag : Mem → ℕ → Mem := clearFctrl 0x0400
def setMData : Mem → ℕ → Mem := setFctrl 0x2000
def setPrivacy : Mem → ℕ → Mem := setFctrl 0x4000

def setFrameSubType (m : Mem) (fctrl : ℕ) (type : Byte) : Mem :=
  setFctrl (type.setWidth 16) (clearFctrl 0x00fc m fctrl) fctrl

/-- SET_BITS_TO_LE_2BYTE. -/
def setBits (offset len : ℕ) (m : Mem) (qc : ℕ) (value : Byte) : Mem :=
  let mask : BitVec 16 := 0xffff >>> (16 - len)
  setHalfWord m qc
    (halfWord m qc &&& ~~~(mask <<< offset) ||| (value.setWidth 16 &&& mask) <<< offset)

def setPriority : Mem → ℕ → Byte → Mem := setBits 0 4
def setEOSP : Mem → ℕ → Byte → Mem := setBits 4 1
def setAckpolicy : Mem → ℕ → Byte → Mem := setBits 5 2
def setAMsdu : Mem → ℕ → Byte → Mem := setBits 7 1

def setSeqNum (m : Mem) (hdr : ℕ) (num : BitVec 16) : Mem :=
  setHalfWord m (hdr + 22) (halfWord m (hdr + 22) &&& ~~~0xfff0#16 ||| 0xfff0#16 &&& num <<< 4)

/-- The fields of struct xmit_frame, and of its attributes those which only the building of the
frame looks at. -/
structure XmitFrame where
  attrib : PktAttrib
  subtype : Byte
  dst : List Byte
  src : List Byte
  mdata : Bool
  eosp : Byte
  ack_policy : Byte
  amsdu : Byte
  seqnum : BitVec 16
  ampdu_en : Bool
  psta : Option ℕ
  pkt_hdrlen : ℕ
  pktlen : ℕ
  ether_type : BitVec 16
  iv : Mem
  icv : Mem
  buf_addr : Option ℕ

/-- The fields of a station which sending to it uses. -/
structure XmitSta where
  state : BitVec 32
  txseq_tid : ℕ → BitVec 16
  BA_starting_seqctrl : ℕ → BitVec 16

/-- The fields of _adapter; `sta` has the stations which `stapriv` lists. -/
structure Adapter where
  fw_state : BitVec 32
  bssid : List Byte
  qos_option : Bool
  stapriv : StaPriv
  sta : ℕ → XmitSta

def wifiStationState : BitVec 32 := 0x08
def wifiApState : BitVec 32 := 0x10
def wifiAdhocState : BitVec 32 := 0x20
def wifiAdhocMasterState : BitVec 32 := 0x40
def fwLinked : BitVec 32 := 0x01

def wifiDataType : Byte := 0x08
def wifiQosDataType : Byte := 0x88

/-- For a state other than WIFI_NULL_STATE. -/
def checkFwstate (w : Adapter) (state : BitVec 32) : Bool := w.fw_state &&& state ≠ 0

/-- The address which six bytes make. -/
def toMac (l : List Byte) : Mac :=
  ⟨l.getD 0 0, l.getD 1 0, l.getD 2 0, l.getD 3 0, l.getD 4 0, l.getD 5 0⟩

def copyAddrs (m : Mem) (hdr : ℕ) (addr1 addr2 addr3 : List Byte) : Mem :=
  let m := store m (hdr + 4) (addr1.take ethAlen)
  let m := store m (hdr + 10) (addr2.take ethAlen)
  store m (hdr + 16) (addr3.take ethAlen)

section
variable (w : Adapter) (x : XmitFrame)

/-- The addresses, and `qos_option`. -/
def putAddrs (hdr : ℕ) (m : Mem) : Option (Mem × Bool) :=
  if checkFwstate w wifiStationState then
    some (copyAddrs (setToDs m hdr) hdr w.bssid x.attrib.ta x.dst, w.qos_option)
  else if checkFwstate w wifiApState then
    some (copyAddrs (setFrDs m hdr) hdr x.dst w.bssid x.src, x.attrib.qos_en)
  else if checkFwstate w wifiAdhocState || checkFwstate w wifiAdhocMasterState then
    some (copyAddrs m hdr x.dst x.attrib.ta w.bssid, x.attrib.qos_en)
  else none

def putQos (qc : ℕ) (m : Mem) : Mem :=
  let m := if x.attrib.priority ≠ 0 then setPriority m qc x.attrib.priority else m
  let m := setEOSP m qc x.eosp
  let m := setAckpolicy m qc x.ack_policy
  if x.amsdu ≠ 0 then setAMsdu m qc x.amsdu else m

/-- The bits of the frame control field, and the QoS field. -/
def putControl (qos_option : Bool) (hdr : ℕ) (m : Mem) : Mem :=
  let m := if x.mdata then setMData m hdr else m
  let m := if x.attrib.encrypt ≠ .none then setPrivacy m hdr else m
  if qos_option then putQos x (hdr + x.attrib.hdrlen - 2) m else m

/-- The next number of the frame's class, and the check of `ampdu_en` against the start of the
block ack. -/
def nextSeqnum (sta : XmitSta) : XmitFrame × XmitSta :=
  let priority := x.attrib.priority.toNat
  let seqnum := (sta.txseq_tid priority + 1) &&& 0xfff
  let sta := { sta with txseq_tid := Function.update sta.txseq_tid priority seqnum }
  let x := { x with seqnum := seqnum }
  if x.ampdu_en then
    let tx_seq := sta.BA_starting_seqctrl (priority % 16)
    if snLess seqnum tx_seq then ({ x with ampdu_en := false }, sta)
    else
      let start := if seqnum = tx_seq then (tx_seq + 1) &&& 0xfff else (seqnum + 1) &&& 0xfff
      (x, { sta with
        BA_starting_seqctrl := Function.update sta.BA_starting_seqctrl (priority % 16) start })
  else (x, sta)

/-- `none` is _FAIL. -/
def rtwMakeWlanhdr (hdr : ℕ) (m : Mem) : Option (XmitFrame × Adapter × Mem) := do
  let m := store m hdr (List.replicate wlanhdrOffset 0)
  let m := setFrameSubType m hdr x.subtype
  if x.subtype &&& wifiDataType = 0 then some (x, w, m)
  else
    let (m, qos_option) ← putAddrs w x hdr m
    let m := putControl x qos_option hdr m
    let psta := rtwGetStainfo w.stapriv (toMac x.attrib.ra)
    if x.psta ≠ psta then none
    else
      let i ← psta
      if (w.sta i).state &&& fwLinked = 0 then none
      else
        let r := nextSeqnum x (w.sta i)
        some (r.1, { w with sta := Function.update w.sta i r.2 }, setSeqNum m hdr r.1.seqnum)

end

variable {w w' : Adapter} {x x' : XmitFrame} {m m' : Mem} {p b hdr : ℕ} {v bits : BitVec 16}
  {subtype : Byte} {l : List Byte}

theorem setHalfWord_low : setHalfWord m p v p = v.extractLsb' 0 8 := store_add (i := 0) (by simp)

theorem setHalfWord_high : setHalfWord m p v (p + 1) = v.extractLsb' 8 8 :=
  store_add (i := 1) (by simp)

theorem setHalfWord_of_ne (h : b ≠ p) (h' : b ≠ p + 1) : setHalfWord m p v b = m b := by
  rcases Nat.lt_or_gt_of_ne h with h | h
  · exact store_of_lt h
  · exact store_of_ge (by simp; omega)

theorem halfWord_low (m : Mem) (p : ℕ) : (halfWord m p).extractLsb' 0 8 = m p :=
  BitVec.extractLsb'_append_eq_right

@[simp] theorem halfWord_setHalfWord : halfWord (setHalfWord m p v) p = v := by
  rw [halfWord, setHalfWord_low, setHalfWord_high]
  exact @BitVec.extractLsb'_append_extractLsb' 8 8 v

theorem setFctrl_low (h : bits.extractLsb' 0 8 = 0) : setFctrl bits m p p = m p := by
  rw [setFctrl, setHalfWord_low, BitVec.extractLsb'_or, h, halfWord_low]
  exact BitVec.or_zero

theorem clearFctrl_low (h : bits.extractLsb' 0 8 = 0) : clearFctrl bits m p p = m p := by
  have hnot : (~~~bits).extractLsb' 0 8 = BitVec.allOnes 8 := by
    rw [BitVec.extractLsb'_not_of_lt (by decide), h]
    rfl
  rw [clearFctrl, setHalfWord_low, BitVec.extractLsb'_and, hnot, halfWord_low, BitVec.and_allOnes]

/-- Clearing bits which have been set is clearing them. -/
theorem clearFctrl_set (h : halfWord m' p = halfWord m p ||| bits) (hb : b = p ∨ b = p + 1) :
    clearFctrl bits m' p b = clearFctrl bits m p b := by
  have hclear : (halfWord m p ||| bits) &&& ~~~bits = halfWord m p &&& ~~~bits := by
    ext i hi
    simp only [BitVec.getElem_and, BitVec.getElem_or, BitVec.getElem_not]
    cases (halfWord m p)[i] <;> cases bits[i] <;> rfl
  rw [clearFctrl, h, hclear, clearFctrl]
  rcases hb with rfl | rfl
  · rw [setHalfWord_low, setHalfWord_low]
  · rw [setHalfWord_high, setHalfWord_high]

/-- The frame has its type, and fragment number 0. -/
structure Made (subtype : Byte) (m : Mem) (hdr : ℕ) : Prop where
  first : m hdr = subtype
  frag_num : m (hdr + 22) &&& 0x0f = 0

theorem Made.congr (h : Made subtype m hdr) (h₁ : m' hdr = m hdr)
    (h₂ : m' (hdr + 22) = m (hdr + 22)) : Made subtype m' hdr :=
  ⟨h₁.trans h.first, by rw [h₂, h.frag_num]⟩

theorem Made.setFctrl (h : Made subtype m hdr) (hb : bits.extractLsb' 0 8 = 0) :
    Made subtype (setFctrl bits m hdr) hdr :=
  h.congr (setFctrl_low hb) (setHalfWord_of_ne (by omega) (by omega))

theorem Made.setBits (h : Made subtype m hdr) {offset len : ℕ} {value : Byte}
    (hp : hdr + 22 < p) : Made subtype (setBits offset len m p value) hdr :=
  h.congr (setHalfWord_of_ne (by omega) (by omega)) (setHalfWord_of_ne (by omega) (by omega))

/-- The addresses stand between the two fields. -/
theorem Made.copyAddrs (h : Made subtype m hdr) (addr1 addr2 addr3 : List Byte) :
    Made subtype (copyAddrs m hdr addr1 addr2 addr3) hdr := by
  have hlen (l : List Byte) : (l.take ethAlen).length ≤ 6 := List.length_take_le _ _
  have h₁ := hlen addr1
  have h₂ := hlen addr2
  have h₃ := hlen addr3
  refine h.congr ?_ ?_
  · rw [WlanHeader.copyAddrs, store_of_lt (by omega), store_of_lt (by omega),
      store_of_lt (by omega)]
  · rw [WlanHeader.copyAddrs, store_of_ge (by omega), store_of_ge (by omega),
      store_of_ge (by omega)]

theorem Made.ite (c : Prop) [Decidable c] (h : Made subtype m hdr) (h' : Made subtype m' hdr) :
    Made subtype (if c then m' else m) hdr := by
  split_ifs
  · exact h'
  · exact h

theorem Made.putQos (h : Made subtype m hdr) (hp : hdr + 22 < p) :
    Made subtype (putQos x p m) hdr := by
  have hack : Made subtype (setAckpolicy (setEOSP (if x.attrib.priority ≠ 0 then
      setPriority m p x.attrib.priority else m) p x.eosp) p x.ack_policy) hdr :=
    ((h.ite _ (h.setBits hp)).setBits hp).setBits hp
  exact hack.ite _ (hack.setBits hp)

/-- The low bits of the sequence control field keep the fragment number. -/
theorem Made.setSeqNum (h : Made subtype m hdr) (num : BitVec 16) :
    Made subtype (setSeqNum m hdr num) hdr := by
  refine ⟨?_, ?_⟩
  · rw [WlanHeader.setSeqNum, setHalfWord_of_ne (by omega) (by omega), h.first]
  · have hkept : (~~~0xfff0#16).extractLsb' 0 8 = 0x0f := by decide
    have hset : (0x0f : Byte) &&& (0xfff0#16).extractLsb' 0 8 = 0#8 := by decide
    rw [WlanHeader.setSeqNum, setHalfWord_low, BitVec.extractLsb'_or, BitVec.extractLsb'_and,
      BitVec.extractLsb'_and, halfWord_low, hkept, h.frag_num, BitVec.and_comm,
      BitVec.and_or_distrib_left, ← BitVec.and_assoc, hset, BitVec.zero_and]
    rfl

/-- The memory is cleared first. -/
theorem made_first : Made subtype (setFrameSubType (store m hdr (List.replicate wlanhdrOffset 0))
    hdr subtype) hdr := by
  have hzero (i : ℕ) (hi : i < wlanhdrOffset) :
      store m hdr (List.replicate wlanhdrOffset 0) (hdr + i) = 0 := by
    rw [store_add (by simpa using hi), List.getElem_replicate]
  refine ⟨?_, ?_⟩
  · have hfirst : store m hdr (List.replicate wlanhdrOffset 0) hdr = 0 := hzero 0 (by decide)
    rw [setFrameSubType, WlanHeader.setFctrl, setHalfWord_low, clearFctrl, halfWord_setHalfWord,
      BitVec.extractLsb'_or, BitVec.extractLsb'_and, halfWord_low, hfirst]
    ext i hi
    simp [show i < 16 by omega, BitVec.getLsbD_eq_getElem hi]
  · rw [setFrameSubType, WlanHeader.setFctrl, setHalfWord_of_ne (by omega) (by omega), clearFctrl,
      setHalfWord_of_ne (by omega) (by omega), hzero 22 (by decide)]
    rfl

/-- What decides whether a frame has a QoS field. -/
def qosOption (w : Adapter) (x : XmitFrame) : Bool :=
  if checkFwstate w wifiStationState then w.qos_option else x.attrib.qos_en

/-- A data frame as update_attrib describes it, for an interface which has a role and a station
which is linked. -/
structure DataFrame (w : Adapter) (x : XmitFrame) : Prop where
  kind : (x.subtype, x.attrib.hdrlen) = if qosOption w x then
    (wifiQosDataType, Ccmp.wlanHdrA3QosLen) else (wifiDataType, Ccmp.wlanHdrA3Len)
  role : ∃ state ∈ [wifiStationState, wifiApState, wifiAdhocState, wifiAdhocMasterState],
    checkFwstate w state = true
  linked : ∃ i, x.psta = some i ∧ rtwGetStainfo w.stapriv (toMac x.attrib.ra) = some i ∧
    (w.sta i).state &&& fwLinked ≠ 0

theorem DataFrame.hdrlen (h : DataFrame w x) : Ccmp.wlanHdrA3Len ≤ x.attrib.hdrlen := by
  have hk := h.kind
  split_ifs at hk
  · rw [(Prod.mk.inj hk).2]
    decide
  · exact (Prod.mk.inj hk).2.ge

/-- The CCMP functions take the header for as long as it is. -/
theorem DataFrame.framed (h : DataFrame w x) (hm : Made x.subtype m hdr) :
    Ccmp.Framed m x.attrib.hdrlen hdr := by
  refine ⟨h.hdrlen, ?_⟩
  have hfirst : Ccmp.frameKind (fun i => m (hdr + i)) x.attrib.hdrlen =
      Ccmp.frameKind (fun _ => x.subtype) x.attrib.hdrlen := Ccmp.frameKind_congr hm.first
  have hk := h.kind
  split_ifs at hk <;> obtain ⟨ht, hl⟩ := Prod.mk.inj hk <;> rw [hfirst, ht, hl] <;> decide

theorem putAddrs_made (h : Made subtype m hdr) (hw : DataFrame w x) :
    ∃ m', putAddrs w x hdr m = some (m', qosOption w x) ∧ Made subtype m' hdr := by
  unfold putAddrs qosOption
  by_cases hs : checkFwstate w wifiStationState = true
  · rw [if_pos hs, if_pos hs]
    exact ⟨_, rfl, (h.setFctrl (by decide)).copyAddrs _ _ _⟩
  rw [if_neg hs, if_neg hs]
  by_cases ha : checkFwstate w wifiApState = true
  · rw [if_pos ha]
    exact ⟨_, rfl, (h.setFctrl (by decide)).copyAddrs _ _ _⟩
  rw [if_neg ha, if_pos]
  · exact ⟨_, rfl, h.copyAddrs _ _ _⟩
  · obtain ⟨state, hm, hw⟩ := hw.role
    simp only [List.mem_cons, List.not_mem_nil, or_false] at hm
    rcases hm with rfl | rfl | rfl | rfl
    · exact absurd hw hs
    · exact absurd hw ha
    · rw [hw, Bool.true_or]
    · rw [hw, Bool.or_true]

theorem nextSeqnum_eq (x : XmitFrame) (sta : XmitSta) : ∃ seqnum ampdu_en,
    (nextSeqnum x sta).1 = { x with seqnum := seqnum, ampdu_en := ampdu_en } := by
  unfold nextSeqnum
  dsimp only
  split_ifs <;> exact ⟨_, _, rfl⟩

/-- The QoS field stands behind the sequence control field. -/
theorem Made.putControl (h : Made subtype m hdr) (hw : DataFrame w x) :
    Made subtype (putControl x (qosOption w x) hdr m) hdr := by
  have hbits : Made subtype (if x.attrib.encrypt ≠ .none then
      setPrivacy (if x.mdata then setMData m hdr else m) hdr else
        if x.mdata then setMData m hdr else m) hdr := by
    have hset : Made subtype (setMData m hdr) hdr := h.setFctrl (by decide)
    have hdata := h.ite (x.mdata = true) hset
    exact hdata.ite _ (hdata.setFctrl (by decide))
  unfold WlanHeader.putControl
  have hkind := hw.kind
  by_cases hq : qosOption w x = true
  · rw [if_pos hq] at hkind ⊢
    have hlen : x.attrib.hdrlen = 26 := congrArg Prod.snd hkind
    exact hbits.putQos (by omega)
  · rw [if_neg hq]
    exact hbits

theorem wlanhdr_made (h : DataFrame w x) (hdr : ℕ) (m : Mem) : ∃ seqnum ampdu_en w' m',
    rtwMakeWlanhdr w x hdr m =
      some ({ x with seqnum := seqnum, ampdu_en := ampdu_en }, w', m') ∧
      Made x.subtype m' hdr := by
  obtain ⟨i, hp, hi, hl⟩ := h.linked
  have hfirst : Made x.subtype (setFrameSubType (store m hdr (List.replicate wlanhdrOffset 0)) hdr
    x.subtype) hdr := made_first
  obtain ⟨m₁, hm₁, h₁⟩ := putAddrs_made hfirst h
  obtain ⟨seqnum, ampdu_en, hseq⟩ := nextSeqnum_eq x (w.sta i)
  have htype : ¬ x.subtype &&& wifiDataType = 0 := by
    have hk := h.kind
    split_ifs at hk
    · rw [(Prod.mk.inj hk).1]
      decide
    · rw [(Prod.mk.inj hk).1]
      decide
  refine ⟨seqnum, ampdu_en, { w with sta := Function.update w.sta i (nextSeqnum x (w.sta i)).2 },
    _, ?_, (h₁.putControl h).setSeqNum seqnum⟩
  simp only [rtwMakeWlanhdr, if_neg htype, hm₁, Option.bind_eq_bind, Option.bind_some, hi, hp,
    ne_eq, not_true_eq_false, if_false, if_neg hl, hseq]

end Okm6ullOta.WlanHeader
