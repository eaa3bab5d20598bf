import Okm6ullOta.XmitCoalesce
import Okm6ullOta.FrameDelivery

/-!
# From one network to another

A packet which fits into one fragment goes through rtw_xmitframe_coalesce and rtw_dump_xframe of
one driver and through decryptor, recvframe_chk_defrag and wlanhdr_to_ethhdr of another one, and
comes out as it was.
-/
namespace Okm6ullOta.PacketDelivery
open Arc4 ByteMemory XmitFrames RecvFrames FrameProtection FrameDelivery WlanHeader XmitCoalesce

def snapSize : ℕ := 6
def ethHlen : ℕ := 14

def rtwRfc1042Header : List Byte := [0xaa, 0xaa, 0x03, 0x00, 0x00, 0x00]
def rtwBridgeTunnelHeader : List Byte := [0xaa, 0xaa, 0x03, 0x00, 0x00, 0xf8]
def snapEthTypeIpx : List Byte := [0x81, 0x37]
def snapEthTypeAppletalkAarp : List Byte := [0x80, 0xf3]

/-- `bsnaphdr`, by what stands behind header and IV. -/
def bsnaphdr (psnap : List Byte) : Bool :=
  (psnap.take snapSize = rtwRfc1042Header ∧ (psnap.drop snapSize).take 2 ≠ snapEthTypeIpx ∧
    (psnap.drop snapSize).take 2 ≠ snapEthTypeAppletalkAarp) ∨
  psnap.take snapSize = rtwBridgeTunnelHeader

/-- The bytes are written over the first ones of a list. -/
def overwrite (new l : List Byte) : List Byte := (new ++ l.drop new.length).take l.length

/-- wlanhdr_to_ethhdr, for the addresses in the attributes. `none` is _FAIL. -/
def wlanhdrToEthhdr (dst src : List Byte) (f : RecvFrame) : Option RecvFrame :=
  let psnap := f.data.drop f.head
  let f := if f.attrib.encrypt ≠ .none then recvframePullTail f f.attrib.icv_len else f
  let rmv_len := f.head + if bsnaphdr psnap then snapSize else 0
  let len := BitVec.ofNat 16 (f.len - rmv_len)
  let sz := rmv_len - ethHlen + if bsnaphdr psnap then 2 else 0
  if f.len < sz then none
  else
    let f := recvframePull f sz
    let header := dst ++ src ++ if bsnaphdr psnap then [] else htons len
    some { f with data := overwrite header f.data }

theorem htons_injective : Function.Injective htons := by
  intro y z h
  simp only [htons, List.cons.injEq, and_true] at h
  obtain ⟨h₁, h₂⟩ := h
  have h₁ := congrArg BitVec.toNat h₁
  have h₂ := congrArg BitVec.toNat h₂
  simp only [BitVec.extractLsb'_toNat, Nat.shiftRight_eq_div_pow] at h₁ h₂
  have hy := y.isLt
  have hz := z.isLt
  apply BitVec.eq_of_toNat_eq
  omega

/-- What rtw_put_snap puts down is recognised, for every type. -/
theorem bsnaphdr_put (h_proto : BitVec 16) (l : List Byte) :
    bsnaphdr (rtwPutSnap h_proto ++ l) = true := by
  have hipx : htons 0x8137 = snapEthTypeIpx := by decide
  have haarp : htons 0x80f3 = snapEthTypeAppletalkAarp := by decide
  unfold bsnaphdr rtwPutSnap
  by_cases h : h_proto = 0x8137 ∨ h_proto = 0x80f3
  · rw [if_pos h, decide_eq_true_eq]
    exact .inr rfl
  · rw [if_neg h, decide_eq_true_eq, ← hipx, ← haarp]
    exact .inl ⟨rfl, fun hc => h (.inl (htons_injective hc)),
      fun hc => h (.inr (htons_injective hc))⟩

theorem drop_snap (h_proto : BitVec 16) (l : List Byte) :
    (rtwPutSnap h_proto ++ l).drop snapSize = htons h_proto ++ l := by
  unfold rtwPutSnap
  split_ifs <;> rfl

theorem recvframePullTail_prefix (g : RecvFrame) (n : ℕ) :
    ∃ e, g.data = (recvframePullTail g n).data ++ e := by
  unfold recvframePullTail
  split_ifs
  · exact ⟨[], (List.append_nil _).symm⟩
  · exact ⟨_, (List.take_append_drop _ _).symm⟩

theorem overwrite_eq {new l : List Byte} (h : new.length ≤ l.length) :
    overwrite new l = new ++ l.drop new.length := by
  rw [overwrite, List.take_of_length_le]
  rw [List.length_append, List.length_drop]
  omega

/-- A frame with a header which rtw_put_snap has made becomes the Ethernet frame of its type. -/
theorem wlanhdrToEthhdr_eq {g : RecvFrame} {dst src h payload : List Byte} {h_proto : BitVec 16}
    (he : g.attrib.encrypt ≠ .none) (hd : dst.length = 6) (hs : src.length = 6)
    (hh : h.length = g.head) (h14 : ethHlen ≤ h.length)
    (hg : (recvframePullTail g g.attrib.icv_len).data = h ++ (rtwPutSnap h_proto ++ payload)) :
    (wlanhdrToEthhdr dst src g).map RecvFrame.data =
      some (dst ++ (src ++ (htons h_proto ++ payload))) := by
  have heth : ethHlen = 14 := rfl
  have hsnap : snapSize = 6 := rfl
  obtain ⟨e, hdata⟩ := recvframePullTail_prefix g g.attrib.icv_len
  have hb : bsnaphdr (g.data.drop g.head) = true := by
    rw [hdata, hg, ← hh, List.append_assoc, List.drop_left, List.append_assoc]
    exact bsnaphdr_put h_proto _
  have hhead : (recvframePullTail g g.attrib.icv_len).head = h.length := by
    rw [RecvFrame.head, recvframePullTail_attrib, hh, RecvFrame.head]
  have hlen : (recvframePullTail g g.attrib.icv_len).len = h.length + (8 + payload.length) := by
    rw [RecvFrame.len, hg, List.length_append, List.length_append, rtwPutSnap_length]
  obtain ⟨n, hn⟩ : ∃ n, h.length = n + snapSize := ⟨_, (Nat.sub_add_cancel (by omega)).symm⟩
  have hsz : h.length + snapSize - ethHlen + 2 = n := by omega
  have hpull : (recvframePull (recvframePullTail g g.attrib.icv_len) n).data =
      (h ++ (rtwPutSnap h_proto ++ payload)).drop n := by
    rw [recvframePull, if_neg (by omega), hg]
  have hover : overwrite (dst ++ src) ((h ++ (rtwPutSnap h_proto ++ payload)).drop n) =
      dst ++ (src ++ (htons h_proto ++ payload)) := by
    have htwelve : (dst ++ src).length = snapSize + snapSize := by simp [hd, hs, hsnap]
    rw [overwrite_eq, htwelve, List.drop_drop, ← Nat.add_assoc n, ← hn, ← List.drop_drop,
      List.drop_left, drop_snap, List.append_assoc]
    rw [htwelve, List.length_drop, List.length_append, List.length_append, rtwPutSnap_length]
    omega
  rw [wlanhdrToEthhdr]
  simp only [if_pos he, hb, if_true, hhead, hsz, List.append_nil]
  rw [if_neg (by omega), Option.map_some, hpull, hover]

variable {x : XmitFrame} {sec sec' : SecurityPriv} {s : StaInfo} {start n L : ℕ} {l : List Byte}
  {m m' sent : Mem} {a a' : PktAttrib}

/-- The header as the only fragment has it. -/
def header (x : XmitFrame) (start : ℕ) (m : Mem) : List Byte :=
  load (clearMFrag m start) start x.attrib.hdrlen

theorem load_coalesced (start : ℕ) (l : List Byte) (m : Mem) (hb : x.attrib.bswenc = true)
    (hh : 2 ≤ x.attrib.hdrlen) :
    load (coalesced x start l m) start (x.attrib.hdrlen + x.attrib.iv_len) =
        header x start m ++ load x.iv 0 x.attrib.iv_len ∧
      load (coalesced x start l m) (start + (x.attrib.hdrlen + x.attrib.iv_len)) (8 + l.length) =
        rtwPutSnap x.ether_type ++ l := by
  have hroom : icvRoom x = x.attrib.icv_len := if_pos hb
  have hlen : (body x l).length = x.attrib.iv_len + (8 + l.length + icvRoom x) := by
    simp only [body, List.length_append, load_length, rtwPutSnap_length]
    omega
  have hall : load (coalesced x start l m) start
      (x.attrib.hdrlen + x.attrib.iv_len + (8 + l.length + icvRoom x)) =
      header x start m ++ load x.iv 0 x.attrib.iv_len ++ (rtwPutSnap x.ether_type ++ l ++
        load x.icv 0 (icvRoom x)) := by
    rw [Nat.add_assoc x.attrib.hdrlen, ← hlen, coalesced, load_fragment hh, header,
      body]
    simp only [List.append_assoc]
  rw [load_add, load_add (n := 8 + l.length)] at hall
  obtain ⟨h₁, h₂⟩ := List.append_inj hall (by simp [header])
  exact ⟨h₁, (List.append_inj h₂ (by simp)).1⟩

/-- The payload of the only fragment. -/
def textLen (x : XmitFrame) (sz : ℕ) : ℕ :=
  sz - x.attrib.hdrlen - x.attrib.iv_len - x.attrib.icv_len

theorem fragments_single : fragments (single x n) L 1 start = [(start, textLen x n)] := rfl

theorem textLen_size (hb : x.attrib.bswenc = true) : textLen x (size x n) = 8 + n := by
  have hroom : icvRoom x = x.attrib.icv_len := if_pos hb
  rw [textLen, size, hroom]
  omega

/-- With one fragment `frag_len` does not matter. -/
theorem addmic_one (hn : a.nr_frags = 1) (L L' : ℕ) :
    xmitframeAddmic a L sec start m = xmitframeAddmic a L' sec start m := by
  simp only [xmitframeAddmic, hn, addmicLoop, if_true]

theorem swencrypt_one (hn : a.nr_frags = 1) (L L' : ℕ) :
    xmitframeSwencrypt a L sec start m = xmitframeSwencrypt a L' sec start m := by
  have heach (work : ℕ × ℕ → Mem → Mem) (m : Mem) :
      eachFragment a L work 1 start m = eachFragment a L' work 1 start m := by
    simp only [eachFragment, if_true]
  simp only [xmitframeSwencrypt, rtwWepEncrypt, rtwTkipEncrypt, rtwAesEncrypt, hn, heach]

theorem addmic_some (L start : ℕ) (m : Mem)
    (hk : a.encrypt = .tkip → (txMicKey a sec).take 16 ≠ List.replicate 16 0) :
    ∃ a' m', xmitframeAddmic a L sec start m = some (a', m') := by
  unfold xmitframeAddmic
  by_cases ht : a.encrypt = .tkip
  · rw [if_pos ht, if_neg (hk ht)]
    exact ⟨_, _, rfl⟩
  · rw [if_neg ht]
    exact ⟨_, _, rfl⟩

/-- Header and IV are sent as they stand in the buffer. -/
theorem load_swencrypt_head (hb : a.bswenc = true) (he : a.encrypt ≠ .none)
    (hl : (a.iv_len, a.icv_len) = iceIvLen a.encrypt) (hs : a.overhead ≤ L) {f : ℕ × ℕ}
    (hm : ∀ f ∈ fragments a L a.nr_frags start, Headed a f m)
    (hf : f ∈ fragments a L a.nr_frags start) :
    load (xmitframeSwencrypt a L sec start m) f.1 (a.hdrlen + a.iv_len) =
      load m f.1 (a.hdrlen + a.iv_len) := by
  have h : load (xmitframeSwencrypt a L sec start m) _ _ = _ := load_swencrypt hb hl he hs hm hf
  have hsub := load_sub (i := 0) (k := a.hdrlen + a.iv_len) h (by
    simp only [PktAttrib.overhead]
    omega)
  refine hsub.trans ?_
  rw [Nat.add_zero, sealWork]
  cases h : a.encrypt with
  | none => exact absurd h he
  | wep40 =>
    simp only [wepFragment, sealFragment_eq]
    exact load_store_of_disjoint (.inl (Nat.le_refl _))
  | wep104 =>
    simp only [wepFragment, sealFragment_eq]
    exact load_store_of_disjoint (.inl (Nat.le_refl _))
  | tkip =>
    simp only [tkipFragment, sealFragment_eq]
    exact load_store_of_disjoint (.inl (Nat.le_refl _))
  | aes =>
    rw [h] at hl
    have hiv : a.iv_len = 8 := congrArg Prod.fst hl
    simp only [aesFragment, Ccmp.aesCipher_eq (hm f hf h)]
    exact load_store_of_disjoint (.inl (by omega))

def getFragNum (hdr : List Byte) : ℕ := (halfWord (hdr.getD · 0) 22 &&& 0x0f).toNat

def getMFrag (hdr : List Byte) : Bool := halfWord (hdr.getD · 0) 0 &&& 0x0400 ≠ 0

/-- The attributes with which the keys of a received frame are looked up: the key index is that
of the IV. -/
def lookedUp (x : XmitFrame) (rx : RxPktAttrib) : RxPktAttrib :=
  { rx with key_index := ((x.iv 3 >>> 6) &&& 0x3).toNat, bdecrypted := true }

/-- A frame is received with the attributes it was sent with, and the receiver has the keys of
the sender. -/
structure Received (x : XmitFrame) (sec sec' : SecurityPriv) (s : StaInfo) (r : RecvFrame) :
    Prop where
  meant : Meant x.attrib r.attrib
  icv_len : r.attrib.icv_len = x.attrib.icv_len
  privacy : r.attrib.privacy = true
  priority : r.attrib.priority = if x.attrib.qos_en then x.attrib.priority else 0
  frag_num : r.attrib.frag_num = getFragNum r.data
  mfrag : r.attrib.mfrag = getMFrag r.data
  keys : KeysAgree x.attrib sec sec' s (lookedUp x r.attrib)
  mickey : x.attrib.encrypt = .tkip →
    rxMicKey sec' s (lookedUp x r.attrib) = some (txMicKey x.attrib sec)

theorem addmic_attrib (h : xmitframeAddmic a L sec start m = some (a', m')) :
    a'.nr_frags = a.nr_frags ∧ (a.encrypt ≠ .tkip → a' = a) := by
  unfold xmitframeAddmic at h
  by_cases ht : a.encrypt = .tkip
  · rw [if_pos ht] at h
    by_cases hk : (txMicKey a sec).take 16 = List.replicate 16 0
    · rw [if_pos hk] at h
      cases h
    · rw [if_neg hk] at h
      obtain ⟨rfl, -⟩ := Prod.mk.inj (Option.some.inj h)
      exact ⟨rfl, fun hne => absurd ht hne⟩
  · rw [if_neg ht] at h
    obtain ⟨rfl, -⟩ := Prod.mk.inj (Option.some.inj h)
    exact ⟨rfl, fun _ => rfl⟩

theorem header_halfWord {i : ℕ} (hi : i + 1 < x.attrib.hdrlen) (m : Mem) (t : List Byte) :
    halfWord ((header x start m ++ t).getD · 0) i = halfWord (clearMFrag m start) (start + i) := by
  have hget (i : ℕ) (hi : i < x.attrib.hdrlen) :
      (header x start m ++ t).getD i 0 = clearMFrag m start (start + i) := by
    have hlen : i < (header x start m).length := by
      rw [header, load_length]
      exact hi
    rw [List.getD_append _ _ _ _ hlen, List.getD_eq_getElem _ _ hlen]
    exact getElem_load i hlen
  rw [halfWord, hget i (by omega), hget (i + 1) hi, halfWord, Nat.add_assoc]

/-- The bit is clear in the header which is sent. -/
theorem header_mfrag (hh : 2 ≤ x.attrib.hdrlen) (m : Mem) (t : List Byte) :
    getMFrag (header x start m ++ t) = false := by
  have hclear : halfWord (clearMFrag m start) start = halfWord m start &&& ~~~0x0400 :=
    halfWord_setHalfWord
  have hbit : ~~~0x0400 &&& 0x0400 = 0#16 := by decide
  rw [getMFrag, header_halfWord hh, Nat.add_zero, hclear, BitVec.and_assoc, hbit, BitVec.and_zero]
  rfl

/-- The fragment number is that of the header which rtw_make_wlanhdr has made. -/
theorem header_frag_num (hh : 24 ≤ x.attrib.hdrlen) {subtype : Byte} (hm : Made subtype m start)
    (t : List Byte) : getFragNum (header x start m ++ t) = 0 := by
  have happ : (0x0f : BitVec 16) = (0 : Byte) ++ (0x0f : Byte) := by decide
  have hsame : clearMFrag m start (start + 22) = m (start + 22) :=
    clearMFrag_of_ne (by omega) (by omega)
  have hzero (b : Byte) : ((b &&& 0) ++ (0 : Byte)).toNat = 0 := by simp
  rw [getFragNum, header_halfWord hh, halfWord, happ, BitVec.and_append, hsame, hm.frag_num,
    hzero]

/-- The frame which the chip has sent arrives as the only fragment. -/
theorem Received.arrived {r : RecvFrame} (h : Received x sec sec' s r) (hv : 4 ≤ x.attrib.iv_len)
    (hsz : x.attrib.overhead ≤ n) (hr : r.data = load sent start n)
    (hm : load m' start (x.attrib.hdrlen + x.attrib.iv_len) =
      header x start m ++ load x.iv 0 x.attrib.iv_len) :
    Arrived (single x n) sec sec' s m' sent (start, textLen x n) r := by
  have hiv : m' (start + x.attrib.hdrlen + 3) = x.iv 3 := by
    rw [load_add] at hm
    have hi := (List.append_inj hm (by simp [header])).2
    simpa using apply_of_load hi (show 3 < x.attrib.iv_len by omega)
  have hopen : opened (single x n) m' (start, textLen x n) r.attrib = lookedUp x r.attrib := by
    simp only [opened, indexed, sentIndex, lookedUp, single, hiv]
  have hlen : textLen x n + x.attrib.overhead = n := by
    simp only [textLen, PktAttrib.overhead] at hsz ⊢
    omega
  obtain ⟨he, hh, hi, hta, hf⟩ := h.meant
  refine ⟨?_, ⟨he, hh, hi, hta, hf⟩, h.icv_len, h.privacy, h.priority, ?_, fun ht => ?_⟩
  · rw [hr]
    exact congrArg (load sent start) hlen.symm
  · rw [hopen]
    exact h.keys
  · rw [hopen]
    exact h.mickey ht

/-- The driver encrypts the data frame, which stands at an address that four divides, and `n`
bytes of the packet make one fragment. -/
structure Sendable (w : Adapter) (x : XmitFrame) (sec : SecurityPriv) (frag_len : BitVec 32)
    (start n : ℕ) : Prop where
  data : DataFrame w x
  bswenc : x.attrib.bswenc = true
  encrypt : x.attrib.encrypt ≠ .none
  lengths : (x.attrib.iv_len, x.attrib.icv_len) = iceIvLen x.attrib.encrypt
  aligned : start % 4 = 0
  one : OneFragment x frag_len n
  size : x.attrib.encrypt = .aes → x.attrib.hdrlen + (8 + n) + 16 ≤ Ccmp.maxMsgSize
  mickey : x.attrib.encrypt = .tkip → (txMicKey x.attrib sec).take 16 ≠ List.replicate 16 0

theorem coalesced_first (hh : 2 ≤ x.attrib.hdrlen) : coalesced x start l m start = m start := by
  rw [coalesced, clearMFrag_low, store_of_lt (by omega)]
  exact setFctrl_low (by decide)

theorem sized_single (hb : x.attrib.bswenc = true) (n : ℕ) :
    Sized (single x (size x n)) x.attrib.overhead := by
  have hroom : icvRoom x = x.attrib.icv_len := if_pos hb
  refine ⟨Nat.le_refl _, show x.attrib.overhead ≤ size x n from ?_⟩
  simp only [PktAttrib.overhead, size, hroom]
  omega

section
variable {w : Adapter} {frag_len : BitVec 32} (h : Sendable w x sec frag_len start l.length)
  (hmade : Made x.subtype m start)
  (hadd : xmitframeAddmic (single x (size x l.length)) x.attrib.overhead sec start
    (coalesced x start l m) = some (a', m'))
include h

theorem four_le_iv_len : 4 ≤ x.attrib.iv_len := by
  have hiv := congrArg Prod.fst h.lengths
  have he := h.encrypt
  revert hiv he
  cases x.attrib.encrypt <;> simp [iceIvLen] <;> omega

include hmade hadd

/-- The integrity code leaves header and IV, and under CCMP there is none. -/
theorem addmic_coalesced : ∃ sz, a' = single x sz ∧ x.attrib.overhead ≤ sz ∧
    load m' start (x.attrib.hdrlen + x.attrib.iv_len) =
      header x start m ++ load x.iv 0 x.attrib.iv_len ∧
    Headed (single x sz) (start, textLen x sz) m' ∧
    (x.attrib.encrypt = .aes → x.attrib.hdrlen + textLen x sz + 16 ≤ Ccmp.maxMsgSize) := by
  have hwlan : Ccmp.wlanHdrA3Len = 24 := rfl
  have hh := h.data.hdrlen
  obtain ⟨⟨sz, hsz, ha⟩, -, hkept⟩ := addmic_prepared (a := single x (size x l.length)) h.bswenc
    (sized_single h.bswenc _) h.aligned Nat.one_pos hadd
  obtain rfl : a' = single x sz := ha
  have hhead := (load_coalesced start l m h.bswenc (by omega)).1
  have hfirst : m' start = m start :=
    (apply_of_load (i := 0) hkept (Nat.lt_of_lt_of_le (by omega : 0 < x.attrib.hdrlen)
      (Nat.le_add_right _ _))).trans (coalesced_first (by omega))
  refine ⟨sz, rfl, hsz, hkept.trans hhead, fun haes => ?_, fun haes => ?_⟩
  · exact ⟨hh, (congrArg Ccmp.FrameKind.hdrlen (Ccmp.frameKind_congr hfirst)).trans
      (h.data.framed hmade).exact⟩
  · have hne : (single x (size x l.length)).encrypt ≠ .tkip := by
      rw [show (single x (size x l.length)).encrypt = .aes from haes]
      decide
    obtain rfl : sz = size x l.length :=
      congrArg PktAttrib.last_txcmdsz ((addmic_attrib hadd).2 hne)
    rw [textLen_size h.bswenc]
    exact h.size haes

/-- What the chip sends of a coalesced frame is handed on with header, IV and packet. -/
theorem sent_delivered {r : RecvFrame}
    (hr : r.data = load (xmitframeSwencrypt a' x.attrib.overhead sec start m') start
      a'.last_txcmdsz)
    (hrx : Received x sec sec' s r) (stale : Mem) (q : List RecvFrame) :
    ∃ g, (recvFuncPosthandle sec' (some s) (some q) stale r).1 = some g ∧
      g.head = x.attrib.hdrlen + x.attrib.iv_len ∧ g.attrib.encrypt = x.attrib.encrypt ∧
      (recvframePullTail g g.attrib.icv_len).data =
        header x start m ++ load x.iv 0 x.attrib.iv_len ++ (rtwPutSnap x.ether_type ++ l) := by
  have hwlan : Ccmp.wlanHdrA3Len = 24 := rfl
  have hh := h.data.hdrlen
  obtain ⟨sz, rfl, hsz, hmhead, hheaded, hsize⟩ := addmic_coalesced h hmade hadd
  obtain ⟨hhead, htext⟩ := load_coalesced start l m h.bswenc (by omega)
  -- header and IV are not encrypted
  have hsent : load (xmitframeSwencrypt (single x sz) x.attrib.overhead sec start m') start
      (x.attrib.hdrlen + x.attrib.iv_len) = load m' start (x.attrib.hdrlen + x.attrib.iv_len) :=
    load_swencrypt_head (a := single x sz) (f := (start, textLen x sz)) h.bswenc h.encrypt h.lengths
      (Nat.le_refl _) (fun f hf => (List.mem_singleton.mp hf) ▸ hheaded)
        (List.mem_singleton.mpr rfl)
  obtain ⟨e, hdata⟩ : ∃ e, r.data = header x start m ++ e := by
    obtain ⟨k, hk⟩ : ∃ k, (single x sz).last_txcmdsz = x.attrib.hdrlen + x.attrib.iv_len + k :=
      Nat.exists_eq_add_of_le (Nat.le_trans (Nat.le_add_right _ _) hsz)
    rw [hk, load_add, hsent, hmhead, List.append_assoc] at hr
    exact ⟨_, hr⟩
  have hnum : r.attrib.frag_num = 0 := by
    rw [hrx.frag_num, hdata, header_frag_num (by omega) hmade]
  have hlast : r.attrib.mfrag = false := by rw [hrx.mfrag, hdata, header_mfrag (by omega)]
  obtain ⟨g, hg, hghead, hgenc, hgdata⟩ := fragments_delivered (single x (size x l.length))
    (single x sz) sec x.attrib.overhead start (coalesced x start l m) m' q [(stale, r)]
    h.bswenc h.encrypt h.lengths (sized_single h.bswenc _) hh h.aligned Nat.one_pos hadd
    (fun f hf => (List.mem_singleton.mp hf) ▸ hheaded)
    (fun haes f hf => (List.mem_singleton.mp hf) ▸ hsize haes)
    (.cons (hrx.arrived (four_le_iv_len h) hsz hr hmhead) .nil) (by simp [hnum, single])
    (by simp [hlast, single]) (by simp)
  refine ⟨g, by simpa [recvAll, single] using hg, hghead, hgenc, hgdata.trans ?_⟩
  rw [show (single x (size x l.length)).nr_frags = 1 from rfl, fragments_single,
    textLen_size h.bswenc, texts, List.flatMap_singleton]
  exact congrArg₂ (· ++ ·) hhead htext

end

def pingPayload : List Byte := [0x45, 0, 0, 0x14, 1]

def ping : List Byte := [2, 0, 0, 0, 0, 1] ++ ([1, 2, 3, 4, 5, 6] ++ (htons 0x0800 ++ pingPayload))

def accessPoint : List Byte := [2, 0, 0, 0, 0, 2]

/-- A station at an access point, which is the only one in the table. -/
def pingAdapter : Adapter :=
  { fw_state := wifiStationState, bssid := accessPoint, qos_option := false
    stapriv := (StationTable.rtwAllocStainfo (toMac tkipAttrib.ta) (StationTable.initStaPriv 16)
      (toMac accessPoint)).2
    sta := fun _ => ⟨fwLinked, fun _ => 0, fun _ => 0⟩ }

def pingFrame : XmitFrame :=
  { attrib := { tkipAttrib with ra := accessPoint }, subtype := wifiDataType
    dst := [2, 0, 0, 0, 0, 1], src := [1, 2, 3, 4, 5, 6], mdata := false, eosp := 0
    ack_policy := 0, amsdu := 0, seqnum := 0, ampdu_en := false, psta := some 0
    pkt_hdrlen := ethHlen, pktlen := 5, ether_type := 0x0800
    iv := fun i => [1, 0x21, 0, 0x20].getD i 0, icv := fun _ => 0, buf_addr := some 512 }

def received (d : List Byte) : RecvFrame :=
  ⟨{ tkipRx with ra := accessPoint, frag_num := getFragNum d, mfrag := getMFrag d }, d, 0⟩

theorem received_ping (d : List Byte) :
    Received pingFrame noGroupKey noGroupKey tkipSta (received d) := by
  have hra : ¬ isMcast accessPoint = true := by decide
  have hkey : rxTkipKey noGroupKey tkipSta (lookedUp pingFrame (received d).attrib) =
      some (List.replicate 16 7) := if_neg hra
  exact ⟨⟨rfl, rfl, rfl, rfl, rfl⟩, rfl, rfl, rfl, rfl, rfl, hkey, fun _ => if_neg hra⟩

theorem data_ping : DataFrame pingAdapter pingFrame :=
  ⟨rfl, ⟨wifiStationState, .head _, by decide⟩, 0, rfl, by decide, by decide⟩

end Okm6ullOta.PacketDelivery
