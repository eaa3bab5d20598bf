import Okm6ullOta.WlanHeader

/-!
# From a packet to the transmit buffer

rtw_xmitframe_coalesce of core/rtw_xmit.c on the packet file of os_dep/linux/xmit_linux.c, and
rtw_dump_xframe of hal/rtl8723d/usb/rtl8723du_xmit.c, which gives the buffer to the chip. The
transmit aggregation is switched off at the end of include/autoconf.h, so that every frame
stands behind a descriptor and one unit of offset.
-/
namespace Okm6ullOta.XmitCoalesce
open Arc4 ByteMemory XmitFrames WlanHeader

def txdescSize : ℕ := 40
def packetOffsetSz : ℕ := 8
def txdescOffset : ℕ := txdescSize + packetOffsetSz

/-- The bytes read, and what is left of the packet. -/
def rtwPktfileRead (pktfile : List Byte) (rlen : ℕ) : List Byte × List Byte :=
  (pktfile.take rlen, pktfile.drop rlen)

def rtwEndofpktfile (pktfile : List Byte) : Bool := pktfile.isEmpty

/-- The two bytes of htons. -/
def htons (x : BitVec 16) : List Byte := [x.extractLsb' 8 8, x.extractLsb' 0 8]

def rfc1042Oui : List Byte := [0x00, 0x00, 0x00]
def p8021hOui : List Byte := [0x00, 0x00, 0xf8]

/-- What rtw_put_snap puts down. -/
def rtwPutSnap (h_proto : BitVec 16) : List Byte :=
  [0xaa, 0xaa, 0x03] ++ (if h_proto = 0x8137 ∨ h_proto = 0x80f3 then p8021hOui else rfc1042Oui) ++
    htons h_proto

section
variable (x : XmitFrame)

/-- The LLC header stands in the first fragment. -/
def llc (frg_inx : ℕ) : List Byte := if frg_inx = 0 then rtwPutSnap x.ether_type else []

/-- The length of the ICV, where the driver leaves room for it. -/
def icvRoom : ℕ := if x.attrib.bswenc then x.attrib.icv_len else 0

/-- The room for the packet. It is signed in the driver, and unsigned where the packet is
read. -/
def mpduLen (frg_len : BitVec 32) (frg_inx : ℕ) : BitVec 32 :=
  frg_len - BitVec.ofNat 32 x.attrib.hdrlen - BitVec.ofNat 32 x.attrib.iv_len -
    BitVec.ofNat 32 (llc x frg_inx).length - BitVec.ofNat 32 (icvRoom x)

/-- What one turn of the loop leaves. -/
structure Turn where
  mem : Mem
  pframe : ℕ
  llc_sz : ℕ
  mem_sz : ℕ
  pktfile : List Byte

/-- One turn of the loop up to where it may end. -/
def putFragment (frg_len : BitVec 32) (frg_inx mem_start : ℕ) (pktfile : List Byte) (m : Mem) :
    Turn :=
  let a := x.attrib
  let m := setMFrag m mem_start
  let pframe := mem_start + a.hdrlen
  let m := store m pframe (load x.iv 0 a.iv_len)
  let pframe := pframe + a.iv_len
  let m := store m pframe (llc x frg_inx)
  let pframe := pframe + (llc x frg_inx).length
  let r :=
    rtwPktfileRead pktfile (if isMcast a.ra then x.pktlen else (mpduLen x frg_len frg_inx).toNat)
  let m := store m pframe r.1
  let pframe := pframe + r.1.length
  let m := store m pframe (load x.icv 0 (icvRoom x))
  ⟨m, pframe + icvRoom x, (llc x frg_inx).length, r.1.length, r.2⟩

/-- The loop. `nr_frags` has eight bits. `none` is a loop which has not ended. -/
def coalesceLoop (frg_len : BitVec 32) (pbuf_start : ℕ) :
    (turns frg_inx mem_start : ℕ) → List Byte → Mem → Option (PktAttrib × Mem)
  | 0, _, _, _, _ => none
  | turns + 1, frg_inx, mem_start, pktfile, m =>
    let a := x.attrib
    let t := putFragment x frg_len frg_inx mem_start pktfile m
    let frg_inx := frg_inx + 1
    if isMcast a.ra || rtwEndofpktfile t.pktfile then
      let nr_frags := frg_inx % 256
      let last_txcmdsz := a.hdrlen + a.iv_len + (if nr_frags = 1 then t.llc_sz else 0) +
        icvRoom x + t.mem_sz
      some ({ a with nr_frags := nr_frags, last_txcmdsz := last_txcmdsz },
        clearMFrag t.mem mem_start)
    else
      let mem_start := rnd4 t.pframe + txdescOffset
      let header := load t.mem (pbuf_start + txdescOffset) a.hdrlen
      coalesceLoop frg_len pbuf_start turns frg_inx mem_start t.pktfile
        (store t.mem mem_start header)

/-- `none` is _FAIL. The first fragment may have no room for the packet, and every later one
takes a byte at least. -/
def rtwXmitframeCoalesce (w : Adapter) (sec : SecurityPriv) (frag_len : BitVec 32)
    (pkt : List Byte) (m : Mem) : Option (XmitFrame × Adapter × Mem) := do
  let pbuf_start ← x.buf_addr
  let mem_start := pbuf_start + txdescOffset
  let (x, w, m) ← rtwMakeWlanhdr w x mem_start m
  let pktfile := (rtwPktfileRead pkt x.pkt_hdrlen).2
  let r ← coalesceLoop x (frag_len - 4) pbuf_start (pktfile.length + 2) 0 mem_start pktfile m
  let r ← xmitframeAddmic r.1 frag_len.toNat sec mem_start r.2
  some ({ x with attrib := r.1 }, w, xmitframeSwencrypt r.1 frag_len.toNat sec mem_start r.2)

end

/-- One transfer: where it starts, how long it is, and what its descriptor says of the units
of offset behind it. -/
structure Transfer where
  buf_addr : ℕ
  w_sz : ℕ
  pkt_offset : BitVec 8

/-- What stands in front of the frame. The descriptor has five bits for the units. -/
def Transfer.offset (t : Transfer) : ℕ := txdescSize + t.pkt_offset.toNat % 32 * packetOffsetSz

/-- The frame which the chip sends. -/
def Transfer.frame (t : Transfer) (m : Mem) : List Byte :=
  load m (t.buf_addr + t.offset) (t.w_sz - t.offset)

section
variable (usbBulkOutSize : ℕ) (sw_encrypt : Bool) (a : PktAttrib) (frag_len : ℕ)

def urbZeroPacketChk (sz : ℕ) : Bool := (sz + txdescSize) % usbBulkOutSize = 0

/-- What rtw_dump_xframe takes a fragment for, with `left` fragments behind it. -/
def dumpSz (left : ℕ) : ℕ :=
  if left ≠ 0 then frag_len - 4 - (if sw_encrypt then 0 else a.icv_len) else a.last_txcmdsz

/-- The loop of rtw_dump_xframe, with `left` fragments to come. A transfer which would end with
a full packet of the bus keeps the unit of offset, every other one leaves it out. -/
def dumpLoop : (left mem_addr buf_addr : ℕ) → (pkt_offset : BitVec 8) → List Transfer
  | 0, _, _, _ => []
  | left + 1, mem_addr, buf_addr, pkt_offset =>
    let sz := dumpSz sw_encrypt a frag_len left
    if urbZeroPacketChk usbBulkOutSize sz then
      let w_sz := sz + txdescSize + packetOffsetSz
      ⟨buf_addr, w_sz, pkt_offset⟩ :: dumpLoop left (rnd4 (mem_addr + w_sz)) buf_addr pkt_offset
    else
      let mem_addr := mem_addr + packetOffsetSz
      let w_sz := sz + txdescSize
      ⟨mem_addr, w_sz, pkt_offset - 1⟩ ::
        dumpLoop left (rnd4 (mem_addr + w_sz)) mem_addr (pkt_offset - 1)

/-- rtw_init_xmitframe has set `pkt_offset` to one unit. -/
def rtwDumpXframe (buf_addr : ℕ) : List Transfer :=
  dumpLoop usbBulkOutSize sw_encrypt a frag_len a.nr_frags buf_addr buf_addr 1

end

variable {x : XmitFrame} {frg_len frag_len : BitVec 32} {frg_inx start h k turns pbuf_start : ℕ}
  {pktfile l : List Byte} {m : Mem}

@[simp] theorem rtwPutSnap_length (h_proto : BitVec 16) : (rtwPutSnap h_proto).length = 8 := by
  unfold rtwPutSnap
  split_ifs <;> rfl

/-- What a turn puts behind the header stands there in one piece. -/
theorem putFragment_mem :
    (putFragment x frg_len frg_inx start pktfile m).mem =
      store (setMFrag m start) (start + x.attrib.hdrlen)
        (load x.iv 0 x.attrib.iv_len ++ (llc x frg_inx ++ ((rtwPktfileRead pktfile
          (if isMcast x.attrib.ra then x.pktlen else (mpduLen x frg_len frg_inx).toNat)).1 ++
            load x.icv 0 (icvRoom x)))) := by
  rw [store_append, store_append, store_append, load_length]
  rfl

theorem toNat_sub_ofNat {y : BitVec 32} (hk : k ≤ y.toNat) :
    (y - BitVec.ofNat 32 k).toNat = y.toNat - k := by
  have hy := y.isLt
  rw [BitVec.toNat_sub, BitVec.toNat_ofNat, Nat.mod_eq_of_lt (a := k) (by omega)]
  omega

/-- A packet has room behind the LLC header. -/
theorem le_mpduLen
    (hk : x.attrib.hdrlen + x.attrib.iv_len + 8 + icvRoom x + k + 4 ≤ frag_len.toNat) :
    k ≤ (mpduLen x (frag_len - 4) 0).toNat := by
  have hllc : (llc x 0).length = 8 := rtwPutSnap_length _
  have h₀ : (frag_len - 4).toNat = frag_len.toNat - 4 := toNat_sub_ofNat (k := 4) (by omega)
  have h₁ := toNat_sub_ofNat (y := frag_len - 4) (k := x.attrib.hdrlen) (by omega)
  have h₂ := toNat_sub_ofNat (y := frag_len - 4 - BitVec.ofNat 32 x.attrib.hdrlen)
    (k := x.attrib.iv_len) (by omega)
  have h₃ := toNat_sub_ofNat (y := frag_len - 4 - BitVec.ofNat 32 x.attrib.hdrlen -
    BitVec.ofNat 32 x.attrib.iv_len) (k := 8) (by omega)
  rw [mpduLen, hllc, toNat_sub_ofNat (by omega)]
  omega

/-- A packet which has room in the first fragment. -/
def OneFragment (x : XmitFrame) (frag_len : BitVec 32) (n : ℕ) : Prop :=
  if isMcast x.attrib.ra then n ≤ x.pktlen
  else x.attrib.hdrlen + x.attrib.iv_len + 8 + icvRoom x + n + 4 ≤ frag_len.toNat

instance (x : XmitFrame) (frag_len : BitVec 32) (n : ℕ) : Decidable (OneFragment x frag_len n) :=
  inferInstanceAs (Decidable (ite _ _ _))

/-- The attributes of a frame of one fragment. -/
def single (x : XmitFrame) (sz : ℕ) : PktAttrib :=
  { x.attrib with nr_frags := 1, last_txcmdsz := sz }

/-- What a frame of one fragment takes, for `n` bytes of the packet. -/
def size (x : XmitFrame) (n : ℕ) : ℕ :=
  x.attrib.hdrlen + x.attrib.iv_len + 8 + icvRoom x + n

/-- What stands behind the header of the only fragment. -/
def body (x : XmitFrame) (l : List Byte) : List Byte :=
  load x.iv 0 x.attrib.iv_len ++ (rtwPutSnap x.ether_type ++ (l ++ load x.icv 0 (icvRoom x)))

/-- The buffer with the only fragment. -/
def coalesced (x : XmitFrame) (start : ℕ) (l : List Byte) (m : Mem) : Mem :=
  clearMFrag (store (setMFrag m start) (start + x.attrib.hdrlen) (body x l)) start

theorem coalesceLoop_one (h : OneFragment x frag_len pktfile.length) :
    coalesceLoop x (frag_len - 4) pbuf_start (turns + 1) 0 start pktfile m =
      some (single x (size x pktfile.length), coalesced x start pktfile m) := by
  have hread : pktfile.length ≤
      if isMcast x.attrib.ra then x.pktlen else (mpduLen x (frag_len - 4) 0).toNat := by
    unfold OneFragment at h
    split_ifs at h ⊢
    · exact h
    · exact le_mpduLen h
  have hmem := @putFragment_mem x (frag_len - 4) 0 start pktfile m
  have hllc : llc x 0 = rtwPutSnap x.ether_type := rfl
  rw [rtwPktfileRead, List.take_of_length_le hread, hllc] at hmem
  have hend : (isMcast x.attrib.ra ||
      rtwEndofpktfile (putFragment x (frag_len - 4) 0 start pktfile m).pktfile) = true := by
    simp only [putFragment, rtwPktfileRead, List.drop_of_length_le hread, rtwEndofpktfile,
      List.isEmpty_nil, Bool.or_true]
  have hsz : (putFragment x (frag_len - 4) 0 start pktfile m).mem_sz = pktfile.length := by
    simp only [putFragment, rtwPktfileRead, List.take_of_length_le hread]
  have hllc' : (putFragment x (frag_len - 4) 0 start pktfile m).llc_sz = 8 := rtwPutSnap_length _
  rw [coalesceLoop]
  dsimp only
  rw [if_pos hend, hmem, hsz, hllc']
  rfl

/-- The integrity code is put into a frame of one fragment, and it is encrypted. -/
theorem coalesce_one {w w' : Adapter} {x' : XmitFrame} {m₀ : Mem} (sec : SecurityPriv)
    (pkt : List Byte) (hbuf : x.buf_addr = some pbuf_start)
    (hw : rtwMakeWlanhdr w x (pbuf_start + txdescOffset) m = some (x', w', m₀))
    (h : OneFragment x' frag_len (pkt.drop x'.pkt_hdrlen).length) :
    rtwXmitframeCoalesce x w sec frag_len pkt m =
      (xmitframeAddmic (single x' (size x' (pkt.drop x'.pkt_hdrlen).length)) frag_len.toNat sec
        (pbuf_start + txdescOffset)
        (coalesced x' (pbuf_start + txdescOffset) (pkt.drop x'.pkt_hdrlen) m₀)).map fun r =>
          ({ x' with attrib := r.1 }, w',
            xmitframeSwencrypt r.1 frag_len.toNat sec (pbuf_start + txdescOffset) r.2) := by
  rw [rtwXmitframeCoalesce, hbuf]
  simp only [Option.bind_eq_bind, Option.bind_some, hw, rtwPktfileRead, coalesceLoop_one h]
  exact Option.map_eq_bind.symm

theorem clearMFrag_of_ne {b : ℕ} (hb : b ≠ start) (hb' : b ≠ start + 1) :
    clearMFrag m start b = m b := setHalfWord_of_ne hb hb'

theorem setMFrag_of_ne {b : ℕ} (hb : b ≠ start) (hb' : b ≠ start + 1) :
    setMFrag m start b = m b := setHalfWord_of_ne hb hb'

theorem clearMFrag_low : clearMFrag m start start = m start := clearFctrl_low (by decide)

/-- The body stands behind the bits. -/
theorem clearMFrag_body (hh : 2 ≤ h) {b : ℕ} (hb : b = start ∨ b = start + 1) :
    clearMFrag (store (setMFrag m start) (start + h) l) start b = clearMFrag m start b := by
  refine clearFctrl_set ?_ hb
  have hset : halfWord (setMFrag m start) start = halfWord m start ||| 0x0400 :=
    halfWord_setHalfWord
  rw [← hset, halfWord, store_of_lt (by omega), store_of_lt (by omega), halfWord]

/-- The only fragment has its header without the bit, and behind it what the turn has put
there. -/
theorem load_fragment (hh : 2 ≤ h) :
    load (clearMFrag (store (setMFrag m start) (start + h) l) start) start (h + l.length) =
      load (clearMFrag m start) start h ++ l := by
  rw [load_add]
  congr 1
  · refine load_congr fun b hb hb' => ?_
    by_cases hset : b = start ∨ b = start + 1
    · exact clearMFrag_body hh hset
    · obtain ⟨h₁, h₂⟩ := not_or.mp hset
      rw [clearMFrag_of_ne h₁ h₂, clearMFrag_of_ne h₁ h₂, store_of_lt (by omega),
        setMFrag_of_ne h₁ h₂]
  · rw [load_congr fun b hb hb' => clearMFrag_of_ne (by omega) (by omega), load_store rfl]

/-- The frame of one fragment is sent as it stands in the buffer, with the descriptor and the
unit of offset in front of it. -/
theorem dump_one {a : PktAttrib} (usbBulkOutSize : ℕ) (sw_encrypt : Bool) (n buf_addr : ℕ)
    (hn : a.nr_frags = 1) :
    ∃ t, rtwDumpXframe usbBulkOutSize sw_encrypt a n buf_addr = [t] ∧
      ∀ m, t.frame m = load m (buf_addr + txdescOffset) a.last_txcmdsz := by
  have hsz : dumpSz sw_encrypt a n 0 = a.last_txcmdsz := rfl
  rw [rtwDumpXframe, hn, dumpLoop, hsz]
  dsimp only
  by_cases hu : urbZeroPacketChk usbBulkOutSize a.last_txcmdsz = true
  · rw [if_pos hu]
    refine ⟨_, rfl, fun m => ?_⟩
    have hoff : Transfer.offset ⟨buf_addr, a.last_txcmdsz + txdescSize + packetOffsetSz, 1⟩ =
        txdescSize + packetOffsetSz := rfl
    rw [Transfer.frame, hoff, txdescOffset, Nat.add_assoc a.last_txcmdsz, Nat.add_sub_cancel]
  · rw [if_neg hu]
    refine ⟨_, rfl, fun m => ?_⟩
    have hoff : Transfer.offset ⟨buf_addr + packetOffsetSz, a.last_txcmdsz + txdescSize, 1 - 1⟩ =
        txdescSize := rfl
    rw [Transfer.frame, hoff, txdescOffset, Nat.add_sub_cancel, Nat.add_assoc,
      Nat.add_comm packetOffsetSz]

end Okm6ullOta.XmitCoalesce
