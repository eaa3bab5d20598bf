import Okm6ullOta.XmitFrames
import Okm6ullOta.Ccmp

/-!
# Received frames

rtw_wep_decrypt, rtw_tkip_decrypt and rtw_aes_decrypt of core/rtw_security.c, and decryptor,
recvframe_chkmic, recvframe_defrag and recvframe_chk_defrag of core/rtw_recv.c.
-/
namespace Okm6ullOta.RecvFrames
open Arc4 ByteMemory Crc32 Michael XmitFrames
open CyclicChecks (bytes)

/-- The fields of struct rx_pkt_attrib. -/
structure RxPktAttrib where
  encrypt : Privacy
  privacy : Bool
  bdecrypted : Bool
  hdrlen : ℕ
  iv_len : ℕ
  icv_len : ℕ
  key_index : ℕ
  priority : Byte
  frag_num : ℕ
  mfrag : Bool
  ra : List Byte
  ta : List Byte

/-- `data` is what stands from rx_data to rx_tail, and `room` what is left up to rx_end. -/
structure RecvFrame where
  attrib : RxPktAttrib
  data : List Byte
  room : ℕ

/-- The keys in struct sta_info. -/
structure StaInfo where
  dot118021x_UncstKey : List Byte
  dot11tkiprxmickey : List Byte

def RecvFrame.len (f : RecvFrame) : ℕ := f.data.length

def RecvFrame.head (f : RecvFrame) : ℕ := f.attrib.hdrlen + f.attrib.iv_len

def recvframePull (f : RecvFrame) (sz : ℕ) : RecvFrame :=
  if f.len < sz then f else { f with data := f.data.drop sz }

def recvframePullTail (f : RecvFrame) (sz : ℕ) : RecvFrame :=
  if f.len < sz then f else { f with data := f.data.take (f.len - sz), room := f.room + sz }

/-- The bytes are copied to rx_tail and put into the frame, if they have room there. -/
def recvframePut (f : RecvFrame) (l : List Byte) : RecvFrame :=
  if f.room < l.length then f else { f with data := f.data ++ l, room := f.room - l.length }

/-- The keystream is taken off what stands behind the first `n` bytes. -/
def openPayload (rc4key : List Byte) (key_len n : ℕ) (f : RecvFrame) : RecvFrame :=
  { f with
    data := f.data.take n ++ (arcfourEncrypt (arcfourInit rc4key key_len) (f.data.drop n)).1 }

/-- The ICV is computed here, and nothing is done with it. -/
def rtwWepDecrypt (sec : SecurityPriv) (f : RecvFrame) : RecvFrame :=
  if f.attrib.encrypt = .wep40 ∨ f.attrib.encrypt = .wep104 then
    let iv := f.data.drop f.attrib.hdrlen
    openPayload (wepKey sec f.attrib.key_index iv) (3 + sec.dot11DefKeylen f.attrib.key_index)
      f.head f
  else f

/-- `none` where no group key is installed. -/
def rxTkipKey (sec : SecurityPriv) (s : StaInfo) (a : RxPktAttrib) : Option (List Byte) :=
  if isMcast a.ra then
    if sec.binstallGrpkey then some (sec.dot118021XGrpKey a.key_index) else none
  else some s.dot118021x_UncstKey

/-- The comparison of the ICV with the last four bytes. -/
def icvMatches (payload : List Byte) : Bool :=
  let length := payload.length
  let crc := bytes 4 (getcrc32 (payload.take (length - 4)))
  !(crc.getD 3 0 ≠ payload.getD (length - 1) 0 || crc.getD 2 0 ≠ payload.getD (length - 2) 0 ||
    crc.getD 1 0 ≠ payload.getD (length - 3) 0 || crc.getD 0 0 ≠ payload.getD (length - 4) 0)

def rtwTkipDecrypt (sec : SecurityPriv) (stainfo : Option StaInfo) (f : RecvFrame) :
    Bool × RecvFrame :=
  if f.attrib.encrypt = .tkip then
    match stainfo with
    | none => (false, f)
    | some s =>
      match rxTkipKey sec s f.attrib with
      | none => (false, f)
      | some prwskey =>
        let iv := f.data.drop f.attrib.hdrlen
        let g := openPayload (tkipKey prwskey f.attrib.ta iv) 16 f.head f
        (icvMatches (g.data.drop f.head), g)
  else (true, f)

/-- `none` where no group key is installed, or another one. -/
def rxAesKey (sec : SecurityPriv) (s : StaInfo) (a : RxPktAttrib) : Option (List Byte) :=
  if isMcast a.ra then
    if sec.binstallGrpkey ∧ sec.dot118021XGrpKeyid = a.key_index then
      some (sec.dot118021XGrpKey a.key_index)
    else none
  else some s.dot118021x_UncstKey

def rtwAesDecrypt (sec : SecurityPriv) (stainfo : Option StaInfo) (stale : Mem) (f : RecvFrame) :
    Bool × RecvFrame :=
  if f.attrib.encrypt = .aes then
    match stainfo with
    | none => (false, f)
    | some s =>
      match rxAesKey sec s f.attrib with
      | none => (false, f)
      | some prwskey =>
        let length := f.len - f.attrib.hdrlen - f.attrib.iv_len
        let r := Ccmp.aesDecipher prwskey stale f.attrib.hdrlen 0 length fun i => f.data.getD i 0
        (r.1, { f with data := load r.2 0 f.len })
  else (true, f)

/-- The switch of decryptor. -/
def swDecrypt (sec : SecurityPriv) (stainfo : Option StaInfo) (stale : Mem) (f : RecvFrame) :
    Bool × RecvFrame :=
  match f.attrib.encrypt with
  | .wep40 | .wep104 => (true, rtwWepDecrypt sec f)
  | .tkip => rtwTkipDecrypt sec stainfo f
  | .aes => rtwAesDecrypt sec stainfo stale f
  | .none => (true, f)

/-- `none` where the frame is freed. -/
def decryptor (sec : SecurityPriv) (stainfo : Option StaInfo) (stale : Mem) (f : RecvFrame) :
    Option RecvFrame :=
  let iv := f.data.drop f.attrib.hdrlen
  let f := if f.attrib.encrypt = .none then f else
    { f with attrib.key_index := ((iv.getD 3 0 >>> 6) &&& 0x3).toNat }
  let r := if f.attrib.bdecrypted then (true, f) else swDecrypt sec stainfo stale f
  if r.1 then some { r.2 with attrib.bdecrypted := true } else none

def rxMicKey (sec : SecurityPriv) (s : StaInfo) (a : RxPktAttrib) : Option (List Byte) :=
  if isMcast a.ra then
    if sec.binstallGrpkey then some (sec.dot118021XGrprxmickey a.key_index) else none
  else some s.dot11tkiprxmickey

/-- The code is compared with the eight bytes in front of the ICV. -/
def micMatches (mickey : List Byte) (f : RecvFrame) : Bool :=
  let datalen := f.len - f.attrib.hdrlen - f.attrib.iv_len - f.attrib.icv_len - 8
  let payload := f.data.drop f.head
  let miccode := rtwSeccalctkipmic mickey f.data (payload.take datalen) f.attrib.priority
  (payload.drop datalen).take 8 = miccode

def recvframeChkmic (sec : SecurityPriv) (stainfo : Option StaInfo) (f : RecvFrame) :
    Bool × RecvFrame :=
  if f.attrib.encrypt = .tkip then
    match stainfo with
    | none => (true, recvframePullTail f 8)
    | some s =>
      match rxMicKey sec s f.attrib with
      | none => (false, f)
      | some mickey => (micMatches mickey f, recvframePullTail f 8)
  else (true, f)

/-- What stands behind header and IV of the next fragment is put in the place of the ICV. -/
def joinFragment (f g : RecvFrame) : RecvFrame :=
  let g := recvframePull g g.head
  let f := recvframePullTail f f.attrib.icv_len
  let f := recvframePut f g.data
  { f with attrib.icv_len := g.attrib.icv_len }

/-- The loop of recvframe_defrag, on the first fragment and those behind it. -/
def defragLoop : (curfragnum : ℕ) → RecvFrame → List RecvFrame → Option RecvFrame
  | _, f, [] => some f
  | curfragnum, f, g :: rest =>
    if curfragnum ≠ g.attrib.frag_num then none
    else defragLoop (curfragnum + 1) (joinFragment f g) rest

/-- `none` where the whole queue is freed. -/
def recvframeDefrag : List RecvFrame → Option RecvFrame
  | [] => none
  | f :: rest => if 0 ≠ f.attrib.frag_num then none else defragLoop 1 f rest

/-- What recvframe_chk_defrag does with the queue of a station, and the frame it goes on with. -/
def queueFragment (defrag_q : List RecvFrame) (f : RecvFrame) : Option RecvFrame × List RecvFrame :=
  if f.attrib.mfrag then
    (none, (if f.attrib.frag_num = 0 then [] else defrag_q) ++ [f])
  else if f.attrib.frag_num = 0 then (some f, defrag_q)
  else (recvframeDefrag (defrag_q ++ [f]), [])

/-- The frame is handed on, if its integrity code is right where it is protected. The queue
is missing where the station is not known. -/
def recvframeChkDefrag (sec : SecurityPriv) (stainfo : Option StaInfo)
    (pdefrag_q : Option (List RecvFrame)) (f : RecvFrame) :
    Option RecvFrame × Option (List RecvFrame) :=
  let r :=
    match pdefrag_q with
    | some q => ((queueFragment q f).1, some (queueFragment q f).2)
    | none => (if f.attrib.mfrag ∨ f.attrib.frag_num ≠ 0 then none else some f, none)
  match r.1 with
  | none => r
  | some g =>
    if g.attrib.privacy then
      let c := recvframeChkmic sec stainfo g
      (if c.1 then some c.2 else none, r.2)
    else r

/-- recv_func_posthandle up to recvframe_chk_defrag. -/
def recvFuncPosthandle (sec : SecurityPriv) (stainfo : Option StaInfo)
    (pdefrag_q : Option (List RecvFrame)) (stale : Mem) (f : RecvFrame) :
    Option RecvFrame × Option (List RecvFrame) :=
  match decryptor sec stainfo stale f with
  | none => (none, pdefrag_q)
  | some g => recvframeChkDefrag sec stainfo pdefrag_q g

end Okm6ullOta.RecvFrames
