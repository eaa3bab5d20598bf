import Okm6ullOta.ByteMemory
import Okm6ullOta.Crc32
import Okm6ullOta.Michael
import Okm6ullOta.TkipKeys
import Okm6ullOta.Ccmp

/-!
# Protecting the fragments of a frame

xmitframe_addmic and xmitframe_swencrypt of core/rtw_xmit.c with rtw_wep_encrypt,
rtw_tkip_encrypt and rtw_aes_encrypt of core/rtw_security.c. The fragments stand in the transmit
buffer one behind the other, each at the next address which four divides.
-/
namespace Okm6ullOta.XmitFrames
open Arc4 ByteMemory Crc32 Michael TkipKeys
open CyclicChecks (bytes bytes_length)
open StreamCiphers (mask_append)

abbrev Mem := ℕ → Byte

/-- The values of `encrypt` which the driver tells apart. -/
inductive Privacy
  | none | wep40 | tkip | aes | wep104
  deriving DecidableEq

/-- The macro SET_ICE_IV_LEN, as `iv_len` and `icv_len`. -/
def iceIvLen : Privacy → ℕ × ℕ
  | .wep40 | .wep104 => (4, 4)
  | .tkip => (8, 4)
  | .aes => (8, 8)
  | .none => (0, 0)

/-- The fields of struct pkt_attrib. -/
structure PktAttrib where
  encrypt : Privacy
  bswenc : Bool
  hdrlen : ℕ
  iv_len : ℕ
  icv_len : ℕ
  nr_frags : ℕ
  last_txcmdsz : ℕ
  qos_en : Bool
  priority : Byte
  ra : List Byte
  ta : List Byte
  dot118021x_UncstKey : List Byte
  dot11tkiptxmickey : List Byte

/-- The fields of struct security_priv. -/
structure SecurityPriv where
  dot11PrivacyKeyIndex : ℕ
  dot11DefKey : ℕ → List Byte
  dot11DefKeylen : ℕ → ℕ
  dot118021XGrpKeyid : ℕ
  dot118021XGrpKey : ℕ → List Byte
  dot118021XGrptxmickey : ℕ → List Byte
  dot118021XGrprxmickey : ℕ → List Byte
  binstallGrpkey : Bool

def isMcast (da : List Byte) : Bool := da.getD 0 0 &&& 1 ≠ 0

/-- RND4. -/
def rnd4 (x : ℕ) : ℕ := ((x >>> 2) + if x &&& 3 = 0 then 0 else 1) <<< 2

variable (a : PktAttrib) (frag_len : ℕ)

/-- What the header and the two fields around the payload take. -/
def PktAttrib.overhead : ℕ := a.hdrlen + a.iv_len + a.icv_len

/-- The loop which the encrypting functions share, with `left` fragments to come: the
address of each fragment and the `length` of its payload. -/
def eachFragment (work : ℕ × ℕ → Mem → Mem) : (left pframe : ℕ) → Mem → Mem
  | 0, _, m => m
  | left + 1, pframe, m =>
    if left = 0 then work (pframe, a.last_txcmdsz - a.hdrlen - a.iv_len - a.icv_len) m
    else
      let length := frag_len - a.hdrlen - a.iv_len - a.icv_len
      eachFragment work left (rnd4 (pframe + frag_len)) (work (pframe, length) m)

/-- The ICV is computed, and payload and ICV are encrypted in place. -/
def sealPayload (rc4key : List Byte) (key_len payload length : ℕ) (m : Mem) : Mem :=
  let crc := bytes 4 (getcrc32 (load m payload length))
  let r := arcfourEncrypt (arcfourInit rc4key key_len) (load m payload length)
  let m := store m payload r.1
  store m (payload + length) (arcfourEncrypt r.2 crc).1

/-- One fragment, under a key which is made with the first `n` bytes behind the header. -/
def sealFragment (n : ℕ) (rc4key : List Byte → List Byte) (key_len : ℕ) (f : ℕ × ℕ) (m : Mem) :
    Mem :=
  let iv := f.1 + a.hdrlen
  let payload := f.1 + a.iv_len + a.hdrlen
  sealPayload (rc4key (load m iv n)) key_len payload f.2 m

def wepKey (sec : SecurityPriv) (index : ℕ) (iv : List Byte) : List Byte :=
  iv.take 3 ++ (sec.dot11DefKey index).take (sec.dot11DefKeylen index)

def wepFragment (sec : SecurityPriv) : ℕ × ℕ → Mem → Mem :=
  let keylength := sec.dot11DefKeylen sec.dot11PrivacyKeyIndex
  sealFragment a 3 (wepKey sec sec.dot11PrivacyKeyIndex) (3 + keylength)

def rtwWepEncrypt (sec : SecurityPriv) (pframe : ℕ) (m : Mem) : Mem :=
  if a.encrypt = .wep40 ∨ a.encrypt = .wep104 then
    eachFragment a frag_len (wepFragment a sec) a.nr_frags pframe m
  else m

/-- `pnh` of GET_TKIP_PN. -/
def tkipPnh (iv : List Byte) : BitVec 32 :=
  CyclicChecks.word [iv.getD 4 0, iv.getD 5 0, iv.getD 6 0, iv.getD 7 0]

/-- `pnl` of GET_TKIP_PN. -/
def tkipPnl (iv : List Byte) : Word := CyclicChecks.word [iv.getD 2 0, iv.getD 0 0]

def tkipKey (prwskey ta iv : List Byte) : List Byte :=
  phase2 prwskey (phase1 prwskey ta (tkipPnh iv)) (tkipPnl iv)

def tkipFragment (prwskey : List Byte) : ℕ × ℕ → Mem → Mem :=
  sealFragment a 8 (tkipKey prwskey a.ta) 16

def txKey (sec : SecurityPriv) : List Byte :=
  if isMcast a.ra then sec.dot118021XGrpKey sec.dot118021XGrpKeyid else a.dot118021x_UncstKey

def rtwTkipEncrypt (sec : SecurityPriv) (pframe : ℕ) (m : Mem) : Mem :=
  if a.encrypt = .tkip then
    eachFragment a frag_len (tkipFragment a (txKey a sec)) a.nr_frags pframe m
  else m

def aesFragment (prwskey : List Byte) (f : ℕ × ℕ) : Mem → Mem :=
  Ccmp.aesCipher prwskey a.hdrlen f.1 f.2

def rtwAesEncrypt (sec : SecurityPriv) (pframe : ℕ) (m : Mem) : Mem :=
  if a.encrypt = .aes then
    eachFragment a frag_len (aesFragment a (txKey a sec)) a.nr_frags pframe m
  else m

def xmitframeSwencrypt (sec : SecurityPriv) (pframe : ℕ) (m : Mem) : Mem :=
  if a.bswenc then
    match a.encrypt with
    | .wep40 | .wep104 => rtwWepEncrypt a frag_len sec pframe m
    | .tkip => rtwTkipEncrypt a frag_len sec pframe m
    | .aes => rtwAesEncrypt a frag_len sec pframe m
    | .none => m
  else m

/-- The loop of xmitframe_addmic, with `left` fragments to come. -/
def addmicLoop (m : Mem) : (left payload : ℕ) → MicData → MicData × ℕ
  | 0, payload, d => (d, payload)
  | left + 1, payload, d =>
    let payload := rnd4 payload + a.hdrlen + a.iv_len
    let icv := if a.bswenc then a.icv_len else 0
    if left = 0 then
      let length := a.last_txcmdsz - a.hdrlen - a.iv_len - icv
      (rtwSecmicappend d (load m payload length), payload + length)
    else
      let length := frag_len - a.hdrlen - a.iv_len - icv
      addmicLoop m left (payload + length + a.icv_len)
        (rtwSecmicappend d (load m payload length))

def txMicKey (sec : SecurityPriv) : List Byte :=
  if isMcast a.ra then sec.dot118021XGrptxmickey sec.dot118021XGrpKeyid else a.dot11tkiptxmickey

/-- `none` is _FAIL. -/
def xmitframeAddmic (sec : SecurityPriv) (pframe : ℕ) (m : Mem) : Option (PktAttrib × Mem) :=
  if a.encrypt = .tkip then
    if (txMicKey a sec).take 16 = List.replicate 16 0 then none
    else
      let d := rtwSecmicsetkey (txMicKey a sec)
      let d := rtwSecmicappend d (pseudoHeader (load m pframe 30))
      let d := rtwSecmicappend d [if a.qos_en then a.priority else 0, 0, 0, 0]
      let r := addmicLoop a frag_len m a.nr_frags pframe d
      some ({ a with last_txcmdsz := a.last_txcmdsz + 8 }, store m r.2 (rtwSecgetmic r.1).1)
  else some (a, m)

/-- The fragments which the loop goes through. -/
def fragments : (left pframe : ℕ) → List (ℕ × ℕ)
  | 0, _ => []
  | left + 1, pframe =>
    if left = 0 then [(pframe, a.last_txcmdsz - a.hdrlen - a.iv_len - a.icv_len)]
    else (pframe, frag_len - a.hdrlen - a.iv_len - a.icv_len) ::
      fragments left (rnd4 (pframe + frag_len))

variable {a frag_len} {n pframe : ℕ} {work : ℕ × ℕ → Mem → Mem} {m : Mem} {f : ℕ × ℕ}

theorem le_rnd4 (x : ℕ) : x ≤ rnd4 x := by
  have h : x &&& 3 = x % 4 := Nat.and_two_pow_sub_one_eq_mod x 2
  rw [rnd4, h, Nat.shiftLeft_eq, Nat.shiftRight_eq_div_pow]
  split_ifs <;> omega

theorem rnd4_of_dvd {x : ℕ} (h : x % 4 = 0) : rnd4 x = x := by
  have h' : x &&& 3 = x % 4 := Nat.and_two_pow_sub_one_eq_mod x 2
  rw [rnd4, h', if_pos h, Nat.shiftLeft_eq, Nat.shiftRight_eq_div_pow]
  omega

theorem eachFragment_eq (n pframe : ℕ) :
    eachFragment a frag_len work n pframe m = workAll work (fragments a frag_len n pframe) m := by
  induction n generalizing pframe m with
  | zero => rfl
  | succ n ih =>
    rw [eachFragment, fragments]
    split_ifs
    · rfl
    · exact ih _

theorem fragments_ge (hf : f ∈ fragments a frag_len n pframe) : pframe ≤ f.1 := by
  induction n generalizing pframe with
  | zero => cases hf
  | succ n ih =>
    rw [fragments] at hf
    split_ifs at hf
    · rw [List.mem_singleton.mp hf]
    · rcases List.mem_cons.mp hf with rfl | hf
      · exact Nat.le_refl _
      · have := le_rnd4 (pframe + frag_len)
        have := ih hf
        omega

/-- The fragments stand apart from each other, header and ICV included. -/
theorem fragments_apart (hl : a.overhead ≤ frag_len) :
    (fragments a frag_len n pframe).Pairwise fun s t => s.1 + (s.2 + a.overhead) ≤ t.1 := by
  induction n generalizing pframe with
  | zero => exact .nil
  | succ n ih =>
    rw [fragments]
    split_ifs
    · exact List.pairwise_singleton _ _
    · refine List.pairwise_cons.mpr ⟨fun t ht => ?_, ih⟩
      have := fragments_ge ht
      have := le_rnd4 (pframe + frag_len)
      simp only [PktAttrib.overhead] at hl ⊢
      omega

/-- What the receiver takes the keystream off again. -/
def icv (payload : List Byte) : List Byte := payload ++ bytes 4 (getcrc32 payload)

def sealed (rc4key : List Byte) (key_len : ℕ) (payload : List Byte) : List Byte :=
  (arcfourEncrypt (arcfourInit rc4key key_len) (icv payload)).1

variable {rc4key : List Byte} {key : List Byte → List Byte} {key_len payload length k : ℕ}

@[simp] theorem sealed_length (p : List Byte) :
    (sealed rc4key key_len p).length = p.length + 4 := by
  simp [sealed, arcfourEncrypt, icv]

theorem sealPayload_eq :
    sealPayload rc4key key_len payload length m =
      store m payload (sealed rc4key key_len (load m payload length)) := by
  rw [sealed, icv, arcfourEncrypt, mask_append, store_append]
  simp [sealPayload, arcfourEncrypt]

theorem sealFragment_eq :
    sealFragment a k key key_len f m =
      store m (f.1 + (a.hdrlen + a.iv_len)) (sealed (key (load m (f.1 + a.hdrlen) k)) key_len
        (load m (f.1 + (a.hdrlen + a.iv_len)) f.2)) := by
  rw [sealFragment, sealPayload_eq, Nat.add_assoc, Nat.add_comm a.iv_len]

theorem sealFragment_within (hk : k ≤ a.iv_len) (hicv : a.icv_len = 4) :
    Within (fun _ => True) f.1 (f.2 + a.overhead) (sealFragment a k key key_len f) where
  outside m x _ hx := by
    rw [sealFragment_eq]
    simp only [PktAttrib.overhead] at hx
    rcases hx with hx | hx
    · exact store_of_lt (by omega)
    · exact store_of_ge (by simp; omega)
  inside m m' _ h := by
    have hn : a.hdrlen + a.iv_len + (f.2 + 4) = f.2 + a.overhead := by
      simp only [PktAttrib.overhead]
      omega
    have hiv := load_sub (i := a.hdrlen) (k := k) h (by omega)
    have hp := load_sub (i := a.hdrlen + a.iv_len) (k := f.2) h (by omega)
    rw [sealFragment_eq, sealFragment_eq, hiv, hp]
    exact load_store_congr h _ _
  about _ _ _ _ := trivial

theorem load_sealFragment (hicv : a.icv_len = 4) :
    load (sealFragment a k key key_len f m) f.1 (f.2 + a.overhead) =
      load m f.1 (a.hdrlen + a.iv_len) ++ sealed (key (load m (f.1 + a.hdrlen) k)) key_len
        (load m (f.1 + (a.hdrlen + a.iv_len)) f.2) := by
  have hn : f.2 + a.overhead = a.hdrlen + a.iv_len + (f.2 + 4) := by
    simp only [PktAttrib.overhead]
    omega
  rw [hn, load_add, sealFragment_eq, load_store (by simp), load_store_of_disjoint (.inl (by omega))]

end Okm6ullOta.XmitFrames
