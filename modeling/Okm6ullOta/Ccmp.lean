import Okm6ullOta.Aes128
import Okm6ullOta.ByteMemory

/-!
# CCMP

construct_mic_iv to aes_decipher of core/rtw_security.c, with IEEE 802.11w compiled in. A
frame is a range of memory from `pframe` on; its header has 24 bytes or more, so that
nothing the functions write is read again as a part of the header.
-/
namespace Okm6ullOta.Ccmp
open Arc4 (Byte)
open Aes128 ByteMemory

abbrev Mem := ℕ → Byte

/-- What the functions take from the frame control field and the length of the header. -/
structure FrameKind where
  frtype : Byte
  qc_exists : Bool
  a4_exists : Bool
  hdrlen : ℕ

/-- WLAN_HDR_A3_LEN and its siblings. -/
def wlanHdrA3Len : ℕ := 24
def wlanHdrA3QosLen : ℕ := 26
def wlanHdrA4QosLen : ℕ := 32

/-- GetFrameType. -/
def getFrameType (fc : Byte) : Byte := fc &&& 0x0c

/-- get_frame_sub_type, moved down by four. -/
def frameSubType (fc : Byte) : Byte := (fc &&& 0xfc) >>> 4

/-- The three types with contention-free acknowledgement are compared with all their bits,
which no moved subtype reaches. -/
def frameKind (mpdu : Mem) (hdrlen : ℕ) : FrameKind :=
  let frtype := getFrameType (mpdu 0)
  let frsubtype := frameSubType (mpdu 0)
  let a4_exists := !(hdrlen = wlanHdrA3Len || hdrlen = wlanHdrA3QosLen)
  let cf := frtype ||| frsubtype
  let qc_exists := cf = 0x18 || cf = 0x28 || cf = 0x38 ||
    (frtype = 0x08 &&
      (frsubtype = 0x08 || frsubtype = 0x09 || frsubtype = 0x0a || frsubtype = 0x0b))
  { frtype, qc_exists, a4_exists
    hdrlen := if qc_exists && hdrlen ≠ wlanHdrA3QosLen && hdrlen ≠ wlanHdrA4QosLen then hdrlen + 2
      else hdrlen }

def pnVector (mpdu : Mem) (hdrlen : ℕ) : List Byte :=
  [mpdu hdrlen, mpdu (hdrlen + 1), mpdu (hdrlen + 4), mpdu (hdrlen + 5), mpdu (hdrlen + 6),
    mpdu (hdrlen + 7)]

/-- The byte of the nonce which carries the priority and the management bit. -/
def nonceFlags (k : FrameKind) (mpdu : Mem) : Byte :=
  let tc := if k.qc_exists then mpdu (if k.a4_exists then 30 else 24) &&& 0x0f else 0
  if k.frtype = 0 then tc ||| 0x10 else tc

/-- The nonce without its flags: A2 and the packet number, highest byte first. -/
def nonceTail (mpdu : Mem) (pn : List Byte) : List Byte :=
  (List.range 6).map (fun i => mpdu (10 + i)) ++ (List.range 6).map fun i => pn.getD (5 - i) 0

def constructMicIv (k : FrameKind) (mpdu : Mem) (payload_length : ℕ) (pn : List Byte) : List Byte :=
  [0x59, nonceFlags k mpdu] ++ nonceTail mpdu pn ++
    [BitVec.ofNat 8 (payload_length / 256), BitVec.ofNat 8 (payload_length % 256)]

def constructMicHeader1 (k : FrameKind) (mpdu : Mem) : List Byte :=
  [BitVec.ofNat 8 ((k.hdrlen - 2) / 256), BitVec.ofNat 8 ((k.hdrlen - 2) % 256),
    if k.frtype = 0 then mpdu 0 else mpdu 0 &&& 0xcf, mpdu 1 &&& 0xc7] ++
    (List.range 12).map fun i => mpdu (4 + i)

def constructMicHeader2 (k : FrameKind) (mpdu : Mem) : List Byte :=
  let a3 := (List.range 6).map fun i => mpdu (16 + i)
  let a4 := (List.range 6).map fun i => mpdu (24 + i)
  a3 ++ [0, 0] ++
    if k.a4_exists then a4 ++ if k.qc_exists then [mpdu 30 &&& 0x0f, mpdu 31 &&& 0x00] else [0, 0]
    else if k.qc_exists then [mpdu 24 &&& 0x0f, mpdu 25 &&& 0x00, 0, 0, 0, 0, 0, 0]
    else List.replicate 8 0

def constructCtrPreload (k : FrameKind) (mpdu : Mem) (pn : List Byte) (c : ℕ) : List Byte :=
  [0x01, nonceFlags k mpdu] ++ nonceTail mpdu pn ++
    [BitVec.ofNat 8 (c / 256), BitVec.ofNat 8 (c % 256)]

/-- padded_buffer. -/
def padded (l : List Byte) : List Byte := l ++ List.replicate (16 - l.length) 0

variable (key : List Byte)

/-- The full blocks of a payload go into the code. -/
def chainBlocks : (num_blocks : ℕ) → (payload aes_out : List Byte) → List Byte
  | 0, _, aes_out => aes_out
  | n + 1, payload, aes_out =>
    chainBlocks n (payload.drop 16) (aes128k128d key (xor128 aes_out (payload.take 16)))

/-- The integrity code over header and payload. -/
def calcMic (k : FrameKind) (mpdu : Mem) (pn payload : List Byte) : List Byte :=
  let plen := payload.length
  let aes_out := aes128k128d key (constructMicIv k mpdu plen pn)
  let aes_out := aes128k128d key (xor128 aes_out (constructMicHeader1 k mpdu))
  let aes_out := aes128k128d key (xor128 aes_out (constructMicHeader2 k mpdu))
  let aes_out := chainBlocks key (plen / 16) payload aes_out
  let aes_out :=
    if plen % 16 > 0 then
      aes128k128d key (xor128 aes_out (padded (payload.drop (16 * (plen / 16)))))
    else aes_out
  aes_out.take 8

variable (preload : ℕ → List Byte)

/-- The full blocks of a payload, from block number `i + 1` on. -/
def ctrBlocks : (num_blocks i : ℕ) → (payload : List Byte) → List Byte
  | 0, _, _ => []
  | n + 1, i, payload =>
    xor128 (aes128k128d key (preload (i + 1))) (payload.take 16) ++
      ctrBlocks n (i + 1) (payload.drop 16)

/-- The payload under the counter blocks, the last one short. -/
def ctrPayload (payload : List Byte) : List Byte :=
  let num_blocks := payload.length / 16
  let payload_remainder := payload.length % 16
  let full := ctrBlocks key preload num_blocks 0 payload
  if payload_remainder > 0 then
    full ++ (xor128 (aes128k128d key (preload (num_blocks + 1)))
      (padded (payload.drop (16 * num_blocks)))).take payload_remainder
  else full

/-- The code under counter block 0. -/
def ctrMic (mic : List Byte) : List Byte :=
  (xor128 (aes128k128d key (preload 0)) (padded mic)).take 8

/-- The part of aes_cipher after the header has been looked at, which aes_decipher has
again for its copy of the frame. `mpdu` is the header. -/
def sealMessage (k : FrameKind) (mpdu : Mem) (pn : List Byte) (payload_index plen : ℕ) (m : Mem) :
    Mem :=
  let payload := load m payload_index plen
  let mic := calcMic key k mpdu pn payload
  let m := store m (payload_index + plen) mic
  let preload := constructCtrPreload k mpdu pn
  let m := store m payload_index (ctrPayload key preload payload)
  store m (payload_index + plen) (ctrMic key preload (load m (payload_index + plen) 8))

def aesCipher (hdrlen pframe plen : ℕ) (m : Mem) : Mem :=
  let mpdu i := m (pframe + i)
  let k := frameKind mpdu hdrlen
  sealMessage key k mpdu (pnVector mpdu k.hdrlen) (pframe + k.hdrlen + 8) plen m

/-- MAX_MSG_SIZE. -/
def maxMsgSize : ℕ := 2048

/-- `stale` is what the static buffer of aes_decipher holds when a frame does not fit into
it. The buffer stands at the addresses of the frame here. The packet number is read before
hdrlen is corrected for decrypting, and after it for the code. -/
def aesDecipher (stale : Mem) (hdrlen pframe plen : ℕ) (m : Mem) : Bool × Mem :=
  let mpdu i := m (pframe + i)
  let k := frameKind mpdu hdrlen
  let payload_index := pframe + k.hdrlen + 8
  let preload := constructCtrPreload k mpdu (pnVector mpdu hdrlen)
  let m := store m payload_index (ctrPayload key preload (load m payload_index (plen - 8)))
  let message := if k.hdrlen + plen + 8 ≤ maxMsgSize then m else stale
  let message := sealMessage key k (fun i => message (pframe + i))
    (pnVector (fun i => m (pframe + i)) k.hdrlen) payload_index (plen - 8) message
  let mic := payload_index + (plen - 8)
  (decide (load m mic 8 = load message mic 8), m)

variable {key preload} {payload full tail mic : List Byte} {n i : ℕ}

theorem xor128_twice {e b : List Byte} (h : b.length = 16) : xor128 e (xor128 e b) = b := by
  refine getD_ext xor128_length h fun i hi => ?_
  rw [xor128, getD_map_range _ hi, xor128, getD_map_range _ hi, xor_self_left]

@[simp] theorem ctrBlocks_length : (ctrBlocks key preload n i payload).length = 16 * n := by
  induction n generalizing i payload with
  | zero => rfl
  | succ n ih =>
    rw [ctrBlocks, List.length_append, ih, xor128_length]
    omega

theorem ctrBlocks_append (h : full.length = 16 * n) :
    ctrBlocks key preload n i (full ++ tail) = ctrBlocks key preload n i full := by
  induction n generalizing i full with
  | zero => rfl
  | succ n ih =>
    rw [ctrBlocks, ctrBlocks, List.take_append_of_le_length (by omega),
      List.drop_append_of_le_length (by omega), ih (by simp; omega)]

theorem ctrBlocks_twice (h : full.length = 16 * n) :
    ctrBlocks key preload n i (ctrBlocks key preload n i full) = full := by
  induction n generalizing i full with
  | zero => exact (List.length_eq_zero_iff.mp h).symm
  | succ n ih =>
    rw [ctrBlocks, ctrBlocks, List.take_left' xor128_length, List.drop_left' xor128_length,
      ih (by simp; omega), xor128_twice (by simp; omega), List.take_append_drop]

/-- The short block at the end. -/
def ctrLast (key : List Byte) (preload : ℕ → List Byte) (n : ℕ) (tail : List Byte) : List Byte :=
  (xor128 (aes128k128d key (preload (n + 1))) (padded tail)).take tail.length

theorem ctrLast_length (h : tail.length < 16) :
    (ctrLast key preload n tail).length = tail.length := by
  simp [ctrLast]
  omega

theorem getD_take (h : i < n) (l : List Byte) : (l.take n).getD i 0 = l.getD i 0 := by
  rw [List.getD_eq_getElem?_getD, List.getElem?_take_of_lt h, List.getD_eq_getElem?_getD]

theorem padded_getD (h : i < tail.length) : (padded tail).getD i 0 = tail.getD i 0 := by
  rw [padded, List.getD_eq_getElem?_getD, List.getElem?_append_left h, List.getD_eq_getElem?_getD]

theorem xor128_padded {e : List Byte} (h : i < tail.length) (h16 : i < 16) :
    (xor128 e (padded tail)).getD i 0 = e.getD i 0 ^^^ tail.getD i 0 := by
  rw [xor128, getD_map_range _ h16, padded_getD h]

theorem xor128_padded_take {e : List Byte} (h : tail.length ≤ 16) :
    (xor128 e (padded ((xor128 e (padded tail)).take tail.length))).take tail.length = tail := by
  refine getD_ext (by simp; omega) rfl fun i hi => ?_
  have h16 : i < 16 := by omega
  rw [getD_take hi, xor128_padded (by simp; omega) h16, getD_take hi, xor128_padded hi h16,
    xor_self_left]

theorem ctrLast_twice (h : tail.length < 16) :
    ctrLast key preload n (ctrLast key preload n tail) = tail := by
  rw [ctrLast, ctrLast_length h]
  exact xor128_padded_take (Nat.le_of_lt h)

theorem ctrPayload_append (h : full.length = 16 * n) (ht : tail.length < 16) :
    ctrPayload key preload (full ++ tail) =
      ctrBlocks key preload n 0 full ++ ctrLast key preload n tail := by
  have hq : (full ++ tail).length / 16 = n := by simp; omega
  have hr : (full ++ tail).length % 16 = tail.length := by simp; omega
  simp only [ctrPayload, hq, hr, ctrBlocks_append h, List.drop_left' h, ctrLast]
  split_ifs with h₀
  · rfl
  · rw [Nat.eq_zero_of_not_pos h₀, List.take_zero, List.append_nil]

theorem ctr_split (payload : List Byte) : ∃ n full tail, payload = full ++ tail ∧
    full.length = 16 * n ∧ tail.length < 16 :=
  ⟨payload.length / 16, payload.take (16 * (payload.length / 16)),
    payload.drop (16 * (payload.length / 16)), (List.take_append_drop ..).symm,
    by simp; omega, by simp; omega⟩

@[simp] theorem ctrPayload_length : (ctrPayload key preload payload).length = payload.length := by
  obtain ⟨n, full, tail, rfl, hf, ht⟩ := ctr_split payload
  rw [ctrPayload_append hf ht]
  simp [ctrLast_length ht, hf]

/-- The same counters take the encryption off again. -/
theorem ctrPayload_twice : ctrPayload key preload (ctrPayload key preload payload) = payload := by
  obtain ⟨n, full, tail, rfl, hf, ht⟩ := ctr_split payload
  rw [ctrPayload_append hf ht, ctrPayload_append ctrBlocks_length (by rwa [ctrLast_length ht]),
    ctrBlocks_twice hf, ctrLast_twice ht]

@[simp] theorem ctrMic_length : (ctrMic key preload mic).length = 8 := by simp [ctrMic]

theorem chainBlocks_length (h : tail.length = 16) :
    (chainBlocks key n payload tail).length = 16 := by
  induction n generalizing payload tail with
  | zero => exact h
  | succ n ih => exact ih aes128k128d_length

@[simp] theorem calcMic_length {k : FrameKind} {mpdu : Mem} {pn : List Byte} :
    (calcMic key k mpdu pn payload).length = 8 := by
  simp only [calcMic]
  split_ifs
  · rw [List.length_take, aes128k128d_length]
    rfl
  · rw [List.length_take, chainBlocks_length aes128k128d_length]
    rfl

variable {m m' : Mem} {k : FrameKind} {mpdu mpdu' : Mem} {pn : List Byte} {a hdrlen pframe plen : ℕ}

/-- Payload and code of a frame, as they are written. -/
def sealedText (key : List Byte) (k : FrameKind) (mpdu : Mem) (pn payload : List Byte) :
    List Byte :=
  ctrPayload key (constructCtrPreload k mpdu pn) payload ++
    ctrMic key (constructCtrPreload k mpdu pn) (calcMic key k mpdu pn payload)

theorem sealMessage_eq : sealMessage key k mpdu pn a plen m =
    store m a (sealedText key k mpdu pn (load m a plen)) := by
  simp only [sealMessage, sealedText]
  have hc : (ctrPayload key (constructCtrPreload k mpdu pn) (load m a plen)).length = plen := by
    simp
  have hm : (calcMic key k mpdu pn (load m a plen)).length = 8 := calcMic_length
  generalize ctrPayload key (constructCtrPreload k mpdu pn) (load m a plen) = text at hc ⊢
  generalize calcMic key k mpdu pn (load m a plen) = mic at hm ⊢
  have hl : load (store (store m (a + plen) mic) a text) (a + plen) 8 = mic := by
    rw [load_store_of_disjoint (.inr (by omega)), load_store hm]
  rw [hl, store_comm (by omega), store_store (by simp [hm]), ← store_comm (by omega),
    store_append, hc]

theorem frameKind_congr (h : mpdu 0 = mpdu' 0) :
    frameKind mpdu hdrlen = frameKind mpdu' hdrlen := by
  simp only [frameKind, h]

theorem fields_congr (h : ∀ i < 32, mpdu i = mpdu' i) (ha : a + n ≤ 32) :
    (List.range n).map (fun i => mpdu (a + i)) = (List.range n).map fun i => mpdu' (a + i) :=
  List.map_congr_left fun i hi => h _ (by have := List.mem_range.mp hi; omega)

theorem nonceFlags_congr (h : ∀ i < 32, mpdu i = mpdu' i) :
    nonceFlags k mpdu = nonceFlags k mpdu' := by
  have hi : mpdu (if k.a4_exists then 30 else 24) = mpdu' (if k.a4_exists then 30 else 24) := by
    split_ifs <;> exact h _ (by decide)
  rw [nonceFlags, hi, nonceFlags]

theorem nonceTail_congr (h : ∀ i < 32, mpdu i = mpdu' i) :
    nonceTail mpdu pn = nonceTail mpdu' pn := by
  rw [nonceTail, fields_congr h (by decide), nonceTail]

theorem micHeader1_congr (h : ∀ i < 32, mpdu i = mpdu' i) :
    constructMicHeader1 k mpdu = constructMicHeader1 k mpdu' := by
  rw [constructMicHeader1, fields_congr h (by decide), h 0 (by decide), h 1 (by decide),
    constructMicHeader1]

theorem micHeader2_congr (h : ∀ i < 32, mpdu i = mpdu' i) :
    constructMicHeader2 k mpdu = constructMicHeader2 k mpdu' := by
  simp only [constructMicHeader2]
  rw [fields_congr h (by decide), fields_congr (a := 24) h (by decide), h 24 (by decide),
    h 25 (by decide), h 30 (by decide), h 31 (by decide)]

/-- Only the header in front of the payload counts. -/
theorem preload_congr (h : ∀ i < 32, mpdu i = mpdu' i) :
    constructCtrPreload k mpdu pn = constructCtrPreload k mpdu' pn := by
  funext c
  rw [constructCtrPreload, nonceFlags_congr h, nonceTail_congr h, constructCtrPreload]

theorem calcMic_congr (h : ∀ i < 32, mpdu i = mpdu' i) :
    calcMic key k mpdu pn payload = calcMic key k mpdu' pn payload := by
  rw [calcMic, constructMicIv, nonceFlags_congr h, nonceTail_congr h, micHeader1_congr h,
    micHeader2_congr h, calcMic, constructMicIv]

/-- hdrlen stands at the end of the header, so that it is not corrected. -/
structure Framed (m : Mem) (hdrlen pframe : ℕ) : Prop where
  header : wlanHdrA3Len ≤ hdrlen
  exact : (frameKind (fun i => m (pframe + i)) hdrlen).hdrlen = hdrlen

/-- The payload of a frame under its counters. -/
def frameCtr (key : List Byte) (m : Mem) (hdrlen pframe : ℕ) (payload : List Byte) : List Byte :=
  let mpdu i := m (pframe + i)
  ctrPayload key (constructCtrPreload (frameKind mpdu hdrlen) mpdu (pnVector mpdu hdrlen)) payload

/-- The code of a frame under counter 0. -/
def frameMic (key : List Byte) (m : Mem) (hdrlen pframe : ℕ) (payload : List Byte) : List Byte :=
  let mpdu i := m (pframe + i)
  let k := frameKind mpdu hdrlen
  let pn := pnVector mpdu hdrlen
  ctrMic key (constructCtrPreload k mpdu pn) (calcMic key k mpdu pn payload)

@[simp] theorem frameCtr_length : (frameCtr key m hdrlen pframe payload).length = payload.length :=
  ctrPayload_length

@[simp] theorem frameMic_length : (frameMic key m hdrlen pframe payload).length = 8 := ctrMic_length

theorem frameCtr_twice :
    frameCtr key m hdrlen pframe (frameCtr key m hdrlen pframe payload) = payload :=
      ctrPayload_twice

theorem aesCipher_eq (hf : Framed m hdrlen pframe) :
    aesCipher key hdrlen pframe plen m =
      let payload := load m (pframe + hdrlen + 8) plen
      store m (pframe + hdrlen + 8)
        (frameCtr key m hdrlen pframe payload ++ frameMic key m hdrlen pframe payload) := by
  simp only [aesCipher, hf.exact, sealMessage_eq]
  rfl

section
variable {pframe' : ℕ} (hf : Framed m hdrlen pframe)
  (hh : load m pframe (hdrlen + 8) = load m' pframe' (hdrlen + 8))
include hf hh

theorem mpdu_eq : ∀ i < 32, m (pframe + i) = m' (pframe' + i) := fun i hi => by
  have := hf.header
  unfold wlanHdrA3Len at this
  exact apply_of_load hh (by omega)

theorem frameKind_head :
    frameKind (fun i => m (pframe + i)) hdrlen = frameKind (fun i => m' (pframe' + i)) hdrlen :=
  frameKind_congr (mpdu_eq hf hh 0 (by decide))

theorem framed_head : Framed m' hdrlen pframe' :=
  ⟨hf.header, (congrArg FrameKind.hdrlen (frameKind_head hf hh)).symm.trans hf.exact⟩

omit hf in
theorem pnVector_head :
    pnVector (fun i => m (pframe + i)) hdrlen = pnVector (fun i => m' (pframe' + i)) hdrlen := by
  have h (i : ℕ) (hi : i < 8) : m (pframe + (hdrlen + i)) = m' (pframe' + (hdrlen + i)) :=
    apply_of_load hh (by omega)
  rw [pnVector, h 1 (by decide), h 4 (by decide), h 5 (by decide), h 6 (by decide), h 7 (by decide),
    show m (pframe + hdrlen) = m' (pframe' + hdrlen) from h 0 (by decide), pnVector]

theorem preload_head :
    constructCtrPreload (frameKind (fun i => m (pframe + i)) hdrlen) (fun i => m (pframe + i))
      (pnVector (fun i => m (pframe + i)) hdrlen) =
    constructCtrPreload (frameKind (fun i => m' (pframe' + i)) hdrlen) (fun i => m' (pframe' + i))
      (pnVector (fun i => m' (pframe' + i)) hdrlen) := by
  rw [frameKind_head hf hh, pnVector_head hh]
  exact preload_congr (mpdu_eq hf hh)

theorem frameCtr_head :
    frameCtr key m hdrlen pframe payload = frameCtr key m' hdrlen pframe' payload :=
  congrArg (ctrPayload key · payload) (preload_head hf hh)

theorem frameMic_head :
    frameMic key m hdrlen pframe payload = frameMic key m' hdrlen pframe' payload := by
  simp only [frameMic]
  rw [preload_head hf hh, frameKind_head hf hh, pnVector_head hh, calcMic_congr (mpdu_eq hf hh)]

end

/-- What is written behind the head leaves it as it is. -/
theorem head_store (m : Mem) (pframe hdrlen : ℕ) (text : List Byte) : load m pframe (hdrlen + 8) =
    load (store m (pframe + hdrlen + 8) text) pframe (hdrlen + 8) :=
  (load_store_of_disjoint (.inl (by omega))).symm

variable {stale : Mem}

/-- Deciphering, for a frame which fits into the static buffer. -/
theorem aesDecipher_eq (hf : Framed m hdrlen pframe) (hs : hdrlen + plen + 8 ≤ maxMsgSize) :
    aesDecipher key stale hdrlen pframe plen m =
      let text := frameCtr key m hdrlen pframe (load m (pframe + hdrlen + 8) (plen - 8))
      (decide (load m (pframe + hdrlen + 8 + (plen - 8)) 8 = frameMic key m hdrlen pframe text),
        store m (pframe + hdrlen + 8) text) := by
  obtain ⟨text, ht⟩ : ∃ text, text =
    frameCtr key m hdrlen pframe (load m (pframe + hdrlen + 8) (plen - 8)) := ⟨_, rfl⟩
  have hn : text.length = plen - 8 := by simp [ht]
  have hd := head_store m pframe hdrlen text
  obtain ⟨m₁, hm₁⟩ : ∃ m₁, m₁ = store m (pframe + hdrlen + 8) text := ⟨_, rfl⟩
  have hres : aesDecipher key stale hdrlen pframe plen m =
      (decide (load m₁ (pframe + hdrlen + 8 + (plen - 8)) 8 =
        load (sealMessage key (frameKind (fun i => m (pframe + i)) hdrlen)
          (fun i => m₁ (pframe + i))
          (pnVector (fun i => m₁ (pframe + i)) hdrlen) (pframe + hdrlen + 8) (plen - 8) m₁)
          (pframe + hdrlen + 8 + (plen - 8)) 8), m₁) := by
    simp only [aesDecipher, hf.exact, if_pos hs, hm₁, ht, frameCtr]
  rw [← hm₁] at hd
  have hmic : frameMic key m hdrlen pframe text = frameMic key m₁ hdrlen pframe text :=
    frameMic_head hf hd
  have hl : load m₁ (pframe + hdrlen + 8) (plen - 8) = text := by rw [hm₁, load_store hn]
  have hseal : load (sealMessage key (frameKind (fun i => m (pframe + i)) hdrlen)
      (fun i => m₁ (pframe + i)) (pnVector (fun i => m₁ (pframe + i)) hdrlen) (pframe + hdrlen + 8)
      (plen - 8) m₁) (pframe + hdrlen + 8 + (plen - 8)) 8 = frameMic key m hdrlen pframe text := by
    rw [frameKind_head hf hd, sealMessage_eq, hl, sealedText, store_append, hmic, ctrPayload_length,
      hn, load_store ctrMic_length]
    rfl
  have hkeep : load m₁ (pframe + hdrlen + 8 + (plen - 8)) 8 =
      load m (pframe + hdrlen + 8 + (plen - 8)) 8 := by
    rw [hm₁, load_store_of_disjoint (.inr (by omega))]
  rw [hres, hseal, hkeep, hm₁, ht]

/-- The receiver has the frame which aes_cipher has made at another place: aes_decipher gives
back what was encrypted, header included, and accepts it. -/
theorem decipher_cipher (key : List Byte) (stale m' : Mem) (pframe' : ℕ)
    (hf : Framed m hdrlen pframe)
    (hs : hdrlen + plen + 16 ≤ maxMsgSize)
    (hr : load m' pframe' (hdrlen + 8 + (plen + 8)) =
      load (aesCipher key hdrlen pframe plen m) pframe (hdrlen + 8 + (plen + 8))) :
    (aesDecipher key stale hdrlen pframe' (plen + 8) m').1 = true ∧
    load (aesDecipher key stale hdrlen pframe' (plen + 8) m').2 pframe' (hdrlen + 8 + plen) =
      load m pframe (hdrlen + 8 + plen) := by
  obtain ⟨payload, hp⟩ : ∃ payload, payload = load m (pframe + hdrlen + 8) plen := ⟨_, rfl⟩
  have hn : payload.length = plen := by simp [hp]
  rw [aesCipher_eq hf, ← hp] at hr
  have hc : load m' pframe' (hdrlen + 8) = load m pframe (hdrlen + 8) :=
    (load_sub (i := 0) hr (by omega)).trans (head_store _ _ _ _).symm
  have htext : load m' (pframe' + hdrlen + 8) plen = frameCtr key m hdrlen pframe payload := by
    rw [Nat.add_assoc, load_sub (k := plen) hr (by omega), ← Nat.add_assoc, store_append,
      load_store_of_disjoint (.inl (by simp [hn])), load_store (by simp [hn])]
  have hmic : load m' (pframe' + hdrlen + 8 + plen) 8 = frameMic key m hdrlen pframe payload := by
    rw [Nat.add_assoc pframe', Nat.add_assoc pframe', load_sub (k := 8) hr (by omega),
      ← Nat.add_assoc, ← Nat.add_assoc, store_append, frameCtr_length, hn,
      load_store frameMic_length]
  have hf' := framed_head hf hc.symm
  rw [aesDecipher_eq hf' (by omega), Nat.add_sub_cancel]
  simp only [htext, hmic, frameCtr_head hf' hc, frameMic_head hf' hc, frameCtr_twice]
  refine ⟨decide_eq_true trivial, ?_⟩
  rw [load_add, ← head_store, hc, ← Nat.add_assoc pframe', load_store hn,
    load_add (n := hdrlen + 8), hp, ← Nat.add_assoc pframe]

/-- aes_decipher accepts exactly those frames which aes_cipher makes of what it hands on. -/
theorem decipher_accepts_iff (hf : Framed m hdrlen pframe) (h8 : 8 ≤ plen)
    (hs : hdrlen + plen + 8 ≤ maxMsgSize) :
    (aesDecipher key stale hdrlen pframe plen m).1 = true ↔
      load (aesCipher key hdrlen pframe (plen - 8) (aesDecipher key stale hdrlen pframe plen m).2)
        pframe (hdrlen + 8 + plen) = load m pframe (hdrlen + 8 + plen) := by
  obtain ⟨body, hb⟩ : ∃ body, body = load m (pframe + hdrlen + 8) (plen - 8) := ⟨_, rfl⟩
  have hn : body.length = plen - 8 := by simp [hb]
  have hd := head_store m pframe hdrlen (frameCtr key m hdrlen pframe body)
  have hm : load m pframe (hdrlen + 8 + plen) = load m pframe (hdrlen + 8) ++
      (body ++ load m (pframe + hdrlen + 8 + (plen - 8)) 8) := by
    rw [load_add, hb, ← Nat.add_assoc pframe, ← load_add, Nat.sub_add_cancel h8]
  rw [aesDecipher_eq hf hs, ← hb, aesCipher_eq (framed_head hf hd), load_store (by simp [hn])]
  simp only [← frameCtr_head hf hd, ← frameMic_head hf hd, frameCtr_twice]
  rw [hm, load_add, ← head_store, ← hd, ← Nat.add_assoc pframe, load_store (by simp [hn]; omega),
    List.append_right_inj, List.append_right_inj, decide_eq_true_eq]
  exact eq_comm

/-- A data frame with five bytes of text, and the code behind it. -/
theorem decipher_accepts_iff_five :
    (aesDecipher (List.replicate 16 7) (fun _ => 0) 24 0 13
      fun i => BitVec.ofNat 8 (i + 8)).1 = true ↔
      load (aesCipher (List.replicate 16 7) 24 0 5
        (aesDecipher (List.replicate 16 7) (fun _ => 0) 24 0 13
        fun i => BitVec.ofNat 8 (i + 8)).2) 0 45 = load (fun i => BitVec.ofNat 8 (i + 8)) 0 45 :=
  decipher_accepts_iff ⟨by decide, by decide⟩ (by decide) (by decide)

end Okm6ullOta.Ccmp
