import Okm6ullOta.RecvFrames

/-!
# What is protected is received

The frame which leaves xmitframe_swencrypt reaches decryptor fragment by fragment. Whatever
the cipher, every fragment is accepted and carries its text again.
-/
namespace Okm6ullOta.FrameProtection
open Arc4 ByteMemory Crc32 XmitFrames RecvFrames
open CyclicChecks (register register_burst)
open StreamCiphers (mask_mask xors mask_xors)
open Ccmp (Framed getD_take)

variable {a : PktAttrib} {sec sec' : SecurityPriv} {frag_len pframe : ℕ} {m : Mem} {f : ℕ × ℕ}
  {k n key_len room : ℕ} {rx : RxPktAttrib} {s : StaInfo} {stale : Mem} {rc4key text : List Byte}
  {key : List Byte → List Byte}

/-- What one fragment becomes. -/
def sealWork (a : PktAttrib) (sec : SecurityPriv) : ℕ × ℕ → Mem → Mem :=
  match a.encrypt with
  | .wep40 | .wep104 => wepFragment a sec
  | .tkip => tkipFragment a (txKey a sec)
  | .aes => aesFragment a (txKey a sec)
  | .none => fun _ m => m

theorem swencrypt_eq (hb : a.bswenc = true) (he : a.encrypt ≠ .none) :
    xmitframeSwencrypt a frag_len sec pframe m =
      workAll (sealWork a sec) (fragments a frag_len a.nr_frags pframe) m := by
  rw [xmitframeSwencrypt, if_pos hb]
  cases h : a.encrypt with
  | none => exact absurd h he
  | wep40 => simp only [rtwWepEncrypt, h, sealWork, eachFragment_eq, true_or, if_true]
  | wep104 => simp only [rtwWepEncrypt, h, sealWork, eachFragment_eq, or_true, if_true]
  | tkip => simp only [rtwTkipEncrypt, h, sealWork, eachFragment_eq, if_true]
  | aes => simp only [rtwAesEncrypt, h, sealWork, eachFragment_eq, if_true]

/-- A header which CCMP takes as it is. -/
def Headed (a : PktAttrib) (f : ℕ × ℕ) (m : Mem) : Prop := a.encrypt = .aes → Framed m a.hdrlen f.1

theorem aesFragment_within (hl : a.iv_len = 8 ∧ a.icv_len = 8) :
    Within (fun m => Framed m a.hdrlen f.1) f.1 (f.2 + a.overhead) (aesFragment a rc4key f) := by
  have hn : f.2 + a.overhead = a.hdrlen + 8 + (f.2 + 8) := by
    simp only [PktAttrib.overhead]
    omega
  have hhead {m m' : Mem} (h : load m f.1 (f.2 + a.overhead) = load m' f.1 (f.2 + a.overhead)) :
      load m f.1 (a.hdrlen + 8) = load m' f.1 (a.hdrlen + 8) := load_sub (i := 0) h (by omega)
  refine ⟨fun m x hf hx => ?_, fun m m' hf h => ?_, fun m m' hf h => Ccmp.framed_head hf (hhead h)⟩
  · rw [aesFragment, Ccmp.aesCipher_eq hf]
    rcases hx with hx | hx
    · exact store_of_lt (by omega)
    · exact store_of_ge (by simp; omega)
  · have hp := load_sub (i := a.hdrlen + 8) (k := f.2) h (by omega)
    rw [← Nat.add_assoc] at hp
    rw [aesFragment, Ccmp.aesCipher_eq hf, Ccmp.aesCipher_eq (Ccmp.framed_head hf (hhead h)), hp]
    simp only [Ccmp.frameCtr_head hf (hhead h), Ccmp.frameMic_head hf (hhead h)]
    exact load_store_congr h _ _

theorem sealWork_within (hl : (a.iv_len, a.icv_len) = iceIvLen a.encrypt) (he : a.encrypt ≠ .none) :
    Within (Headed a f) f.1 (f.2 + a.overhead) (sealWork a sec f) := by
  unfold sealWork Headed
  cases h : a.encrypt with
  | none => exact absurd h he
  | aes =>
    rw [h] at hl
    have hw : Within (fun m => Framed m a.hdrlen f.1) f.1 (f.2 + a.overhead)
      (aesFragment a (txKey a sec) f) := aesFragment_within (Prod.mk.inj hl)
    exact ⟨fun m x hf => hw.outside m x (hf rfl), fun m m' hf => hw.inside m m' (hf rfl),
      fun m m' hf hm _ => hw.about m m' (hf rfl) hm⟩
  | tkip =>
    rw [h] at hl
    obtain ⟨hiv, hicv⟩ := Prod.mk.inj hl
    exact (sealFragment_within (by omega) hicv).always fun m h => by cases h
  | wep40 =>
    rw [h] at hl
    obtain ⟨hiv, hicv⟩ := Prod.mk.inj hl
    exact (sealFragment_within (by omega) hicv).always fun m h => by cases h
  | wep104 =>
    rw [h] at hl
    obtain ⟨hiv, hicv⟩ := Prod.mk.inj hl
    exact (sealFragment_within (by omega) hicv).always fun m h => by cases h

/-- The bytes of one fragment in the transmit buffer. -/
theorem load_swencrypt (hb : a.bswenc = true) (hl : (a.iv_len, a.icv_len) = iceIvLen a.encrypt)
    (he : a.encrypt ≠ .none) (hs : a.overhead ≤ frag_len)
    (hm : ∀ f ∈ fragments a frag_len a.nr_frags pframe, Headed a f m)
    (hf : f ∈ fragments a frag_len a.nr_frags pframe) :
    load (xmitframeSwencrypt a frag_len sec pframe m) f.1 (f.2 + a.overhead) =
      load (sealWork a sec f m) f.1 (f.2 + a.overhead) := by
  rw [swencrypt_eq hb he]
  exact load_workAll (P := Headed a) Prod.fst (fun f => f.2 + a.overhead)
    (fun f _ => sealWork_within hl he) hm (fragments_apart hs) hf

theorem load_getD (l : List Byte) : load (fun i => l.getD i 0) 0 l.length = l := by
  refine List.ext_getElem (by simp) fun i _ h => ?_
  rw [getElem_load, Nat.zero_add, List.getD_eq_getElem l 0 h]

theorem sealed_open (p : List Byte) :
    (arcfourEncrypt (arcfourInit rc4key key_len) (sealed rc4key key_len p)).1 = icv p := mask_mask

/-- The first bytes behind the header of a received fragment are those which were sent. -/
theorem iv_received {h v : ℕ} (hk : k ≤ v) :
    ((load m n (h + v) ++ text).drop h).take k = load m (n + h) k := by
  rw [load_add, List.append_assoc, List.drop_left' load_length,
    List.take_append_of_le_length (by simpa using hk)]
  obtain ⟨j, rfl⟩ := Nat.exists_eq_add_of_le hk
  rw [load_add, List.take_left' load_length]

theorem open_sealFragment (rx : RxPktAttrib) (m : Mem) (f : ℕ × ℕ) (room key_len : ℕ)
    (hh : rx.hdrlen = a.hdrlen) (hv : rx.iv_len = a.iv_len)
    (hicv : a.icv_len = 4) (hk : k ≤ a.iv_len) {key' : List Byte → List Byte}
    (hkey : ∀ l, key' l = key (l.take k)) :
    let g : RecvFrame := ⟨rx, load (sealFragment a k key key_len f m) f.1 (f.2 + a.overhead), room⟩
    (openPayload (key' (g.data.drop rx.hdrlen)) key_len g.head g).data =
      load m f.1 (a.hdrlen + a.iv_len) ++ icv (load m (f.1 + (a.hdrlen + a.iv_len)) f.2) := by
  simp only [openPayload, RecvFrame.head, hh, hv, load_sealFragment hicv]
  rw [List.take_left' load_length, List.drop_left' load_length, hkey, iv_received hk, sealed_open]

theorem icvMatches_iff (h : 4 ≤ text.length) : icvMatches text = true ↔ Fits text := by
  obtain ⟨t, e, rfl, he⟩ : ∃ t e, text = t ++ e ∧ e.length = 4 :=
    ⟨_, _, (List.take_append_drop (text.length - 4) text).symm, by simp; omega⟩
  have hn : (t ++ e).length - 4 = t.length := by simp [he]
  have hg (i : ℕ) : (t ++ e).getD (t.length + i) 0 = e.getD i 0 := by
    simp [List.getD_eq_getElem?_getD, List.getElem?_append_right]
  have hb (l : List Byte) (hl : l.length = 4) : l = e ↔ l.getD 3 0 = e.getD 3 0 ∧
      l.getD 2 0 = e.getD 2 0 ∧ l.getD 1 0 = e.getD 1 0 ∧ l.getD 0 0 = e.getD 0 0 := by
    rw [Aes128.four_bytes hl, Aes128.four_bytes he]
    simp only [List.cons.injEq, and_true, List.getD_cons_zero, List.getD_cons_succ]
    tauto
  have h₁ := hg 1
  have h₂ := hg 2
  have h₃ := hg 3
  have h₀ := hg 0
  simp only [Fits, icvMatches, List.length_append, he, List.take_left, List.drop_left,
    Nat.add_sub_cancel, Nat.add_zero] at h₀ h₁ h₂ h₃ ⊢
  rw [hb _ CyclicChecks.bytes_length, show t.length + 4 - 1 = t.length + 3 by omega,
    show t.length + 4 - 2 = t.length + 2 by omega, show t.length + 4 - 3 = t.length + 1 by omega,
    h₀, h₁, h₂, h₃]
  simp [and_assoc]

/-- The attributes of a received fragment are those it was sent with. -/
structure Meant (a : PktAttrib) (rx : RxPktAttrib) : Prop where
  encrypt : rx.encrypt = a.encrypt
  hdrlen : rx.hdrlen = a.hdrlen
  iv_len : rx.iv_len = a.iv_len
  ta : rx.ta = a.ta
  fresh : rx.bdecrypted = false

/-- The receiver takes the key the sender has used. -/
def KeysAgree (a : PktAttrib) (sec sec' : SecurityPriv) (s : StaInfo) (rx : RxPktAttrib) : Prop :=
  match a.encrypt with
  | .wep40 | .wep104 =>
    sec'.dot11DefKey rx.key_index = sec.dot11DefKey sec.dot11PrivacyKeyIndex ∧
      sec'.dot11DefKeylen rx.key_index = sec.dot11DefKeylen sec.dot11PrivacyKeyIndex
  | .tkip => rxTkipKey sec' s rx = some (txKey a sec)
  | .aes => rxAesKey sec' s rx = some (txKey a sec)
  | .none => False

/-- The key index in the sent IV. -/
def sentIndex (a : PktAttrib) (m : Mem) (f : ℕ × ℕ) : ℕ :=
  ((m (f.1 + a.hdrlen + 3) >>> 6) &&& 0x3).toNat

/-- The attributes with the key index. -/
def indexed (a : PktAttrib) (m : Mem) (f : ℕ × ℕ) (rx : RxPktAttrib) : RxPktAttrib :=
  { rx with key_index := sentIndex a m f }

/-- What decryptor makes of the attributes. -/
def opened (a : PktAttrib) (m : Mem) (f : ℕ × ℕ) (rx : RxPktAttrib) : RxPktAttrib :=
  { indexed a m f rx with bdecrypted := true }

/-- What decryptor hands on of one fragment. -/
structure Carried (a : PktAttrib) (m : Mem) (f : ℕ × ℕ) (rx : RxPktAttrib) (room : ℕ)
    (g : RecvFrame) :
    Prop where
  attrib : g.attrib = opened a m f rx
  room : g.room = room
  len : g.len = f.2 + a.overhead
  text : g.data.take (a.hdrlen + a.iv_len + f.2) = load m f.1 (a.hdrlen + a.iv_len + f.2)

/-- The bytes of the key index stand in the part which is not encrypted. -/
theorem index_received (hv : 4 ≤ a.iv_len) (ht : text.take (a.hdrlen + a.iv_len) =
    load m f.1 (a.hdrlen + a.iv_len)) :
    (((text.drop a.hdrlen).getD 3 0 >>> 6) &&& 0x3).toNat = sentIndex a m f := by
  have hg : (text.drop a.hdrlen).getD 3 0 = m (f.1 + a.hdrlen + 3) := by
    rw [← List.take_append_drop (a.hdrlen + a.iv_len) text, ht, ← getD_take (n := 4) (by decide),
      iv_received hv]
    rfl
  rw [hg, sentIndex]

theorem wepKey_take (sec : SecurityPriv) (i : ℕ) (l : List Byte) :
    wepKey sec i l = wepKey sec i (l.take 3) := by simp [wepKey]

theorem tkipKey_take (prwskey ta l : List Byte) :
    tkipKey prwskey ta l = tkipKey prwskey ta (l.take 8) := by
  simp only [tkipKey, tkipPnh, tkipPnl]
  rw [getD_take (i := 0) (by decide), getD_take (i := 2) (by decide),
    getD_take (i := 4) (by decide),
    getD_take (i := 5) (by decide), getD_take (i := 6) (by decide), getD_take (i := 7) (by decide)]

theorem icv_take (h t : List Byte) (hn : h.length + t.length = n) :
    (h ++ icv t).take n = h ++ t := by
  rw [icv, ← List.append_assoc, List.take_left' (by simpa using hn)]

/-- What is left for one fragment under RC4. -/
theorem carried_icv {g : RecvFrame} (hicv : a.icv_len = 4) (ha : g.attrib = opened a m f rx)
    (hr : g.room = room) (hg : g.data = load m f.1 (a.hdrlen + a.iv_len) ++
      icv (load m (f.1 + (a.hdrlen + a.iv_len)) f.2)) : Carried a m f rx room g where
  attrib := ha
  room := hr
  len := by
    simp only [RecvFrame.len, hg, icv, List.length_append, load_length, CyclicChecks.bytes_length,
      PktAttrib.overhead]
    omega
  text := by rw [hg, icv_take _ _ (by simp), ← load_add]

/-- The head of a fragment under RC4 is not encrypted. -/
theorem sealFragment_head (hicv : a.icv_len = 4) :
    (load (sealFragment a k key key_len f m) f.1 (f.2 + a.overhead)).take (a.hdrlen + a.iv_len) =
      load m f.1 (a.hdrlen + a.iv_len) := by
  rw [load_sealFragment hicv, List.take_left' load_length]

/-- decryptor, for a frame which is still encrypted. -/
theorem decryptor_eq (hrx : Meant a rx) (he : a.encrypt ≠ .none) (hv : 4 ≤ a.iv_len)
    (ht : text.take (a.hdrlen + a.iv_len) = load m f.1 (a.hdrlen + a.iv_len)) {g : RecvFrame}
    (hw : swDecrypt sec' (some s) stale ⟨indexed a m f rx, text, room⟩ = (true, g)) :
    decryptor sec' (some s) stale ⟨rx, text, room⟩ =
      some { g with attrib.bdecrypted := true } := by
  have hi := index_received hv ht
  rw [← hrx.hdrlen] at hi
  rw [← hrx.encrypt] at he
  rw [indexed, hrx.fresh] at hw
  simp only [decryptor, if_neg he, hi, hrx.fresh, Bool.false_eq_true, if_false, hw, if_true]

theorem rtwWepDecrypt_eq {g : RecvFrame}
    (h : g.attrib.encrypt = .wep40 ∨ g.attrib.encrypt = .wep104) :
    rtwWepDecrypt sec' g =
      openPayload (wepKey sec' g.attrib.key_index (g.data.drop g.attrib.hdrlen))
      (3 + sec'.dot11DefKeylen g.attrib.key_index) g.head g := if_pos h

theorem rtwTkipDecrypt_eq {g : RecvFrame} (h : g.attrib.encrypt = .tkip)
    (hk : rxTkipKey sec' s g.attrib = some rc4key) :
    rtwTkipDecrypt sec' (some s) g =
      let o := openPayload (tkipKey rc4key g.attrib.ta (g.data.drop g.attrib.hdrlen)) 16 g.head g
      (icvMatches (o.data.drop g.head), o) := by
  simp only [rtwTkipDecrypt, if_pos h, hk]

section
variable (hrx : Meant a rx) (hk : KeysAgree a sec sec' s (opened a m f rx))
include hrx hk

theorem carried_wep (h : a.encrypt = .wep40 ∨ a.encrypt = .wep104) (hv : a.iv_len = 4)
    (hicv : a.icv_len = 4) :
    ∃ g, decryptor sec' (some s) stale
      ⟨rx, load (wepFragment a sec f m) f.1 (f.2 + a.overhead), room⟩ = some g ∧
      Carried a m f rx room g := by
  obtain ⟨hkey, hlen⟩ :
    sec'.dot11DefKey (sentIndex a m f) = sec.dot11DefKey sec.dot11PrivacyKeyIndex ∧
      sec'.dot11DefKeylen (sentIndex a m f) = sec.dot11DefKeylen sec.dot11PrivacyKeyIndex := by
    rcases h with h | h <;> rw [KeysAgree, h] at hk <;> exact hk
  have hw (l : List Byte) : wepKey sec' (sentIndex a m f) l =
      wepKey sec sec.dot11PrivacyKeyIndex (l.take 3) := by
    rw [wepKey_take, wepKey, hkey, hlen, wepKey]
  have ho := open_sealFragment (indexed a m f rx) m f room
    (3 + sec.dot11DefKeylen sec.dot11PrivacyKeyIndex) hrx.hdrlen hrx.iv_len hicv
    (by omega : 3 ≤ a.iv_len) hw
  have ht : (load (wepFragment a sec f m) f.1 (f.2 + a.overhead)).take (a.hdrlen + a.iv_len) =
      load m f.1 (a.hdrlen + a.iv_len) := sealFragment_head hicv
  rw [← wepFragment] at ho
  generalize load (wepFragment a sec f m) f.1 (f.2 + a.overhead) = text at ho ht ⊢
  have he : a.encrypt ≠ .none := by rcases h with h | h <;> simp [h]
  have hd : swDecrypt sec' (some s) stale ⟨indexed a m f rx, text, room⟩ =
      (true, rtwWepDecrypt sec' ⟨indexed a m f rx, text, room⟩) := by
    have hw : (indexed a m f rx).encrypt = a.encrypt := hrx.encrypt
    rcases h with h | h <;> simp only [swDecrypt, hw, h]
  refine ⟨_, decryptor_eq hrx he (Nat.le_of_eq hv.symm) ht hd, ?_⟩
  rw [rtwWepDecrypt_eq (hrx.encrypt ▸ h)]
  rw [← hlen] at ho
  exact carried_icv hicv rfl rfl ho

theorem carried_tkip (h : a.encrypt = .tkip) (hv : a.iv_len = 8) (hicv : a.icv_len = 4) :
    ∃ g, decryptor sec' (some s) stale
      ⟨rx, load (tkipFragment a (txKey a sec) f m) f.1 (f.2 + a.overhead), room⟩ = some g ∧
      Carried a m f rx room g := by
  have hkey : rxTkipKey sec' s (indexed a m f rx) = some (txKey a sec) := by
    rw [KeysAgree, h] at hk
    exact hk
  have ho := open_sealFragment (indexed a m f rx) m f room 16 hrx.hdrlen hrx.iv_len hicv
    (Nat.le_of_eq hv.symm) (tkipKey_take (txKey a sec) a.ta)
  have ht : (load (tkipFragment a (txKey a sec) f m) f.1 (f.2 + a.overhead)).take
      (a.hdrlen + a.iv_len) = load m f.1 (a.hdrlen + a.iv_len) := sealFragment_head hicv
  rw [← tkipFragment] at ho
  generalize load (tkipFragment a (txKey a sec) f m) f.1 (f.2 + a.overhead) = text at ho ht ⊢
  have hfit : icvMatches (icv (load m (f.1 + (a.hdrlen + a.iv_len)) f.2)) = true :=
    (icvMatches_iff (by simp [icv])).mpr fits_append
  have hd := rtwTkipDecrypt_eq (g := ⟨indexed a m f rx, text, room⟩) (hrx.encrypt.trans h) hkey
  simp only [show (indexed a m f rx).ta = a.ta from hrx.ta] at hd
  have hh : (⟨indexed a m f rx, text, room⟩ : RecvFrame).head = a.hdrlen + a.iv_len := by
    rw [RecvFrame.head, ← hrx.hdrlen, ← hrx.iv_len]
    rfl
  rw [ho, hh, List.drop_left' load_length, hfit] at hd
  have he : (indexed a m f rx).encrypt = .tkip := hrx.encrypt.trans h
  refine ⟨_, decryptor_eq hrx (by simp [h]) (by omega) ht
    (by simp only [swDecrypt, he, hd]; rfl), ?_⟩
  exact carried_icv hicv rfl rfl (by simpa only [hh] using ho)

theorem carried_aes (h : a.encrypt = .aes) (hl : a.iv_len = 8 ∧ a.icv_len = 8)
    (hf : Framed m a.hdrlen f.1) (hs : a.hdrlen + f.2 + 16 ≤ Ccmp.maxMsgSize) :
    ∃ g, decryptor sec' (some s) stale
      ⟨rx, load (aesFragment a (txKey a sec) f m) f.1 (f.2 + a.overhead), room⟩ = some g ∧
      Carried a m f rx room g := by
  have hkey : rxAesKey sec' s (indexed a m f rx) = some (txKey a sec) := by
    rw [KeysAgree, h] at hk
    exact hk
  have hn : f.2 + a.overhead = a.hdrlen + 8 + (f.2 + 8) := by
    simp only [PktAttrib.overhead]
    omega
  have hhead : (load (aesFragment a (txKey a sec) f m) f.1 (f.2 + a.overhead)).take
      (a.hdrlen + a.iv_len) = load m f.1 (a.hdrlen + a.iv_len) := by
    rw [hn, load_add, hl.1, List.take_left' load_length, aesFragment, Ccmp.aesCipher_eq hf,
      ← Ccmp.head_store]
  obtain ⟨text, ht⟩ : ∃ text,
    text = load (aesFragment a (txKey a sec) f m) f.1 (f.2 + a.overhead) :=
    ⟨_, rfl⟩
  have hlen : text.length = a.hdrlen + 8 + (f.2 + 8) := by rw [ht, load_length, hn]
  obtain ⟨hok, htext⟩ := Ccmp.decipher_cipher (txKey a sec) stale (fun i => text.getD i 0) 0
    hf hs (by rw [← hlen, load_getD, hlen, ht, hn, aesFragment])
  rw [← ht] at hhead ⊢
  have hd : swDecrypt sec' (some s) stale ⟨indexed a m f rx, text, room⟩ =
      (true, ⟨indexed a m f rx, load (Ccmp.aesDecipher (txKey a sec) stale a.hdrlen 0 (f.2 + 8)
        fun i => text.getD i 0).2 0 text.length, room⟩) := by
    have he : (indexed a m f rx).encrypt = .aes := hrx.encrypt.trans h
    have hh : (indexed a m f rx).hdrlen = a.hdrlen := hrx.hdrlen
    have hi : (indexed a m f rx).iv_len = 8 := hrx.iv_len.trans hl.1
    have hp : a.hdrlen + 8 + (f.2 + 8) - a.hdrlen - 8 = f.2 + 8 := by omega
    simp only [swDecrypt, he, rtwAesDecrypt, if_true, hkey, RecvFrame.len, hlen, hh, hi, hp, hok]
  refine ⟨_, decryptor_eq hrx (by simp [h]) (by omega) hhead hd, rfl, rfl, ?_, ?_⟩
  · simp only [RecvFrame.len, load_length, hlen, hn]
  · have hle : a.hdrlen + a.iv_len + f.2 + 8 = text.length := by rw [hlen]; omega
    simp only [← hle]
    rw [load_add, List.take_left' load_length, hl.1, htext]

end

/-- Header, IV and ICV fit into the first fragments and into the last one. -/
structure Sized (a : PktAttrib) (frag_len : ℕ) : Prop where
  frag_len : a.overhead ≤ frag_len
  last_txcmdsz : a.overhead ≤ a.last_txcmdsz

theorem decryptor_swencrypt (hb : a.bswenc = true) (he : a.encrypt ≠ .none)
    (hl : (a.iv_len, a.icv_len) = iceIvLen a.encrypt) (hs : Sized a frag_len)
    (hm : ∀ f ∈ fragments a frag_len a.nr_frags pframe, Headed a f m)
    (hf : f ∈ fragments a frag_len a.nr_frags pframe)
    (hsz : a.encrypt = .aes → a.hdrlen + f.2 + 16 ≤ Ccmp.maxMsgSize) (hrx : Meant a rx)
    (hk : KeysAgree a sec sec' s (opened a m f rx)) :
    ∃ g, decryptor sec' (some s) stale ⟨rx, load (xmitframeSwencrypt a frag_len sec pframe m) f.1
      (f.2 + a.overhead), room⟩ = some g ∧ Carried a m f rx room g := by
  rw [load_swencrypt hb hl he hs.frag_len hm hf, sealWork]
  cases h : a.encrypt with
  | none => exact absurd h he
  | wep40 =>
    rw [h] at hl
    exact carried_wep hrx hk (.inl h) (congrArg Prod.fst hl) (congrArg Prod.snd hl)
  | wep104 =>
    rw [h] at hl
    exact carried_wep hrx hk (.inr h) (congrArg Prod.fst hl) (congrArg Prod.snd hl)
  | tkip =>
    rw [h] at hl
    exact carried_tkip hrx hk h (congrArg Prod.fst hl) (congrArg Prod.snd hl)
  | aes =>
    rw [h] at hl
    exact carried_aes hrx hk h (Prod.mk.inj hl) (hm f hf h) (hsz h)

section
variable {stainfo : Option StaInfo} {g : RecvFrame} {i : ℕ} {cs ds : List Byte}

/-- The payload is changed in the places of `ds`. -/
def changed (g : RecvFrame) (ds : List Byte) : RecvFrame :=
  { g with data := g.data.take g.head ++ xors (g.data.drop g.head) ds }

/-- A change of some bytes in a row, `i` bytes behind the IV. -/
def burst (g : RecvFrame) (i : ℕ) (cs : List Byte) : List Byte :=
  List.replicate i 0 ++ (cs ++ List.replicate (g.len - g.head - i - cs.length) 0)

@[simp] theorem changed_attrib : (changed g ds).attrib = g.attrib := rfl

@[simp] theorem changed_head : (changed g ds).head = g.head := rfl

theorem take_drop_append {t e : List Byte} (h : i + n ≤ t.length) :
    ((t ++ e).drop i).take n = (t.drop i).take n := by
  rw [List.drop_append_of_le_length (by omega), List.take_append_of_le_length (by simp; omega)]

section
variable (h : g.head ≤ g.len)
include h

theorem data_split : ∃ t p, g.data = t ++ p ∧ t.length = g.head ∧ p.length = g.len - g.head :=
  ⟨_, _, (List.take_append_drop g.head g.data).symm, by simpa [RecvFrame.len] using h,
    by simp [RecvFrame.len]⟩

/-- The IV stays. -/
theorem changed_iv (ds : List Byte) (hi : i + n ≤ g.head) :
    ((changed g ds).data.drop i).take n = (g.data.drop i).take n := by
  obtain ⟨t, p, hd, ht, -⟩ := data_split h
  rw [changed, hd, List.take_left' ht, take_drop_append (by omega), take_drop_append (by omega)]

theorem changed_payload (ds : List Byte) :
    (changed g ds).data.drop g.head = xors (g.data.drop g.head) ds := by
  rw [changed, List.drop_left' (by simpa [RecvFrame.len] using h)]

theorem changed_len (hd : ds.length = g.len - g.head) : (changed g ds).len = g.len := by
  obtain ⟨t, p, he, ht, hp⟩ := data_split h
  have hlen : g.len = g.head + (g.len - g.head) := by omega
  rw [hlen, RecvFrame.len, changed, he, List.take_left' ht, List.drop_left' ht]
  simp [hd, ht, hp]

theorem openPayload_payload (rc4key : List Byte) (key_len : ℕ) :
    (openPayload rc4key key_len g.head g).data.drop g.head =
      (arcfourEncrypt (arcfourInit rc4key key_len) (g.data.drop g.head)).1 := by
  rw [openPayload, List.drop_left' (by simpa [RecvFrame.len] using h)]

end

/-- Whether a changed fragment is accepted depends on the change only. -/
theorem tkip_changed (he : g.attrib.encrypt = .tkip) (hv : g.attrib.iv_len = 8)
    (hn : g.head + 4 ≤ g.len) (hd : ds.length = g.len - g.head)
    (hacc : (rtwTkipDecrypt sec stainfo g).1 = true) :
    (rtwTkipDecrypt sec stainfo (changed g ds)).1 = true ↔ register reflected 0 ds = 0 := by
  cases stainfo with
  | none => simp [rtwTkipDecrypt, he] at hacc
  | some s =>
    cases hk : rxTkipKey sec s g.attrib with
    | none => simp [rtwTkipDecrypt, he, hk] at hacc
    | some prwskey =>
      have hh : g.head = g.attrib.hdrlen + 8 := by rw [RecvFrame.head, hv]
      have hle : g.head ≤ g.len := by omega
      have hkey : tkipKey prwskey g.attrib.ta ((changed g ds).data.drop g.attrib.hdrlen) =
          tkipKey prwskey g.attrib.ta (g.data.drop g.attrib.hdrlen) := by
        rw [tkipKey_take, changed_iv hle ds (by omega), ← tkipKey_take]
      have hopen := openPayload_payload (g := changed g ds) (by rw [changed_len hle hd]; exact hle)
        (tkipKey prwskey g.attrib.ta (g.data.drop g.attrib.hdrlen)) 16
      rw [changed_head, changed_payload hle, arcfourEncrypt, mask_xors, ← arcfourEncrypt] at hopen
      rw [rtwTkipDecrypt_eq he hk] at hacc
      rw [rtwTkipDecrypt_eq (g := changed g ds) he hk]
      simp only [openPayload_payload hle] at hacc
      simp only [changed_attrib, changed_head, hkey, hopen]
      have hlen : (arcfourEncrypt (arcfourInit (tkipKey prwskey g.attrib.ta
          (g.data.drop g.attrib.hdrlen)) 16) (g.data.drop g.head)).1.length = g.len - g.head := by
        simp [arcfourEncrypt, RecvFrame.len]
      generalize (arcfourEncrypt _ (g.data.drop g.head)).1 = text at hacc hlen ⊢
      rw [icvMatches_iff (by omega)] at hacc
      rw [icvMatches_iff (by simp; omega), fits_xors hacc (by omega) (by omega)]

/-- Every change of up to four bytes in a row is found. -/
theorem tkip_burst (he : g.attrib.encrypt = .tkip) (hv : g.attrib.iv_len = 8)
    (hn : g.head + 4 ≤ g.len) (hi : g.head + i + cs.length ≤ g.len) (hc : cs.length ≤ 4)
    (hacc : (rtwTkipDecrypt sec stainfo g).1 = true) :
    (rtwTkipDecrypt sec stainfo (changed g (burst g i cs))).1 = true ↔
      cs = List.replicate cs.length 0 := by
  rw [tkip_changed he hv hn (by simp [burst]; omega) hacc, burst]
  exact register_burst reflected_msb (by omega) i _

/-- The frame with the key index of its IV. -/
def keyed (g : RecvFrame) : RecvFrame :=
  { g with attrib.key_index := (((g.data.drop g.attrib.hdrlen).getD 3 0 >>> 6) &&& 0x3).toNat }

theorem decryptor_tkip (he : g.attrib.encrypt = .tkip) (hb : g.attrib.bdecrypted = false) :
    (decryptor sec stainfo stale g).isSome ↔ (rtwTkipDecrypt sec stainfo (keyed g)).1 = true := by
  simp only [decryptor, he, reduceCtorEq, if_false, hb, Bool.false_eq_true, swDecrypt, keyed]
  split_ifs with h
  · exact iff_of_true rfl h
  · exact iff_of_false (by simp) h

theorem keyed_changed (hv : g.attrib.iv_len = 8) (h : g.head ≤ g.len) :
    keyed (changed g ds) = changed (keyed g) ds := by
  have hh : g.head = g.attrib.hdrlen + 8 := by rw [RecvFrame.head, hv]
  have hi : ((changed g ds).data.drop g.attrib.hdrlen).getD 3 0 =
      (g.data.drop g.attrib.hdrlen).getD 3 0 := by
    rw [← getD_take (n := 8) (by decide), changed_iv h ds (by omega), getD_take (by decide)]
  simp only [keyed, changed_attrib, hi]
  rfl

/-- A frame which decryptor hands on is freed after any change of up to four bytes in a row
behind its IV. -/
theorem decryptor_burst (he : g.attrib.encrypt = .tkip) (hb : g.attrib.bdecrypted = false)
    (hv : g.attrib.iv_len = 8) (hn : g.head + 4 ≤ g.len) (hi : g.head + i + cs.length ≤ g.len)
    (hc : cs.length ≤ 4) (hne : cs ≠ List.replicate cs.length 0)
    (hacc : decryptor sec stainfo stale g ≠ none) :
    decryptor sec stainfo stale (changed g (burst g i cs)) = none := by
  have hacc' := (decryptor_tkip he hb).mp (Option.isSome_iff_ne_none.mpr hacc)
  rw [← Option.not_isSome_iff_eq_none, decryptor_tkip (g := changed g _) he hb,
    keyed_changed hv (by omega)]
  exact fun h => hne ((tkip_burst (g := keyed g) he hv hn hi hc hacc').mp h)

def tkipAttrib : PktAttrib :=
  { encrypt := .tkip, bswenc := true, hdrlen := 24, iv_len := 8, icv_len := 4, nr_frags := 2
    last_txcmdsz := 39, qos_en := false, priority := 0, ra := [2], ta := [1, 2, 3, 4, 5, 6]
    dot118021x_UncstKey := List.replicate 16 7, dot11tkiptxmickey := List.replicate 16 5 }

def noGroupKey : SecurityPriv :=
  { dot11PrivacyKeyIndex := 0, dot11DefKey := fun _ => [], dot11DefKeylen := fun _ => 0
    dot118021XGrpKeyid := 0, dot118021XGrpKey := fun _ => [], dot118021XGrptxmickey := fun _ => []
    dot118021XGrprxmickey := fun _ => [], binstallGrpkey := false }

def tkipRx : RxPktAttrib :=
  { encrypt := .tkip, privacy := true, bdecrypted := false, hdrlen := 24, iv_len := 8, icv_len := 4
    key_index := 0, priority := 0, frag_num := 1, mfrag := false, ra := [2]
    ta := [1, 2, 3, 4, 5, 6] }

def tkipSta : StaInfo := ⟨List.replicate 16 7, List.replicate 16 5⟩

def counting : Mem := fun i => BitVec.ofNat 8 i

/-- Five bytes of payload under TKIP. -/
def tkipFrame : RecvFrame :=
  ⟨tkipRx, load (tkipFragment tkipAttrib (txKey tkipAttrib noGroupKey) (0, 5) counting) 0 41, 0⟩

theorem decryptor_burst_two :
    decryptor noGroupKey (some tkipSta) (fun _ => 0)
      (changed tkipFrame (burst tkipFrame 1 [1, 0x80])) = none :=
  decryptor_burst rfl rfl rfl (by decide) (by decide) (by decide) (by decide) fun h => by
    obtain ⟨g, hg, -⟩ : ∃ g, decryptor noGroupKey (some tkipSta) (fun _ => 0) tkipFrame = some g ∧
        Carried tkipAttrib counting (0, 5) tkipRx 0 g :=
      carried_tkip ⟨rfl, rfl, rfl, rfl, rfl⟩ (show rxTkipKey _ _ _ = some _ from rfl) rfl rfl rfl
    cases h.symm.trans hg

end

end Okm6ullOta.FrameProtection
