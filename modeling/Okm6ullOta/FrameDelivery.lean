import Okm6ullOta.FrameProtection
import Okm6ullOta.RxDefrag
import Mathlib.Data.List.Forall2

/-!
# From one driver to another

A frame goes through xmitframe_addmic and xmitframe_swencrypt, its fragments go through
decryptor and recvframe_chk_defrag of the receiver, and the text of the sender comes out in
one piece, without the integrity code.
-/
namespace Okm6ullOta.FrameDelivery
open Arc4 ByteMemory Michael XmitFrames RecvFrames FrameProtection RxDefrag

variable {a a' : PktAttrib} {sec sec' : SecurityPriv} {frag_len n pframe : ℕ} {m m' : Mem}
  {f : ℕ × ℕ} {fs : List (ℕ × ℕ)} {d : MicData} {s : StaInfo}

/-- The payloads of the fragments. -/
def texts (a : PktAttrib) (m : Mem) (fs : List (ℕ × ℕ)) : List Byte :=
  fs.flatMap fun f => load m (f.1 + (a.hdrlen + a.iv_len)) f.2

/-- Only the last fragment depends on the size of the last command. -/
theorem fragments_last (a : PktAttrib) (frag_len n pframe : ℕ) :
    ∃ init p, ∀ sz, fragments { a with last_txcmdsz := sz } frag_len (n + 1) pframe =
      init ++ [(p, sz - a.hdrlen - a.iv_len - a.icv_len)] := by
  induction n generalizing pframe with
  | zero => exact ⟨[], pframe, fun sz => rfl⟩
  | succ n ih =>
    obtain ⟨init, p, h⟩ := ih (rnd4 (pframe + frag_len))
    refine ⟨(pframe, frag_len - a.hdrlen - a.iv_len - a.icv_len) :: init, p, fun sz => ?_⟩
    rw [fragments, if_neg (Nat.succ_ne_zero n), h]
    rfl

@[simp] theorem fragments_length : (fragments a frag_len n pframe).length = n := by
  induction n generalizing pframe with
  | zero => rfl
  | succ n ih =>
    rw [fragments]
    split_ifs with h
    · rw [h]; rfl
    · rw [List.length_cons, ih]

theorem fragments_head : ∃ k fs, fragments a frag_len (n + 1) pframe = (pframe, k) :: fs := by
  rw [fragments]
  split_ifs
  · exact ⟨_, _, rfl⟩
  · exact ⟨_, _, rfl⟩

/-- xmitframe_addmic goes through the payloads of the fragments. -/
theorem addmicLoop_eq (hb : a.bswenc = true) (hs : a.overhead ≤ frag_len)
    {init : List (ℕ × ℕ)} {p k : ℕ}
    (h : fragments a frag_len (n + 1) (rnd4 pframe) = init ++ [(p, k)]) :
    addmicLoop a frag_len m (n + 1) pframe d =
      (rtwSecmicappend d (texts a m (init ++ [(p, k)])), p + (a.hdrlen + a.iv_len) + k) := by
  induction n generalizing pframe d init with
  | zero =>
    rw [fragments, if_pos rfl] at h
    obtain ⟨rfl, hp⟩ : [] = init ∧ [(rnd4 pframe, _)] = [(p, k)] := List.append_inj' h rfl
    obtain ⟨rfl, rfl⟩ := Prod.mk.inj (List.singleton_inj.mp hp)
    rw [addmicLoop, if_pos rfl, if_pos hb, Nat.add_assoc]
    simp [texts]
  | succ n ih =>
    rw [fragments, if_neg (Nat.succ_ne_zero n)] at h
    cases init with
    | nil => simpa using congrArg List.length h
    | cons g init =>
      obtain ⟨rfl, ht⟩ := List.cons.inj h
      have hnext : rnd4 pframe + a.hdrlen + a.iv_len +
        (frag_len - a.hdrlen - a.iv_len - a.icv_len) +
          a.icv_len = rnd4 pframe + frag_len := by
        simp only [PktAttrib.overhead] at hs
        omega
      rw [addmicLoop, if_neg (Nat.succ_ne_zero n)]
      simp only [hb, if_true, hnext]
      rw [ih ht, ← rtwSecmicappend_append, Nat.add_assoc (rnd4 pframe)]
      rfl

/-- What xmitframe_addmic puts behind the text. -/
def trailer (a : PktAttrib) (sec : SecurityPriv) (header text : List Byte) : List Byte :=
  if a.encrypt = .tkip then
    rtwSeccalctkipmic (txMicKey a sec) header text (if a.qos_en then a.priority else 0)
  else []

theorem rtwSecgetmic_length : (rtwSecgetmic d).1.length = 8 := by
  simp [rtwSecgetmic, secmicputuint32]

/-- The code is that of the whole text. -/
theorem addmic_eq (hb : a.bswenc = true) (hs : a.overhead ≤ frag_len) (hp : pframe % 4 = 0)
    (hn : a.nr_frags = n + 1) (ht : a.encrypt = .tkip) {init : List (ℕ × ℕ)} {p k : ℕ}
    (hf : fragments a frag_len (n + 1) pframe = init ++ [(p, k)])
    (h : xmitframeAddmic a frag_len sec pframe m = some (a', m')) :
    a' = { a with last_txcmdsz := a.last_txcmdsz + 8 } ∧
      m' = store m (p + (a.hdrlen + a.iv_len) + k)
        (trailer a sec (load m pframe 30) (texts a m (init ++ [(p, k)]))) := by
  rw [xmitframeAddmic, if_pos ht] at h
  by_cases hk : (txMicKey a sec).take 16 = List.replicate 16 0
  · rw [if_pos hk] at h
    cases h
  rw [if_neg hk] at h
  obtain ⟨ha, hm⟩ := Prod.mk.inj (Option.some.inj h)
  refine ⟨ha.symm, ?_⟩
  rw [← hm, hn, addmicLoop_eq hb hs (by rw [rnd4_of_dvd hp]; exact hf), trailer, if_pos ht]
  simp only [rtwSeccalctkipmic]

/-- Bytes are put behind the last payload. -/
theorem texts_store {init : List (ℕ × ℕ)} {p k : ℕ} {mic : List Byte}
    (hd : ∀ f ∈ init, f.1 + (f.2 + a.overhead) ≤ p) :
    texts a (store m (p + (a.hdrlen + a.iv_len) + k) mic) (init ++ [(p, k + mic.length)]) =
      texts a m (init ++ [(p, k)]) ++ mic := by
  have hi : texts a (store m (p + (a.hdrlen + a.iv_len) + k) mic) init = texts a m init :=
    List.flatMap_congr fun f hf => load_store_of_disjoint (.inl (by
      have := hd f hf
      simp only [PktAttrib.overhead] at this
      omega))
  have hl : load (store m (p + (a.hdrlen + a.iv_len) + k) mic) (p + (a.hdrlen + a.iv_len))
      (k + mic.length) = load m (p + (a.hdrlen + a.iv_len)) k ++ mic := by
    rw [load_add, load_store rfl, load_store_of_disjoint (.inl (Nat.le_refl _))]
  rw [texts, texts, List.flatMap_append, List.flatMap_append, ← texts, hi, texts]
  simp only [List.flatMap_cons, List.flatMap_nil, List.append_nil, hl, List.append_assoc]

/-- What xmitframe_swencrypt finds: the fragments of the text with the code behind it. -/
structure Prepared (a : PktAttrib) (sec : SecurityPriv) (frag_len pframe : ℕ) (m : Mem)
    (a' : PktAttrib)
    (m' : Mem) : Prop where
  attrib : ∃ sz, a.overhead ≤ sz ∧ a' = { a with last_txcmdsz := sz }
  text : texts a' m' (fragments a' frag_len a.nr_frags pframe) =
    texts a m (fragments a frag_len a.nr_frags pframe) ++ trailer a sec (load m pframe 30)
      (texts a m (fragments a frag_len a.nr_frags pframe))
  head : load m' pframe (a.hdrlen + a.iv_len) = load m pframe (a.hdrlen + a.iv_len)

theorem addmic_prepared (hb : a.bswenc = true) (hs : Sized a frag_len) (hp : pframe % 4 = 0)
    (hn : 0 < a.nr_frags) (h : xmitframeAddmic a frag_len sec pframe m = some (a', m')) :
    Prepared a sec frag_len pframe m a' m' := by
  by_cases ht : a.encrypt = .tkip
  · obtain ⟨n, hn'⟩ : ∃ n, a.nr_frags = n + 1 := ⟨_, (Nat.succ_pred_eq_of_pos hn).symm⟩
    obtain ⟨init, p, hlast⟩ := fragments_last a frag_len n pframe
    have hsz := hs.last_txcmdsz
    obtain ⟨k, hk⟩ : ∃ k, a.last_txcmdsz - a.hdrlen - a.iv_len - a.icv_len = k := ⟨_, rfl⟩
    have hk' : a.last_txcmdsz + 8 - a.hdrlen - a.iv_len - a.icv_len = k + 8 := by
      simp only [PktAttrib.overhead] at hsz
      omega
    have hf : fragments a frag_len (n + 1) pframe = init ++ [(p, k)] := hk ▸ hlast a.last_txcmdsz
    have hf' := hlast (a.last_txcmdsz + 8)
    rw [hk'] at hf'
    obtain ⟨rfl, rfl⟩ := addmic_eq hb hs.frag_len hp hn' ht hf h
    have hmic : (trailer a sec (load m pframe 30) (texts a m (init ++ [(p, k)]))).length = 8 := by
      rw [trailer, if_pos ht]
      exact rtwSecgetmic_length
    have hd : (fragments a frag_len (n + 1) pframe).Pairwise fun s t =>
      s.1 + (s.2 + a.overhead) ≤ t.1 :=
      fragments_apart hs.frag_len
    have hge : pframe ≤ p :=
      fragments_ge (f := (p, k))
        (by rw [hf]; exact List.mem_append_right _ (List.mem_singleton.mpr rfl))
    rw [hf] at hd
    refine ⟨⟨_, by omega, rfl⟩, ?_, load_store_of_disjoint (.inl (by omega))⟩
    rw [← hn'] at hf hf'
    rw [hf, hf', ← hmic]
    exact texts_store fun f hf =>
      (List.pairwise_append.mp hd).2.2 f hf _ (List.mem_singleton.mpr rfl)
  · rw [xmitframeAddmic, if_neg ht] at h
    obtain ⟨rfl, rfl⟩ := Prod.mk.inj (Option.some.inj h)
    exact ⟨⟨a.last_txcmdsz, hs.last_txcmdsz, rfl⟩, by rw [trailer, if_neg ht, List.append_nil], rfl⟩

section
variable {mickey head text tail : List Byte} {r : RecvFrame} {pri : Byte}

/-- The addresses stand in the first 30 bytes. -/
theorem pseudoHeader_append (h : 30 ≤ head.length) :
    pseudoHeader (head ++ tail) = pseudoHeader head := by
  have h₁ : (head ++ tail).getD 1 0 = head.getD 1 0 := by
    rw [List.getD_append _ _ _ _ (by omega)]
  have h₆ (i : ℕ) (hi : i ≤ 24) : ((head ++ tail).drop i).take 6 = (head.drop i).take 6 :=
    take_drop_append (by omega)
  simp only [pseudoHeader, h₁]
  rw [h₆ 4 (by decide), h₆ 10 (by decide), h₆ 16 (by decide), h₆ 24 (by decide)]

theorem tkipmic_append (h : 30 ≤ head.length) :
    rtwSeccalctkipmic mickey (head ++ tail) text pri = rtwSeccalctkipmic mickey head text pri := by
  rw [rtwSeccalctkipmic, pseudoHeader_append h, rtwSeccalctkipmic]

theorem trailer_head (h : a.encrypt = .tkip → 30 ≤ a.hdrlen + a.iv_len) :
    trailer a sec (load m pframe (a.hdrlen + a.iv_len)) text =
      trailer a sec (load m pframe 30) text := by
  by_cases ht : a.encrypt = .tkip
  · obtain ⟨j, hj⟩ := Nat.exists_eq_add_of_le (h ht)
    rw [trailer, if_pos ht, trailer, if_pos ht, hj, load_add, tkipmic_append (by simp)]
  · rw [trailer, if_neg ht, trailer, if_neg ht]

@[simp] theorem recvframePullTail_attrib (f : RecvFrame) (sz : ℕ) :
    (recvframePullTail f sz).attrib = f.attrib := by
  unfold recvframePullTail
  split_ifs <;> rfl

/-- The code behind the text is accepted, and both it and the ICV are taken off. -/
theorem chkmic_kept (ht : r.attrib.encrypt = .tkip) (hk : rxMicKey sec' s r.attrib = some mickey)
    (hl : r.attrib.icv_len ≤ r.len) (hh : head.length = r.head) (h30 : 30 ≤ head.length)
    (hr : kept r = head ++ (text ++ rtwSeccalctkipmic mickey head text r.attrib.priority)) :
    ∃ g, recvframeChkmic sec' (some s) r = (true, g) ∧ g.attrib = r.attrib ∧
      (recvframePullTail g g.attrib.icv_len).data = head ++ text := by
  obtain ⟨mic, hmic⟩ : ∃ mic, mic = rtwSeccalctkipmic mickey head text r.attrib.priority := ⟨_, rfl⟩
  have h8 : mic.length = 8 := hmic ▸ rtwSecgetmic_length
  obtain ⟨e, hd, he⟩ : ∃ e, r.data = head ++ (text ++ (mic ++ e)) ∧
    e.length = r.attrib.icv_len := by
    refine ⟨r.data.drop (r.len - r.attrib.icv_len), ?_, ?_⟩
    · rw [← List.append_assoc, ← List.append_assoc, List.append_assoc head, hmic, ← hr, kept,
        List.take_append_drop]
    · simp only [RecvFrame.len, List.length_drop] at hl ⊢
      omega
  have hlen : r.len = head.length + text.length + 8 + r.attrib.icv_len := by
    simp only [RecvFrame.len, hd, List.length_append, h8, he]
    omega
  have hmatch : micMatches mickey r = true := by
    have hn : r.len - r.attrib.hdrlen - r.attrib.iv_len - r.attrib.icv_len - 8 = text.length := by
      rw [RecvFrame.head] at hh
      omega
    simp only [micMatches, hn, ← hh]
    rw [hd, List.drop_left, List.take_left, List.drop_left, List.take_left' h8, tkipmic_append h30,
      ← hmic, decide_eq_true_eq]
  refine ⟨recvframePullTail r 8, by simp only [recvframeChkmic, ht, if_true, hk, hmatch],
    recvframePullTail_attrib r 8, ?_⟩
  have hp : recvframePullTail r 8 =
    { r with data := r.data.take (r.len - 8), room := r.room + 8 } :=
    if_neg (by omega)
  have hp' : (r.data.take (r.len - 8)).length = r.len - 8 := by simp [RecvFrame.len]
  rw [hp, recvframePullTail, RecvFrame.len, if_neg (by simp only [hp']; omega)]
  simp only [hp', List.take_take]
  rw [hd, ← List.append_assoc, List.take_left' (by rw [List.length_append]; omega)]

end

section
variable {stainfo : Option StaInfo} {q gs : List RecvFrame} {g : RecvFrame}
  {xs : List (Mem × RecvFrame)} {x : Mem × RecvFrame}

/-- Frames of one station come one behind the other; with each of them stands what the static
buffer holds. -/
def recvAll (sec : SecurityPriv) (stainfo : Option StaInfo) :
    Option (List RecvFrame) → List (Mem × RecvFrame) → List (Option RecvFrame)
  | _, [] => []
  | q, x :: xs =>
    let r := recvFuncPosthandle sec stainfo q x.1 x.2
    r.1 :: recvAll sec stainfo r.2 xs

theorem recvAll_last
    (h : List.Forall₂ (fun x g => decryptor sec stainfo x.1 x.2 = some g) xs gs)
    (hm : ∀ g ∈ gs, g.attrib.mfrag = true) (hx : decryptor sec stainfo x.1 x.2 = some g) :
    recvAll sec stainfo (some q) (xs ++ [x]) = List.replicate xs.length none ++
      [(recvframeChkDefrag sec stainfo (some (queueAfter q gs)) g).1] := by
  induction h generalizing q with
  | nil => simp [recvAll, recvFuncPosthandle, hx, queueAfter]
  | @cons y g' xs gs hy _ ih =>
    obtain ⟨hm', hms⟩ := List.forall_mem_cons.mp hm
    have hq : recvFuncPosthandle sec stainfo (some q) y.1 y.2 =
      (none, some (queueFragment q g').2) := by
      simp only [recvFuncPosthandle, hy, recvframeChkDefrag, queueFragment_mfrag hm']
    rw [List.cons_append, recvAll]
    simp only [hq]
    rw [ih hms]
    rfl

/-- The last fragment, or the only one, completes the frame. -/
theorem queueFragment_all (hm : ∀ g ∈ gs, g.attrib.mfrag = true) (hl : g.attrib.mfrag = false)
    (hn : Numbered 0 (gs ++ [g])) {g₀ : RecvFrame} {rest : List RecvFrame}
    (h : gs ++ [g] = g₀ :: rest) :
    (queueFragment (queueAfter q gs) g).1 = some (joined g₀ rest) := by
  cases gs with
  | nil =>
    obtain ⟨rfl, rfl⟩ := List.cons.inj h
    have hw : isFragment g = false := by simp [isFragment, hl, (numbered_cons.mp hn).1]
    rw [queueFragment_whole hw]
    rfl
  | cons first mids =>
    obtain ⟨rfl, rfl⟩ := List.cons.inj h
    have hlast : g.attrib.frag_num ≠ 0 := by
      have := (numbered_cons.mp (numbered_append.mp hn).2).1
      simp only [List.length_cons] at this
      omega
    rw [queueFragment_last hl hlast, queueAfter_first hm (numbered_append.mp hn).1]
    exact recvframeDefrag_some.mpr ⟨hn, rfl⟩

end

/-- A fragment on the air reaches the receiver as the next frame, with the attributes its header
has and with the keys of the sender. -/
structure Arrived (a : PktAttrib) (sec sec' : SecurityPriv) (s : StaInfo) (m sent : Mem) (f : ℕ × ℕ)
    (x : RecvFrame) : Prop where
  data : x.data = load sent f.1 (f.2 + a.overhead)
  meant : Meant a x.attrib
  icv_len : x.attrib.icv_len = a.icv_len
  privacy : x.attrib.privacy = true
  priority : x.attrib.priority = if a.qos_en then a.priority else 0
  keys : KeysAgree a sec sec' s (opened a m f x.attrib)
  mickey : a.encrypt = .tkip → rxMicKey sec' s (opened a m f x.attrib) = some (txMicKey a sec)

/-- What decryptor makes of a frame, as far as recvframe_chk_defrag looks at it. -/
structure Decrypted (sec : SecurityPriv) (s : StaInfo) (x : Mem × RecvFrame) (g : RecvFrame) :
    Prop where
  decryptor : RecvFrames.decryptor sec (some s) x.1 x.2 = some g
  frag_num : g.attrib.frag_num = x.2.attrib.frag_num
  mfrag : g.attrib.mfrag = x.2.attrib.mfrag
  room : g.room = x.2.room
  copied : (RxDefrag.copied g).length = (RxDefrag.copied x.2).length

/-- The frame holds the text of the fragment. -/
structure Held (a : PktAttrib) (sec sec' : SecurityPriv) (s : StaInfo) (m : Mem) (f : ℕ × ℕ)
    (g : RecvFrame) : Prop where
  kept : RxDefrag.kept g = load m f.1 (a.hdrlen + a.iv_len + f.2)
  whole : Whole g
  head : g.head = a.hdrlen + a.iv_len
  encrypt : g.attrib.encrypt = a.encrypt
  privacy : g.attrib.privacy = true
  priority : g.attrib.priority = if a.qos_en then a.priority else 0
  mickey : a.encrypt = .tkip → rxMicKey sec' s g.attrib = some (txMicKey a sec)

theorem Held.payload {g : RecvFrame} (h : Held a sec sec' s m f g) :
    RxDefrag.payload g = load m (f.1 + (a.hdrlen + a.iv_len)) f.2 := by
  rw [RxDefrag.payload, h.kept, h.head, load_add, List.drop_left' load_length]

theorem arrived_decrypted (hb : a.bswenc = true) (he : a.encrypt ≠ .none)
    (hl : (a.iv_len, a.icv_len) = iceIvLen a.encrypt) (hs : Sized a frag_len)
    (hm : ∀ f ∈ fragments a frag_len a.nr_frags pframe, Headed a f m)
    (hf : f ∈ fragments a frag_len a.nr_frags pframe)
    (hsz : a.encrypt = .aes → a.hdrlen + f.2 + 16 ≤ Ccmp.maxMsgSize) {x : Mem × RecvFrame}
    (hx : Arrived a sec sec' s m (xmitframeSwencrypt a frag_len sec pframe m) f x.2) :
    ∃ g, Decrypted sec' s x g ∧ Held a sec sec' s m f g := by
  obtain ⟨stale, rx, data, room⟩ := x
  obtain ⟨rfl, hrx, hicv, hp, hpri, hk, hmic⟩ := hx
  obtain ⟨g, hg, hc⟩ : ∃ g, decryptor sec' (some s) stale
      ⟨rx, load (xmitframeSwencrypt a frag_len sec pframe m) f.1 (f.2 + a.overhead), room⟩ =
        some g ∧ Carried a m f rx room g :=
    decryptor_swencrypt hb he hl hs hm hf hsz hrx hk
  have hh : g.head = a.hdrlen + a.iv_len := by
    rw [RecvFrame.head, hc.attrib, ← hrx.hdrlen, ← hrx.iv_len]
    rfl
  have hi : g.attrib.icv_len = a.icv_len := by rw [hc.attrib, ← hicv]; rfl
  have hlen : g.len = a.hdrlen + a.iv_len + f.2 + a.icv_len := by
    rw [hc.len, PktAttrib.overhead]
    omega
  refine ⟨g, ⟨hg, by rw [hc.attrib]; rfl, by rw [hc.attrib]; rfl, hc.room, ?_⟩,
    ⟨?_, ?_, hh, ?_, ?_, ?_, fun ht => ?_⟩⟩
  · have hx : RecvFrame.head ⟨rx, load (xmitframeSwencrypt a frag_len sec pframe m) f.1
        (f.2 + a.overhead), room⟩ = g.head := by
      rw [hh, RecvFrame.head, hrx.hdrlen, hrx.iv_len]
    rw [copied, copied, hx, List.length_drop, List.length_drop, load_length, ← hc.len,
      RecvFrame.len]
  · rw [kept, hlen, hi, Nat.add_sub_cancel, hc.text]
  · rw [Whole, hlen, hh, hi]
    omega
  · rw [hc.attrib]
    exact hrx.encrypt
  · rw [hc.attrib]
    exact hp
  · rw [hc.attrib]
    exact hpri
  · rw [hc.attrib]
    exact hmic ht

/-- Both relations hold step by step. -/
theorem exists_between {α β γ : Type*} {P : α → β → Prop} {R : β → γ → Prop} {H : α → γ → Prop}
    {l : List α} {l' : List β} (h : List.Forall₂ P l l')
    (hp : ∀ a ∈ l, ∀ b, P a b → ∃ c, R b c ∧ H a c) :
    ∃ cs, List.Forall₂ R l' cs ∧ List.Forall₂ H l cs := by
  induction h with
  | nil => exact ⟨[], .nil, .nil⟩
  | @cons a b l l' hab _ ih =>
    obtain ⟨hpa, hpl⟩ := List.forall_mem_cons.mp hp
    obtain ⟨c, hr, hh⟩ := hpa b hab
    obtain ⟨cs, hrs, hhs⟩ := ih hpl
    exact ⟨c :: cs, .cons hr hrs, .cons hh hhs⟩

theorem held_texts {gs : List RecvFrame} (h : List.Forall₂ (Held a sec sec' s m) fs gs) :
    gs.flatMap payload = texts a m fs ∧ ∀ g ∈ gs, Whole g := by
  induction h with
  | nil => exact ⟨rfl, by simp⟩
  | cons hh _ ih =>
    refine ⟨?_, List.forall_mem_cons.mpr ⟨hh.whole, ih.2⟩⟩
    rw [List.flatMap_cons, hh.payload, ih.1]
    rfl

theorem decrypted_copied {xs : List (Mem × RecvFrame)} {gs : List RecvFrame}
    (h : List.Forall₂ (Decrypted sec s) xs gs) :
    (gs.flatMap copied).length = (xs.flatMap fun x => copied x.2).length := by
  induction h with
  | nil => rfl
  | cons hh _ ih => simp only [List.flatMap_cons, List.length_append, hh.copied, ih]

theorem decrypted_map {xs : List (Mem × RecvFrame)} {gs : List RecvFrame}
    (h : List.Forall₂ (Decrypted sec s) xs gs) :
    gs.map (·.attrib.frag_num) = xs.map (·.2.attrib.frag_num) ∧
      gs.map (·.attrib.mfrag) = xs.map (·.2.attrib.mfrag) := by
  induction h with
  | nil => exact ⟨rfl, rfl⟩
  | cons hh _ ih =>
    simp only [List.map_cons, hh.frag_num, hh.mfrag, ih, and_self]

/-- The frame which is made of the fragments is handed on with the text of the sender. -/
theorem chkDefrag_joined (hiv : a.encrypt = .tkip → 30 ≤ a.hdrlen + a.iv_len) {g₀ r : RecvFrame}
    {head text : List Byte} (h₀ : Held a sec sec' s m f g₀) (hl : r.attrib.icv_len ≤ r.len)
    (ha : r.attrib = { g₀.attrib with icv_len := r.attrib.icv_len })
    (hh : head.length = a.hdrlen + a.iv_len)
    (hr : kept r = head ++ (text ++ trailer a sec head text)) :
    ∃ g, recvframeChkmic sec' (some s) r = (true, g) ∧ g.attrib = r.attrib ∧
      (recvframePullTail g g.attrib.icv_len).data = head ++ text := by
  by_cases ht : a.encrypt = .tkip
  · have hk : rxMicKey sec' s r.attrib = some (txMicKey a sec) := by
      rw [ha]
      exact h₀.mickey ht
    have hhead : head.length = r.head := by
      rw [hh, ← h₀.head, RecvFrame.head, RecvFrame.head, ha]
    refine chkmic_kept (by rw [ha]; exact h₀.encrypt.trans ht) hk hl hhead
      (by rw [hh]; exact hiv ht) ?_
    rw [hr, trailer, if_pos ht, ha]
    dsimp only
    rw [h₀.priority]
  · have he : r.attrib.encrypt ≠ .tkip := by
      rw [ha]
      exact fun h => ht (h₀.encrypt.symm.trans h)
    refine ⟨r, by rw [recvframeChkmic, if_neg he], rfl, ?_⟩
    rw [recvframePullTail, if_neg (by omega)]
    rw [trailer, if_neg ht, List.append_nil] at hr
    exact hr

theorem recvAll_joined {q rest : List RecvFrame} {g₀ : RecvFrame} {xs : List (Mem × RecvFrame)}
    (hd : List.Forall₂ (Decrypted sec s) xs (g₀ :: rest))
    (hnum : (g₀ :: rest).map (·.attrib.frag_num) = List.range (n + 1))
    (hmf : (g₀ :: rest).map (·.attrib.mfrag) = List.replicate n true ++ [false])
    (hp : (joined g₀ rest).attrib.privacy = true) :
    recvAll sec (some s) (some q) xs = List.replicate n none ++
      [let c := recvframeChkmic sec (some s) (joined g₀ rest)
       if c.1 then some c.2 else none] := by
  have hlen : (g₀ :: rest).length = n + 1 := by simpa using congrArg List.length hnum
  have hnumbered : Numbered 0 (g₀ :: rest) := by rw [Numbered, hnum, hlen, List.range_eq_range']
  obtain ⟨gi, gl, hg, hgi, hgl⟩ := List.map_eq_append_iff.mp hmf
  obtain ⟨g, rfl, hlast⟩ : ∃ g, gl = [g] ∧ g.attrib.mfrag = false := by
    obtain ⟨g, rfl⟩ : ∃ g, gl = [g] :=
      List.length_eq_one_iff.mp (by simpa using congrArg List.length hgl)
    exact ⟨g, rfl, by simpa using hgl⟩
  have hmi : ∀ g ∈ gi, g.attrib.mfrag = true := fun g hg =>
    List.eq_of_mem_replicate (by rw [← hgi]; exact List.mem_map_of_mem hg)
  have hq := queueFragment_all (q := q) hmi hlast (hg ▸ hnumbered) hg.symm
  rw [hg] at hd
  have hdi := List.forall₂_take_append _ _ _ hd
  obtain ⟨x, hx, hxg⟩ : ∃ x, xs.drop gi.length = [x] ∧ Decrypted sec s x g := by
    obtain ⟨x, l, hxg, hl, hx⟩ := List.forall₂_cons_right_iff.mp (List.forall₂_drop_append _ _ _ hd)
    rw [List.forall₂_nil_right_iff.mp hl] at hx
    exact ⟨x, hx, hxg⟩
  have hn : (xs.take gi.length).length = n := by
    have hgin : gi.length = n := by simpa using congrArg List.length hgi
    rw [hdi.length_eq, hgin]
  rw [← List.take_append_drop gi.length xs, hx,
    recvAll_last (hdi.imp fun _ _ h => h.decryptor) hmi hxg.decryptor, hn]
  simp only [recvframeChkDefrag, hq, hp, if_true]

/-- Fragments which stand where xmitframe_addmic and xmitframe_swencrypt go come one behind the
other, whatever is queued for the station: nothing is handed on before the last one, and then
the header and the text of the sender. -/
theorem fragments_delivered (a a' : PktAttrib) (sec : SecurityPriv)
    (frag_len pframe : ℕ) (m m' : Mem)
    (q : List RecvFrame) (xs : List (Mem × RecvFrame)) (hb : a.bswenc = true)
    (he : a.encrypt ≠ .none) (hl : (a.iv_len, a.icv_len) = iceIvLen a.encrypt)
    (hs : Sized a frag_len)
    (hh : Ccmp.wlanHdrA3Len ≤ a.hdrlen) (hp : pframe % 4 = 0) (hn : 0 < a.nr_frags)
    (hadd : xmitframeAddmic a frag_len sec pframe m = some (a', m'))
    (hm : ∀ f ∈ fragments a' frag_len a'.nr_frags pframe, Headed a' f m')
    (hsz : a.encrypt = .aes → ∀ f ∈ fragments a' frag_len a'.nr_frags pframe,
      a.hdrlen + f.2 + 16 ≤ Ccmp.maxMsgSize)
    (hx : List.Forall₂ (fun f x => Arrived a' sec sec' s m'
      (xmitframeSwencrypt a' frag_len sec pframe m') f x.2)
        (fragments a' frag_len a'.nr_frags pframe) xs)
    (hnum : xs.map (·.2.attrib.frag_num) = List.range a.nr_frags)
    (hmf : xs.map (·.2.attrib.mfrag) = List.replicate (a.nr_frags - 1) true ++ [false])
    (hroom : ∀ x ∈ xs.head?, (xs.tail.flatMap fun x => copied x.2).length ≤ x.2.room) :
    ∃ g, recvAll sec' (some s) (some q) xs = List.replicate (a.nr_frags - 1) none ++ [some g] ∧
      g.head = a.hdrlen + a.iv_len ∧ g.attrib.encrypt = a.encrypt ∧
      (recvframePullTail g g.attrib.icv_len).data = load m pframe (a.hdrlen + a.iv_len) ++
        texts a m (fragments a frag_len a.nr_frags pframe) := by
  obtain ⟨⟨sz, hsz', rfl⟩, htext, hhead⟩ := addmic_prepared hb hs hp hn hadd
  have hs' : Sized { a with last_txcmdsz := sz } frag_len := ⟨hs.frag_len, hsz'⟩
  obtain ⟨gs, hd, hheld⟩ := exists_between hx fun f hf x hx =>
    arrived_decrypted (a := { a with last_txcmdsz := sz }) hb he hl hs' hm hf
      (fun h => hsz h f hf) hx
  have hiv : a.encrypt = .tkip → 30 ≤ a.hdrlen + a.iv_len := fun ht => by
    rw [ht] at hl
    have hv : a.iv_len = 8 := congrArg Prod.fst hl
    unfold Ccmp.wlanHdrA3Len at hh
    omega
  obtain ⟨hgnum, hgmf⟩ := decrypted_map hd
  obtain ⟨n, hn'⟩ : ∃ n, a.nr_frags = n + 1 := ⟨_, (Nat.succ_pred_eq_of_pos hn).symm⟩
  rw [hnum, hn'] at hgnum
  rw [hmf, hn', Nat.add_sub_cancel] at hgmf
  obtain ⟨k, fs, hf⟩ : ∃ k fs, fragments { a with last_txcmdsz := sz } frag_len a.nr_frags pframe =
      (pframe, k) :: fs := by rw [hn']; exact fragments_head
  rw [hf] at hx hheld htext
  obtain ⟨g₀, rest, h₀, hrest, rfl⟩ := List.forall₂_cons_left_iff.mp hheld
  obtain ⟨x₀, xs, hx₀, hxs, rfl⟩ := List.forall₂_cons_right_iff.mp hd
  obtain ⟨htexts, hwhole⟩ := held_texts hrest
  have hr : (rest.flatMap copied).length ≤ g₀.room := by
    rw [decrypted_copied hxs, hx₀.room]
    exact hroom x₀ rfl
  have hw₀ := h₀.whole
  obtain ⟨hkept, hattrib, hicv⟩ := joined_eq (Nat.le_trans (Nat.le_add_left _ _) hw₀) hwhole hr
  have hkept' : kept (joined g₀ rest) = load m pframe (a.hdrlen + a.iv_len) ++
      (texts a m (fragments a frag_len a.nr_frags pframe) ++ trailer a sec
        (load m pframe (a.hdrlen + a.iv_len))
          (texts a m (fragments a frag_len a.nr_frags pframe))) := by
    have htext₀ : texts { a with last_txcmdsz := sz } m' ((pframe, k) :: fs) =
        load m' (pframe + (a.hdrlen + a.iv_len)) k ++
          texts { a with last_txcmdsz := sz } m' fs := rfl
    rw [htext₀] at htext
    rw [hkept, htexts, h₀.kept, load_add, hhead, List.append_assoc, htext, trailer_head hiv]
  obtain ⟨g, hc, hga, hg⟩ :=
    chkDefrag_joined (a := { a with last_txcmdsz := sz }) hiv h₀ hicv hattrib
    load_length hkept'
  refine ⟨g, ?_, ?_, ?_, hg⟩
  · rw [recvAll_joined hd hgnum hgmf (by rw [hattrib]; exact h₀.privacy), hn',
      Nat.add_sub_cancel, hc]
    rfl
  · rw [RecvFrame.head, hga, hattrib]
    exact h₀.head
  · rw [hga, hattrib]
    exact h₀.encrypt

end Okm6ullOta.FrameDelivery
