import Okm6ullOta.EfuseWrite

/-!
# Writing a range of the efuse map

`rtw_efuse_map_write` compares the map with what it is asked to hold, section by section,
and writes one packet for each section which differs. It first counts the bytes these
packets take, and does nothing when they do not fit.
-/
namespace Okm6ullOta.EfuseMapWrite
open LabelledRuns EfuseMap EfuseLog EfuseLog.Packet EfuseWrite

def isAddressMasked (mask : List (BitVec 8)) (offset : ℕ) : Bool :=
  let r := offset / 16
  let c := offset % 16 / 2
  !(mask.getD r 0).getLsbD (if c < 4 then 4 + c else c - 4)

def arrayMp8723dMusb : List (BitVec 8) :=
  [0xFF, 0xF3, 0x00, 0x0E, 0x70, 0x00, 0x00, 0x00, 0x00, 0x00, 0x00, 0x07, 0xF3, 0x00, 0x00, 0x00,
   0xFF, 0xFF, 0xFF, 0xFF, 0xB0, 0x00, 0x00, 0x00, 0x00, 0x00, 0x00, 0x00, 0x00, 0x00, 0x00, 0x00]

structure RegistryPriv where
  boffefusemask : Bool
  bFileMaskEfuse : Bool
  maskfileBuffer : List (BitVec 8)

def RegistryPriv.masked (reg : RegistryPriv) (offset : ℕ) : Bool :=
  !reg.boffefusemask &&
    isAddressMasked (if reg.bFileMaskEfuse then reg.maskfileBuffer else arrayMp8723dMusb) offset

/-- The buffer `efuse`: the map with the data over it, but for the masked bytes. -/
def RegistryPriv.over (reg : RegistryPriv) (map : Bytes) (addr : ℕ) (data : List (BitVec 8)) :
    Bytes :=
  fun x =>
    if addr ≤ x ∧ x < addr + data.length ∧ ¬ reg.masked x then data.getD (x - addr) 0 else map x

structure Differing where
  idx : ℕ
  wordEn : BitVec 8
  newdata : Bytes

/-- One turn of the inner loop of both passes. -/
def compareByte (efuse map : Bytes) (addr cnts : ℕ) (s : Differing) (i : ℕ) : Differing :=
  if s.idx < cnts then
    if efuse (addr + s.idx) ≠ map (addr + s.idx) then
      { idx := s.idx + 1
        wordEn := s.wordEn &&& ~~~(1#8 <<< (i / 2))
        newdata := Function.update s.newdata i (efuse (addr + s.idx)) }
    else { s with idx := s.idx + 1 }
  else s

def compareSection (efuse map : Bytes) (addr cnts offset idx : ℕ) : Differing :=
  let j := (addr + idx) % 8
  (List.range' j (pgpktDataSize - j)).foldl (compareByte efuse map addr cnts)
    ⟨idx, 0xF, fun i => map (offset * 8 + i)⟩

/-- The first pass: `chk_total_byte`. Every turn takes a byte at least. -/
def checkTotalByte (efuse map : Bytes) (addr cnts : ℕ) : ℕ → ℕ → ℕ → ℕ
  | 0, _, _ => 0
  | turns + 1, offset, idx =>
    if idx < cnts then
      let s := compareSection efuse map addr cnts offset idx
      (if s.wordEn ≠ 0xF then
          efuseCalculateWordCnts s.wordEn * 2 + (if offset ≥ efuseMaxSectionBase then 2 else 1)
        else 0) + checkTotalByte efuse map addr cnts turns (offset + 1) s.idx
    else 0

section
variable (burn : Burn)

/-- The second pass. -/
def writeSections (efuse map : Bytes) (addr cnts : ℕ) : ℕ → ℕ → ℕ → Chip → Bool × Chip
  | 0, _, _, c => (true, c)
  | turns + 1, offset, idx, c =>
    if idx < cnts then
      let s := compareSection efuse map addr cnts offset idx
      if s.wordEn ≠ 0xF then
        let r := halEfusePgPacketWrite burn c (BitVec.ofNat 8 offset) s.wordEn s.newdata
        if r.1 then writeSections efuse map addr cnts turns (offset + 1) s.idx r.2 else (false, r.2)
      else writeSections efuse map addr cnts turns (offset + 1) s.idx c
    else (true, c)

def rtwEfuseMapRead (c : Chip) (addr cnts : ℕ) : Option (List (BitVec 8) × Chip) :=
  if addr + cnts > efuseMapLen then none
  else (halReadEfuseWifi c.fuses addr cnts).map fun r => (r.1, { c with efuseBytes := r.2 })

def rtwEfuseMapWrite (reg : RegistryPriv) (c : Chip) (addr : ℕ) (data : List (BitVec 8)) :
    Bool × Chip :=
  let cnts := data.length
  if addr + cnts > efuseMapLen then (false, c)
  else match rtwEfuseMapRead c 0 efuseMapLen with
    | none => (false, c)
    | some (bytes, c) =>
      let map := fun x => bytes.getD x 0xFF
      let efuse := reg.over map addr data
      let total := checkTotalByte efuse map addr cnts cnts (addr / 8) 0
      let start := if c.efuseBytes = 0 then efuseGetCurrentSize c else (c.efuseBytes, c)
      if start.1 + total ≥ availableEfuseBytes then (false, start.2)
      else writeSections burn efuse map addr cnts cnts (addr / 8) 0 start.2

end

variable {efuse map : Bytes} {addr cnts offset idx : ℕ}

/-- The state of the inner loop after `k` bytes from byte `j` of the section on. -/
structure Compared (efuse map : Bytes) (cnts offset idx j k : ℕ) (s : Differing) : Prop where
  idx_eq : s.idx = min cnts (idx + k)
  narrow : s.wordEn.toNat < 16
  enabled_iff : ∀ w < 4, enabled s.wordEn w = true ↔
    ∃ i, j ≤ i ∧ i < j + k ∧ i / 2 = w ∧ idx + (i - j) < cnts ∧
      efuse (offset * 8 + i) ≠ map (offset * 8 + i)
  newdata : ∀ i, s.newdata i =
    if j ≤ i ∧ i < j + k ∧ idx + (i - j) < cnts then efuse (offset * 8 + i)
    else map (offset * 8 + i)

theorem enabled_clear {b : BitVec 8} {i w : ℕ} (hw : w < 4) :
    enabled (b &&& ~~~(1#8 <<< i)) w = (enabled b w || decide (w = i)) := by
  have h8 : w < 8 := by omega
  simp only [enabled, BitVec.getLsbD_and, BitVec.getLsbD_not, BitVec.getLsbD_shiftLeft,
    BitVec.getLsbD_one, h8, decide_true, Bool.true_and]
  rcases Nat.lt_trichotomy w i with h | rfl | h
  · simp [h, Nat.ne_of_lt h]
  · simp
  · have : w - i ≠ 0 := by omega
    simp [this, Nat.ne_of_gt h]

variable {j k : ℕ} {s : Differing}

theorem Compared.start (hi : idx ≤ cnts) :
    Compared efuse map cnts offset idx j 0 ⟨idx, 0xF, fun i => map (offset * 8 + i)⟩ where
  idx_eq := by simp [hi]
  narrow := show (0xF : BitVec 8).toNat < 16 by decide
  enabled_iff := fun w hw => by
    constructor
    · intro h
      have hall : ∀ w < 4, enabled 0xF w = false := by decide
      exact absurd (h.symm.trans (hall w hw)) Bool.true_eq_false.mp
    · rintro ⟨i, h₁, h₂, -⟩
      omega
  newdata := fun i => (if_neg (by omega)).symm

theorem Compared.step (h : Compared efuse map cnts offset idx j k s)
    (ha : addr + idx = offset * 8 + j) :
    Compared efuse map cnts offset idx j (k + 1) (compareByte efuse map addr cnts s (j + k)) := by
  obtain ⟨h₁, h₂, h₃, h₄⟩ := h
  unfold compareByte
  by_cases hc : s.idx < cnts
  · have hidx : s.idx = idx + k := by omega
    have hx : addr + s.idx = offset * 8 + (j + k) := by omega
    rw [if_pos hc, hx]
    by_cases hd : efuse (offset * 8 + (j + k)) ≠ map (offset * 8 + (j + k))
    · rw [if_pos hd]
      refine ⟨by simp only; omega, Nat.lt_of_le_of_lt Nat.and_le_left h₂,
        fun w hw => ?_, fun i => ?_⟩
      · rw [enabled_clear hw, Bool.or_eq_true, h₃ w hw, decide_eq_true_eq]
        constructor
        · rintro (⟨i, hi₁, hi₂, hi⟩ | rfl)
          · exact ⟨i, hi₁, by omega, hi⟩
          · exact ⟨j + k, by omega, by omega, rfl, by omega, hd⟩
        · rintro ⟨i, hi₁, hi₂, hi₃, hi⟩
          rcases Nat.lt_or_ge i (j + k) with hlt | hge
          · exact .inl ⟨i, hi₁, hlt, hi₃, hi⟩
          · exact .inr (by rw [← hi₃, show i = j + k by omega])
      · simp only
        by_cases hi : i = j + k
        · rw [hi, Function.update_self, if_pos (by omega)]
        · rw [Function.update_of_ne hi, h₄]
          exact if_congr (by omega) rfl rfl
    · rw [if_neg hd]
      rw [not_not] at hd
      refine ⟨by simp only; omega, h₂, fun w hw => ?_, fun i => ?_⟩
      · rw [h₃ w hw]
        constructor
        · rintro ⟨i, hi₁, hi₂, hi⟩
          exact ⟨i, hi₁, by omega, hi⟩
        · rintro ⟨i, hi₁, hi₂, hi₃, hi₄, hi⟩
          refine ⟨i, hi₁, ?_, hi₃, hi₄, hi⟩
          have : i ≠ j + k := fun he => hi (he ▸ hd)
          omega
      · simp only
        rw [h₄]
        by_cases hi : i = j + k
        · rw [hi, hd, ite_self, ite_self]
        · exact if_congr (by omega) rfl rfl
  · rw [if_neg hc]
    refine ⟨by omega, h₂, fun w hw => ?_, fun i => ?_⟩
    · rw [h₃ w hw]
      constructor
      · rintro ⟨i, hi₁, hi₂, hi⟩
        exact ⟨i, hi₁, by omega, hi⟩
      · rintro ⟨i, hi₁, hi₂, hi₃, hi₄, hi⟩
        exact ⟨i, hi₁, by omega, hi₃, hi₄, hi⟩
    · rw [h₄]
      exact if_congr (by omega) rfl rfl

theorem compared (efuse map : Bytes) (hi : idx ≤ cnts) (ha : addr + idx = offset * 8 + j) (k : ℕ) :
    Compared efuse map cnts offset idx j k
      ((List.range' j k).foldl (compareByte efuse map addr cnts)
        ⟨idx, 0xF, fun i => map (offset * 8 + i)⟩) := by
  induction k with
  | zero => exact .start hi
  | succ k ih =>
    rw [List.range'_1_concat, List.foldl_append]
    exact ih.step ha

/-- Outside the range which is written the two maps are the same. -/
def Outside (efuse map : Bytes) (addr cnts : ℕ) : Prop :=
  ∀ x, x < addr ∨ addr + cnts ≤ x → efuse x = map x

/-- A turn of the outer loops stands at the start of the range or at the start of a section. -/
structure Place (addr offset idx : ℕ) : Prop where
  section_eq : (addr + idx) / 8 = offset
  aligned : idx = 0 ∨ (addr + idx) % 8 = 0

/-- The comparison of a section finds all its words which differ, and the data to write are
the section as it is to be. -/
theorem compareSection_spec (ho : Outside efuse map addr cnts) (hi : idx < cnts)
    (hp : Place addr offset idx) :
    let s := compareSection efuse map addr cnts offset idx
    s.idx = min cnts (idx + (8 - (addr + idx) % 8)) ∧ s.wordEn.toNat < 16 ∧
      (∀ w < 4, enabled s.wordEn w = true ↔
        ∃ i < 8, i / 2 = w ∧ efuse (offset * 8 + i) ≠ map (offset * 8 + i)) ∧
      ∀ i < 8, s.newdata i = efuse (offset * 8 + i) := by
  obtain ⟨hsec, hal⟩ := hp
  have hj := Nat.mod_lt (addr + idx) (show 0 < 8 by decide)
  obtain ⟨h₁, h₂, h₃, h₄⟩ := compared efuse map (Nat.le_of_lt hi)
    (show addr + idx = offset * 8 + (addr + idx) % 8 by omega) (pgpktDataSize - (addr + idx) % 8)
  have hpg : pgpktDataSize = 8 := rfl
  have hinside : ∀ i < 8, efuse (offset * 8 + i) ≠ map (offset * 8 + i) →
      (addr + idx) % 8 ≤ i ∧ idx + (i - (addr + idx) % 8) < cnts := by
    intro i h8 hd
    have hx : ¬ (offset * 8 + i < addr ∨ addr + cnts ≤ offset * 8 + i) := fun hx => hd (ho _ hx)
    omega
  refine ⟨h₁, h₂, fun w hw => (h₃ w hw).trans ⟨?_, ?_⟩, fun i h8 => (h₄ i).trans ?_⟩
  · rintro ⟨i, hi₁, hi₂, hi₃, -, hd⟩
    exact ⟨i, by omega, hi₃, hd⟩
  · rintro ⟨i, h8, hw, hd⟩
    obtain ⟨hji, hlt⟩ := hinside i h8 hd
    exact ⟨i, hji, by omega, hw, hlt, hd⟩
  · by_cases hd : efuse (offset * 8 + i) ≠ map (offset * 8 + i)
    · obtain ⟨hji, hlt⟩ := hinside i h8 hd
      exact if_pos ⟨hji, by omega, hlt⟩
    · rw [not_not] at hd
      rw [hd, ite_self]

theorem wordEn_full {b : BitVec 8} (hb : b.toNat < 16) :
    b = 0xF ↔ ∀ w < 4, enabled b w = false := by
  have hall : ∀ n < 16, BitVec.ofNat 8 n = 0xF ↔ ∀ w < 4, enabled (BitVec.ofNat 8 n) w = false := by
    decide
  have h := hall b.toNat hb
  rwa [BitVec.ofNat_toNat, BitVec.setWidth_eq] at h

/-- A section without words which differ is the same in both maps. -/
theorem section_same (ho : Outside efuse map addr cnts) (hi : idx < cnts)
    (hp : Place addr offset idx) :
    (compareSection efuse map addr cnts offset idx).wordEn = 0xF ↔
      ∀ x, x / 8 = offset → efuse x = map x := by
  obtain ⟨-, hn, he, -⟩ := compareSection_spec ho hi hp
  rw [wordEn_full hn]
  constructor
  · intro h x hx
    have hd := (he (x % 8 / 2) (by omega)).not.mp (by rw [h _ (by omega)]; decide)
    by_contra hne
    exact hd ⟨x % 8, by omega, rfl, by rwa [show offset * 8 + x % 8 = x by omega]⟩
  · intro h w hw
    rw [← Bool.not_eq_true, he w hw]
    rintro ⟨i, h8, -, hd⟩
    exact hd (h _ (by omega))

/-- The packet of a section which differs. -/
def sectionPacket (efuse map : Bytes) (addr cnts offset idx : ℕ) (ho : offset < 64)
    (hw : (compareSection efuse map addr cnts offset idx).wordEn.toNat < 15) : Packet where
  offset := BitVec.ofNat 8 offset
  wordEn := (compareSection efuse map addr cnts offset idx).wordEn
  data := (compareSection efuse map addr cnts offset idx).newdata
  offset_lt := by
    rw [BitVec.toNat_ofNat, Nat.mod_eq_of_lt (by omega)]
    exact ho
  wordEn_lt := hw

theorem sectionPacket_lay (ho : Outside efuse map addr cnts) (hi : idx < cnts)
    (hp : Place addr offset idx) (h64 : offset < 64)
    (hw : (compareSection efuse map addr cnts offset idx).wordEn.toNat < 15) {tbl : Bytes}
    (ht : ∀ x, x / 8 = offset → tbl x = map x) (x : ℕ) :
    (sectionPacket efuse map addr cnts offset idx h64 hw).lay tbl x =
      if x / 8 = offset then efuse x else tbl x := by
  obtain ⟨-, -, he, hd⟩ := compareSection_spec ho hi hp
  unfold Packet.lay sectionPacket
  simp only [BitVec.toNat_ofNat]
  rw [Nat.mod_eq_of_lt (show offset < 2 ^ 8 by omega)]
  by_cases hx : x / 8 = offset
  · have hx' : offset * 8 + x % 8 = x := by omega
    rw [if_pos hx]
    by_cases hen : enabled (compareSection efuse map addr cnts offset idx).wordEn (x % 8 / 2) = true
    · rw [if_pos ⟨hx, hen⟩, hd _ (by omega), hx']
    · rw [if_neg (fun h => hen h.2), ht x hx]
      rw [he _ (by omega)] at hen
      by_contra hne
      exact hen ⟨x % 8, by omega, rfl, by rw [hx']; exact fun h => hne h.symm⟩
  · rw [if_neg hx, if_neg (fun h => hx h.1)]

/-- What a turn of the outer loops finds: everything before its section is as it is to be,
the section and what follows as it was. -/
structure At (efuse map : Bytes) (addr cnts offset idx : ℕ) (tbl : Bytes) : Prop where
  place : idx < cnts → Place addr offset idx
  rest : cnts ≤ idx → ∀ x, offset ≤ x / 8 → efuse x = map x
  table : ∀ x, tbl x = if x / 8 < offset then efuse x else map x

theorem At.start (ho : Outside efuse map addr cnts) : At efuse map addr cnts (addr / 8) 0 map where
  place := fun _ => ⟨rfl, .inl rfl⟩
  rest := fun hc x _ => ho x (by omega)
  table := fun x => by
    split_ifs with hx
    · exact (ho x (.inl (by omega))).symm
    · rfl

theorem At.next {tbl tbl' : Bytes} (h : At efuse map addr cnts offset idx tbl)
    (ho : Outside efuse map addr cnts) (hi : idx < cnts)
    (ht : ∀ x, tbl' x = if x / 8 = offset then efuse x else tbl x) :
    At efuse map addr cnts (offset + 1)
      (compareSection efuse map addr cnts offset idx).idx tbl' := by
  have hp := h.place hi
  obtain ⟨hidx, -⟩ := compareSection_spec ho hi hp
  obtain ⟨hsec, hal⟩ := hp
  rw [hidx]
  refine ⟨fun hlt => ⟨by omega, .inr (by omega)⟩,
    fun hle x hx => ho x (.inr (by omega)), fun x => ?_⟩
  rw [ht, h.table]
  split_ifs <;> first | rfl | omega

theorem At.done {tbl : Bytes} (h : At efuse map addr cnts offset idx tbl) (hi : cnts ≤ idx) :
    tbl = efuse := by
  funext x
  rw [h.table]
  split_ifs with hx
  · rfl
  · exact (h.rest hi x (by omega)).symm

def wordDiffers (old new : Bytes) (o w : ℕ) : Bool :=
  decide (new (o * 8 + 2 * w) ≠ old (o * 8 + 2 * w) ∨
    new (o * 8 + (2 * w + 1)) ≠ old (o * 8 + (2 * w + 1)))

/-- The bytes the packet of a section takes: none when no word of it changes. -/
def sectionCost (old new : Bytes) (o : ℕ) : ℕ :=
  let words := (List.range 4).countP (wordDiffers old new o)
  if words = 0 then 0 else words * 2 + if o ≥ 16 then 2 else 1

/-- The bytes of `n` sections. -/
def sectionsCost (old new : Bytes) : ℕ → ℕ → ℕ
  | _, 0 => 0
  | o, n + 1 => sectionCost old new o + sectionsCost old new (o + 1) n

/-- The bytes it takes to bring one map to another. -/
def mapCost (old new : Bytes) : ℕ := sectionsCost old new 0 64

theorem sectionCost_same {old new : Bytes} {o : ℕ} (h : ∀ x, x / 8 = o → new x = old x) :
    sectionCost old new o = 0 := by
  have hw : (List.range 4).countP (wordDiffers old new o) = 0 := by
    rw [List.countP_eq_zero]
    intro w hw
    rw [List.mem_range] at hw
    simp only [wordDiffers, decide_eq_true_eq, not_or, not_not]
    exact ⟨h _ (by omega), h _ (by omega)⟩
  rw [sectionCost, hw]
  rfl

theorem wordCnts_countP {b : BitVec 8} {P : ℕ → Bool} (h : ∀ w < 4, enabled b w = P w) :
    efuseCalculateWordCnts b = (List.range 4).countP P := by
  rw [efuseCalculateWordCnts, h 0 (by decide), h 1 (by decide), h 2 (by decide), h 3 (by decide),
    show List.range 4 = [0, 1, 2, 3] from rfl]
  simp only [List.countP_cons, List.countP_nil]
  cases P 0 <;> cases P 1 <;> cases P 2 <;> cases P 3 <;> rfl

/-- What the first pass adds for a section. -/
theorem sectionCost_eq (ho : Outside efuse map addr cnts) (hi : idx < cnts)
    (hp : Place addr offset idx) :
    sectionCost map efuse offset =
      if (compareSection efuse map addr cnts offset idx).wordEn ≠ 0xF then
        efuseCalculateWordCnts (compareSection efuse map addr cnts offset idx).wordEn * 2 +
          (if offset ≥ efuseMaxSectionBase then 2 else 1)
      else 0 := by
  have hsame := section_same ho hi hp
  obtain ⟨-, hn, he, -⟩ := compareSection_spec ho hi hp
  generalize (compareSection efuse map addr cnts offset idx).wordEn = b at hsame hn he ⊢
  have hP : ∀ w < 4, enabled b w = wordDiffers map efuse offset w := fun w hw => by
    rw [Bool.eq_iff_iff, he w hw, wordDiffers, decide_eq_true_eq]
    constructor
    · rintro ⟨i, h8, hiw, hd⟩
      rcases (by omega : i = 2 * w ∨ i = 2 * w + 1) with rfl | rfl
      · exact .inl hd
      · exact .inr hd
    · rintro (hd | hd)
      · exact ⟨2 * w, by omega, by omega, hd⟩
      · exact ⟨2 * w + 1, by omega, by omega, hd⟩
  have hcnt := wordCnts_countP hP
  by_cases hb : b = 0xF
  · rw [if_neg (not_not.mpr hb), sectionCost_same (hsame.mp hb)]
  · rw [if_pos hb, sectionCost, ← hcnt]
    refine if_neg fun h0 => hb ((wordEn_full hn).mpr fun w hw => ?_)
    rw [hcnt, List.countP_eq_zero] at h0
    rw [hP w hw]
    exact Bool.eq_false_iff.mpr (h0 w (List.mem_range.mpr hw))

theorem sections_same {old new : Bytes} {o n : ℕ}
    (h : ∀ x, o ≤ x / 8 → x / 8 < o + n → new x = old x) :
    sectionsCost old new o n = 0 := by
  induction n generalizing o with
  | zero => rfl
  | succ n ih =>
    rw [sectionsCost, ih fun x h₁ h₂ => h x (by omega) (by omega),
      sectionCost_same fun x hx => h x (by omega) (by omega)]

theorem sectionsCost_add (old new : Bytes) (o n k : ℕ) :
    sectionsCost old new o (n + k) = sectionsCost old new o n + sectionsCost old new (o + n) k := by
  induction n generalizing o with
  | zero => rw [Nat.zero_add, sectionsCost, Nat.zero_add, Nat.add_zero]
  | succ n ih =>
    rw [show n + 1 + k = n + k + 1 by omega, sectionsCost, sectionsCost, ih,
      show o + 1 + n = o + (n + 1) by omega, Nat.add_assoc]

theorem checkTotalByte_eq {turns : ℕ} {tbl : Bytes} (h : At efuse map addr cnts offset idx tbl)
    (ho : Outside efuse map addr cnts) (hend : addr + cnts ≤ 512) (ht : cnts ≤ idx + turns) :
    checkTotalByte efuse map addr cnts turns offset idx =
      sectionsCost map efuse offset (64 - offset) := by
  induction turns generalizing offset idx tbl with
  | zero => exact (sections_same fun x hx _ => h.rest (by omega) x hx).symm
  | succ turns ih =>
    rw [checkTotalByte]
    by_cases hi : idx < cnts
    · have hp := h.place hi
      obtain ⟨hidx, -⟩ := compareSection_spec ho hi hp
      have hsec := hp.section_eq
      have hnext :=
        h.next ho hi fun x => show (if x / 8 = offset then efuse x else tbl x) = _ from rfl
      rw [if_pos hi, show 64 - offset = 64 - (offset + 1) + 1 by omega, sectionsCost,
        sectionCost_eq ho hi hp, ← ih hnext (by rw [hidx]; omega)]
    · rw [if_neg hi]
      exact (sections_same fun x hx _ => h.rest (by omega) x hx).symm

/-- The first pass counts what it takes to bring the map to what it is to be. -/
theorem checkTotalByte_cost (ho : Outside efuse map addr cnts) (hend : addr + cnts ≤ 512) :
    checkTotalByte efuse map addr cnts cnts (addr / 8) 0 = mapCost map efuse := by
  have hsplit := sectionsCost_add map efuse 0 (addr / 8) (64 - addr / 8)
  have hbefore : sectionsCost map efuse 0 (addr / 8) = 0 :=
    sections_same fun x _ hx => ho x (.inl (by omega))
  rw [Nat.add_sub_of_le (by omega), hbefore, Nat.zero_add, Nat.zero_add] at hsplit
  rw [checkTotalByte_eq (At.start ho) ho hend (by omega), mapCost, hsplit]

variable {burn : Burn} {c c' : Chip} {log : List Packet} {turns : ℕ}

theorem sectionPacket_cost (ho : Outside efuse map addr cnts) (hi : idx < cnts)
    (hp : Place addr offset idx) (h64 : offset < 64)
    (hw : (compareSection efuse map addr cnts offset idx).wordEn.toNat < 15)
    (hne : (compareSection efuse map addr cnts offset idx).wordEn ≠ 0xF) :
    (sectionPacket efuse map addr cnts offset idx h64 hw).encode.length =
      sectionCost map efuse offset := by
  rw [sectionCost_eq ho hi hp, if_pos hne, length_encode, length_headerBytes, sectionPacket]
  simp only [BitVec.toNat_ofNat]
  rw [Nat.mod_eq_of_lt (show offset < 2 ^ 8 by omega), Nat.add_comm]

theorem wordEn_lt_of_ne (ho : Outside efuse map addr cnts) (hi : idx < cnts)
    (hp : Place addr offset idx)
    (hne : (compareSection efuse map addr cnts offset idx).wordEn ≠ 0xF) :
    (compareSection efuse map addr cnts offset idx).wordEn.toNat < 15 := by
  obtain ⟨-, hn, -⟩ := compareSection_spec ho hi hp
  have h15 : (compareSection efuse map addr cnts offset idx).wordEn.toNat ≠ 15 := fun h =>
    hne (BitVec.eq_of_toNat_eq h)
  omega

theorem At.skip (h : At efuse map addr cnts offset idx (laid log fun _ => 0xFF))
    (ho : Outside efuse map addr cnts) (hi : idx < cnts)
    (he : (compareSection efuse map addr cnts offset idx).wordEn = 0xF) :
    At efuse map addr cnts (offset + 1) (compareSection efuse map addr cnts offset idx).idx
      (laid log fun _ => 0xFF) := by
  rw [section_same ho hi (h.place hi)] at he
  refine h.next ho hi fun x => ?_
  split_ifs with hx
  · rw [h.table, if_neg (by omega), he x hx]
  · rfl

theorem At.lay (h : At efuse map addr cnts offset idx (laid log fun _ => 0xFF))
    (ho : Outside efuse map addr cnts) (hi : idx < cnts) (h64 : offset < 64)
    (hw : (compareSection efuse map addr cnts offset idx).wordEn.toNat < 15) :
    At efuse map addr cnts (offset + 1) (compareSection efuse map addr cnts offset idx).idx
      (laid (log ++ [sectionPacket efuse map addr cnts offset idx h64 hw]) fun _ => 0xFF) := by
  refine h.next ho hi fun x => ?_
  rw [laid, List.foldl_append]
  exact sectionPacket_lay ho hi (h.place hi) h64 hw
    (fun x hx => (h.table x).trans (if_neg (by omega))) x

/-- What a turn needs of its place. -/
theorem At.turn {tbl : Bytes} (h : At efuse map addr cnts offset idx tbl)
    (ho : Outside efuse map addr cnts) (hend : addr + cnts ≤ 512) (hi : idx < cnts)
    (ht : cnts ≤ idx + (turns + 1)) :
    offset < 64 ∧ cnts ≤ (compareSection efuse map addr cnts offset idx).idx + turns := by
  have hp := h.place hi
  obtain ⟨hidx, -⟩ := compareSection_spec ho hi hp
  have hsec := hp.section_eq
  rw [hidx]
  omega

/-- A second pass which reports success leaves the map as it is to be. -/
theorem writeSections_spec (hl : Logged log c)
    (h : At efuse map addr cnts offset idx (laid log fun _ => 0xFF))
    (ho : Outside efuse map addr cnts) (hend : addr + cnts ≤ 512) (ht : cnts ≤ idx + turns)
    (hw : writeSections burn efuse map addr cnts turns offset idx c = (true, c')) :
    ∃ ps, Logged (log ++ ps) c' ∧ laid (log ++ ps) (fun _ => 0xFF) = efuse := by
  induction turns generalizing offset idx c log with
  | zero =>
    cases hw
    exact ⟨[], (List.append_nil log).symm ▸ hl, (List.append_nil log).symm ▸ h.done (by omega)⟩
  | succ turns ih =>
    rw [writeSections] at hw
    by_cases hi : idx < cnts
    · obtain ⟨h64, ht'⟩ := h.turn ho hend hi ht
      rw [if_pos hi] at hw
      by_cases hne : (compareSection efuse map addr cnts offset idx).wordEn = 0xF
      · simp only [hne, ne_eq, not_true_eq_false, if_false] at hw
        exact ih hl (h.skip ho hi hne) ht' hw
      · simp only [hne, ne_eq, not_false_eq_true, if_true] at hw
        have h15 := wordEn_lt_of_ne ho hi (h.place hi) hne
        by_cases hr : (halEfusePgPacketWrite burn c (BitVec.ofNat 8 offset)
          (compareSection efuse map addr cnts offset idx).wordEn
          (compareSection efuse map addr cnts offset idx).newdata).1 = true
        · rw [if_pos hr] at hw
          have hl' := hl.after (p := sectionPacket efuse map addr cnts offset idx h64 h15)
            (Prod.ext hr rfl)
          obtain ⟨ps, hps⟩ := ih hl' (h.lay ho hi h64 h15) ht' hw
          rw [List.append_assoc] at hps
          exact ⟨_, hps⟩
        · rw [if_neg hr] at hw
          cases hw
    · rw [if_neg hi] at hw
      cases hw
      exact ⟨[], (List.append_nil log).symm ▸ hl, (List.append_nil log).symm ▸ h.done (by omega)⟩

/-- When blank cells take what they are told, the second pass succeeds where the packets
of the sections still to come fit. -/
theorem writeSections_takes (hl : Logged log c) (hb : Takes burn)
    (h : At efuse map addr cnts offset idx (laid log fun _ => 0xFF))
    (ho : Outside efuse map addr cnts) (hend : addr + cnts ≤ 512) (ht : cnts ≤ idx + turns)
    (hu : used log + sectionsCost map efuse offset (64 - offset) < availableEfuseBytes) :
    (writeSections burn efuse map addr cnts turns offset idx c).1 = true := by
  induction turns generalizing offset idx c log with
  | zero => rfl
  | succ turns ih =>
    rw [writeSections]
    by_cases hi : idx < cnts
    · obtain ⟨h64, ht'⟩ := h.turn ho hend hi ht
      rw [show 64 - offset = 64 - (offset + 1) + 1 by omega, sectionsCost] at hu
      rw [if_pos hi]
      by_cases hne : (compareSection efuse map addr cnts offset idx).wordEn = 0xF
      · simp only [hne, ne_eq, not_true_eq_false, if_false]
        exact ih hl (h.skip ho hi hne) ht' (by omega)
      · simp only [hne, ne_eq, not_false_eq_true, if_true]
        have h15 := wordEn_lt_of_ne ho hi (h.place hi) hne
        have hr : (halEfusePgPacketWrite burn c (BitVec.ofNat 8 offset)
            (compareSection efuse map addr cnts offset idx).wordEn
            (compareSection efuse map addr cnts offset idx).newdata).1 = true :=
          hl.write_takes (p := sectionPacket efuse map addr cnts offset idx h64 h15) hb (by omega)
        have hcost : used (log ++ [sectionPacket efuse map addr cnts offset idx h64 h15]) =
            used log + sectionCost map efuse offset := by
          rw [← sectionPacket_cost ho hi (h.place hi) h64 h15 hne]
          exact RecordLogs.used_snoc
        rw [if_pos hr]
        refine ih (hl.after (p := sectionPacket efuse map addr cnts offset idx h64 h15)
          (Prod.ext hr rfl)) (h.lay ho hi h64 h15) ht' ?_
        rw [hcost]
        omega
    · rw [if_neg hi]

variable {reg : RegistryPriv} {data : List (BitVec 8)}

theorem laid_beyond {tbl : Bytes} {x : ℕ} (hx : 64 ≤ x / 8) : laid log tbl x = tbl x := by
  induction log generalizing tbl with
  | nil => rfl
  | cons p log ih =>
    have hp : p.offset.toNat < 64 := p.offset_lt
    rw [laid, List.foldl_cons, ← laid, ih, Packet.lay, if_neg (by omega)]

theorem mapRead_log (hl : Logged log c) {a n : ℕ} (h : a + n ≤ 512) :
    rtwEfuseMapRead c a n =
      some ((List.range n).map fun i => laid log (fun _ => 0xFF) (a + i),
        { c with efuseBytes := used log }) := by
  have hlen : efuseMapLen = 512 := rfl
  have hmax : efuseMaxMapLen = 1024 := rfl
  rw [rtwEfuseMapRead, if_neg (by omega), halReadEfuseWifi_log hl (by omega)]
  rfl

theorem outside_over (map : Bytes) : Outside (reg.over map addr data) map addr data.length :=
  fun x hx => if_neg (by omega)

/-- The call, once the chip holds a log. -/
theorem mapWrite_log (hl : Logged log c) (h : addr + data.length ≤ 512) :
    rtwEfuseMapWrite burn reg c addr data =
      if used log + mapCost (laid log fun _ => 0xFF) (reg.over (laid log fun _ => 0xFF) addr data) ≥
          availableEfuseBytes then
        (false, { c with efuseBytes := used log })
      else
        writeSections burn (reg.over (laid log fun _ => 0xFF) addr data) (laid log fun _ => 0xFF)
          addr data.length data.length (addr / 8) 0 { c with efuseBytes := used log } := by
  have hlen : efuseMapLen = 512 := rfl
  have hl' : Logged log { c with efuseBytes := used log } :=
    ⟨hl.holds, hl.fits, RecordLogs.boundary_used⟩
  have hmap : (fun x => ((List.range efuseMapLen).map fun i =>
      laid log (fun _ => 0xFF) (0 + i)).getD x 0xFF) = laid log fun _ => 0xFF := by
    funext x
    by_cases hx : x < efuseMapLen
    · simp [List.getD, hx]
    · rw [laid_beyond (by omega)]
      simp [List.getD, hx]
  have hstart : (if used log = 0 then efuseGetCurrentSize { c with efuseBytes := used log }
      else (used log, { c with efuseBytes := used log })) =
      (used log, { c with efuseBytes := used log }) := by
    rw [hl'.size]
    exact ite_self _
  rw [rtwEfuseMapWrite]
  simp only
  rw [if_neg (by omega), mapRead_log hl (by omega)]
  simp only
  rw [hmap, hstart, checkTotalByte_cost (outside_over _) h]

/-- When a write of a range of the map reports success, whatever the single burns did, the
map then reads as before with the range over it but for the masked bytes, and the fuses
hold a log again. -/
theorem map_write_reads_back (hl : Logged log c)
    (hw : rtwEfuseMapWrite burn reg c addr data = (true, c')) :
    ∃ ps, Logged (log ++ ps) c' ∧ ∀ a n, a + n ≤ 512 →
      (rtwEfuseMapRead c' a n).map Prod.fst = some ((List.range n).map fun i =>
        reg.over (laid log fun _ => 0xFF) addr data (a + i)) := by
  have hlen : efuseMapLen = 512 := rfl
  by_cases h : addr + data.length ≤ 512
  · rw [mapWrite_log hl h] at hw
    by_cases hu : used log + mapCost (laid log fun _ => 0xFF)
        (reg.over (laid log fun _ => 0xFF) addr data) ≥ availableEfuseBytes
    · rw [if_pos hu] at hw
      cases hw
    · rw [if_neg hu] at hw
      have hl' : Logged log { c with efuseBytes := used log } :=
        ⟨hl.holds, hl.fits, RecordLogs.boundary_used⟩
      obtain ⟨ps, hps, hlaid⟩ := writeSections_spec hl' (At.start (outside_over _)) (outside_over _)
        h (Nat.le_of_eq (Nat.zero_add _).symm) hw
      refine ⟨ps, hps, fun a n han => ?_⟩
      rw [mapRead_log hps han, hlaid]
      rfl
  · rw [rtwEfuseMapWrite] at hw
    simp only at hw
    rw [if_pos (by omega)] at hw
    cases hw

/-- The mask of the chip is in force. It masks the bytes from 0x1C to 0x39. -/
def maskedReg : RegistryPriv := ⟨false, false, []⟩

/-- The chip after a write of eight bytes to two sections, the last two of them masked. -/
def rangeChip : Chip :=
  (rtwEfuseMapWrite lateBurn maskedReg blankChip 0x16 [1, 2, 3, 4, 5, 6, 7, 8]).2

theorem rangeChip_written :
    rtwEfuseMapWrite lateBurn maskedReg blankChip 0x16 [1, 2, 3, 4, 5, 6, 7, 8] =
      (true, rangeChip) := by
  have h :
      (rtwEfuseMapWrite lateBurn maskedReg blankChip 0x16 [1, 2, 3, 4, 5, 6, 7, 8]).1 = true := by
    decide +kernel
  rw [rangeChip, ← h]

theorem map_write_reads_back_masked :
    ∃ ps, Logged ([] ++ ps) rangeChip ∧ ∀ a n, a + n ≤ 512 →
      (rtwEfuseMapRead rangeChip a n).map Prod.fst = some ((List.range n).map fun i =>
        maskedReg.over (laid [] fun _ => 0xFF) 0x16 [1, 2, 3, 4, 5, 6, 7, 8] (a + i)) :=
  map_write_reads_back logged_blankChip rangeChip_written

/-- When blank cells take what they are told, such a write succeeds exactly if the range
lies in the map and the log and the packets for the changed sections end before the
protected bytes. Otherwise it burns nothing. -/
theorem map_write_succeeds_iff (hl : Logged log c) (hb : Takes burn) :
    ((rtwEfuseMapWrite burn reg c addr data).1 = true ↔
        addr + data.length ≤ 512 ∧
          used log + mapCost (laid log fun _ => 0xFF)
            (reg.over (laid log fun _ => 0xFF) addr data) < availableEfuseBytes) ∧
      ((rtwEfuseMapWrite burn reg c addr data).1 = false →
        (rtwEfuseMapWrite burn reg c addr data).2.fuses = c.fuses) := by
  have hlen : efuseMapLen = 512 := rfl
  by_cases h : addr + data.length ≤ 512
  · rw [mapWrite_log hl h]
    by_cases hu : used log + mapCost (laid log fun _ => 0xFF)
        (reg.over (laid log fun _ => 0xFF) addr data) ≥ availableEfuseBytes
    · rw [if_pos hu]
      exact ⟨iff_of_false Bool.false_ne_true fun hf => by omega, fun _ => rfl⟩
    · have hl' : Logged log { c with efuseBytes := used log } :=
        ⟨hl.holds, hl.fits, RecordLogs.boundary_used⟩
      have hturns : data.length ≤ 0 + data.length := by omega
      have hcost := checkTotalByte_cost (@outside_over addr reg data (laid log fun _ => 0xFF)) h
      rw [checkTotalByte_eq (At.start (outside_over _)) (outside_over _) h hturns] at hcost
      have hok := writeSections_takes hl' hb (At.start (outside_over _)) (outside_over _) h hturns
        (by rw [hcost]; omega)
      rw [if_neg hu, hok]
      exact ⟨iff_of_true rfl ⟨h, by omega⟩, fun hf => absurd hf (by decide)⟩
  · rw [rtwEfuseMapWrite]
    simp only
    rw [if_pos (by omega)]
    exact ⟨iff_of_false Bool.false_ne_true fun hf => h hf.1, fun _ => rfl⟩

/-- A packet of a whole section near the start of the map. -/
def nearPacket : Packet := ⟨2, 0, fun _ => 0xAA, by decide, by decide⟩

/-- A log which leaves 24 bytes before the protected ones. -/
def longLog : List Packet := macPacket :: List.replicate 43 nearPacket

/-- Two whole sections and the half of a third, whose other half is masked, take 23 bytes
and are written. Three sections with longer headers take 24 bytes, and nothing is burnt. -/
theorem map_write_succeeds_iff_limit :
    (rtwEfuseMapWrite (fun _ _ d => d) maskedReg (chipOf longLog) 8
      (List.replicate 24 0x5A)).1 = true ∧
      (rtwEfuseMapWrite (fun _ _ d => d) maskedReg (chipOf longLog) 0x100
        (List.replicate 18 0x5A)).2.fuses = (chipOf longLog).fuses := by
  have hl : Logged longLog (chipOf longLog) := logged_chipOf (by decide +kernel)
  refine ⟨(map_write_succeeds_iff hl fun _ _ => rfl).1.mpr ⟨by decide, by decide +kernel⟩,
    (map_write_succeeds_iff hl fun _ _ => rfl).2 (Bool.eq_false_iff.mpr fun h => ?_)⟩
  exact absurd ((map_write_succeeds_iff hl fun _ _ => rfl).1.mp h).2 (by decide +kernel)

end Okm6ullOta.EfuseMapWrite
