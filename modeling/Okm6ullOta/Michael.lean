import Okm6ullOta.Arc4
import Okm6ullOta.CyclicChecks
import Okm6ullOta.FeistelSteps

/-!
# The message integrity code of TKIP

The functions from secmicgetuint32 to rtw_seccalctkipmic of core/rtw_security.c.
-/
namespace Okm6ullOta.Michael
open Arc4
open CyclicChecks (bytes bytes_length word_bytes)
open FeistelSteps

structure MicData where
  K0 : BitVec 32
  K1 : BitVec 32
  L : BitVec 32
  R : BitVec 32
  M : BitVec 32
  nBytesInM : ℕ

/-- ROL32. -/
def rol32 (a : BitVec 32) (n : ℕ) : BitVec 32 :=
  (a <<< n) ||| ((a >>> (32 - n)) &&& (1 <<< n - 1))

/-- ROR32. -/
def ror32 (a : BitVec 32) (n : ℕ) : BitVec 32 := rol32 a (32 - n)

def secmicgetuint32 (p : List Byte) : BitVec 32 :=
  (List.range 4).foldl (fun res i => res ||| (p.getD i 0).setWidth 32 <<< (8 * i)) 0

def secmicputuint32 (val : BitVec 32) : List Byte := bytes 4 val

def secmicclear (d : MicData) : MicData := { d with L := d.K0, R := d.K1, nBytesInM := 0, M := 0 }

/-- `pmicdata` is overwritten in every field. -/
def rtwSecmicsetkey (key : List Byte) : MicData :=
  secmicclear ⟨secmicgetuint32 key, secmicgetuint32 (key.drop 4), 0, 0, 0, 0⟩

/-- The two words while the full word `M` is processed. -/
def block (L R M : BitVec 32) : BitVec 32 × BitVec 32 :=
  let L := L ^^^ M
  let R := R ^^^ rol32 L 17
  let L := L + R
  let R := R ^^^ (((L &&& 0xff00ff00) >>> 8) ||| ((L &&& 0x00ff00ff) <<< 8))
  let L := L + R
  let R := R ^^^ rol32 L 3
  let L := L + R
  let R := R ^^^ ror32 L 2
  let L := L + R
  (L, R)

def rtwSecmicappendbyte (d : MicData) (b : Byte) : MicData :=
  let M := d.M ||| b.setWidth 32 <<< (8 * d.nBytesInM)
  let nBytesInM := d.nBytesInM + 1
  if nBytesInM ≥ 4 then
    { d with L := (block d.L d.R M).1, R := (block d.L d.R M).2, M := 0, nBytesInM := 0 }
  else { d with M, nBytesInM }

def rtwSecmicappend (d : MicData) (src : List Byte) : MicData := src.foldl rtwSecmicappendbyte d

/-- The loop which appends zeros until the word is full, at most `n` of them. -/
def fillWord : ℕ → MicData → MicData
  | 0, d => d
  | n + 1, d => if d.nBytesInM ≠ 0 then fillWord n (rtwSecmicappendbyte d 0) else d

/-- The code and the state which is left. -/
def rtwSecgetmic (d : MicData) : List Byte × MicData :=
  let d := rtwSecmicappend d [0x5a, 0, 0, 0, 0]
  let d := fillWord 4 d
  (secmicputuint32 d.L ++ secmicputuint32 d.R, secmicclear d)

/-- The addresses at the head of a frame which go into the code, DA before SA. -/
def pseudoHeader (header : List Byte) : List Byte :=
  let at6 n := (header.drop n).take 6
  if header.getD 1 0 &&& 1 ≠ 0 then
    at6 16 ++ if header.getD 1 0 &&& 2 ≠ 0 then at6 24 else at6 10
  else
    at6 4 ++ if header.getD 1 0 &&& 2 ≠ 0 then at6 16 else at6 10

def rtwSeccalctkipmic (key header data : List Byte) (pri : Byte) : List Byte :=
  let d := rtwSecmicsetkey key
  let d := rtwSecmicappend d (pseudoHeader header)
  let d := rtwSecmicappend d [pri, 0, 0, 0]
  let d := rtwSecmicappend d data
  (rtwSecgetmic d).1

variable {d e : MicData} {b : Byte} {xs ys u v : List Byte} {L R M L' R' M' : BitVec 32}

theorem rtwSecmicappend_append :
    rtwSecmicappend d (xs ++ ys) = rtwSecmicappend (rtwSecmicappend d xs) ys := List.foldl_append

/-- A full word is processed at once. -/
structure Partial (d : MicData) : Prop where
  filling : d.nBytesInM < 4
  fresh : d.nBytesInM = 0 → d.M = 0

theorem Partial.setkey (key : List Byte) : Partial (rtwSecmicsetkey key) :=
  ⟨Nat.zero_lt_succ 3, fun _ => rfl⟩

theorem appendbyte_nBytesInM (h : Partial d) :
    (rtwSecmicappendbyte d b).nBytesInM = (d.nBytesInM + 1) % 4 := by
  have := h.filling
  simp only [rtwSecmicappendbyte]
  split_ifs <;> dsimp only <;> omega

theorem Partial.appendbyte (h : Partial d) (b : Byte) : Partial (rtwSecmicappendbyte d b) := by
  have := h.filling
  simp only [rtwSecmicappendbyte]
  split_ifs with hn
  · exact ⟨Nat.zero_lt_succ 3, fun _ => rfl⟩
  · exact ⟨Nat.lt_of_not_le hn, fun h => absurd h (Nat.succ_ne_zero _)⟩

theorem Partial.append (h : Partial d) (xs : List Byte) : Partial (rtwSecmicappend d xs) := by
  induction xs generalizing d with
  | nil => exact h
  | cons x xs ih => exact ih (Partial.appendbyte h x)

theorem append_nBytesInM (h : Partial d) (xs : List Byte) :
    (rtwSecmicappend d xs).nBytesInM = (d.nBytesInM + xs.length) % 4 := by
  induction xs generalizing d with
  | nil => exact (Nat.mod_eq_of_lt h.filling).symm
  | cons x xs ih =>
    have hx := ih (Partial.appendbyte h x)
    rw [appendbyte_nBytesInM h] at hx
    rw [rtwSecmicappend, List.foldl_cons, ← rtwSecmicappend, hx, List.length_cons]
    omega

/-- Three zeros are enough: the loop of rtw_secgetmic ends with its test. -/
theorem fillWord_full (h : Partial d) (n : ℕ) (hn : d.nBytesInM = 0 ∨ 4 ≤ d.nBytesInM + n) :
    (fillWord n d).nBytesInM = 0 := by
  induction n generalizing d with
  | zero =>
    have := h.filling
    simp only [fillWord]
    omega
  | succ n ih =>
    have := h.filling
    have hb := appendbyte_nBytesInM (b := 0) h
    simp only [fillWord]
    split_ifs with h₀
    · exact ih (Partial.appendbyte h 0) (by omega)
    · exact not_not.mp h₀

def registers (L R : BitVec 32) : Vector (BitVec 32) 2 := #v[L, R]

def addR : Step 2 (BitVec 32) :=
  ⟨0, 1, Fin.zero_ne_one, (· + ·), fun c _ _ => (BitVec.add_left_inj c).mp, id⟩

def xorL (f : BitVec 32 → BitVec 32) : Step 2 (BitVec 32) :=
  ⟨1, 0, Fin.zero_ne_one.symm, (· ^^^ ·), fun c _ _ => (BitVec.xor_left_inj c).mp, f⟩

def blockSteps : List (Step 2 (BitVec 32)) :=
  [xorL (rol32 · 17), addR,
    xorL fun L => ((L &&& 0xff00ff00) >>> 8) ||| ((L &&& 0x00ff00ff) <<< 8), addR,
    xorL (rol32 · 3), addR, xorL (ror32 · 2), addR]

theorem addR_run : addR.run (registers L R) = registers (L + R) R := rfl

theorem xorL_run (f : BitVec 32 → BitVec 32) :
    (xorL f).run (registers L R) = registers L (R ^^^ f L) := rfl

theorem block_eq_run (L R M : BitVec 32) :
    registers (block L R M).1 (block L R M).2 = run blockSteps (registers (L ^^^ M) R) := by
  simp only [run, blockSteps, List.foldl_cons, List.foldl_nil, addR_run, xorL_run, block]

theorem block_inj (h : block L R M = block L' R' M') : L ^^^ M = L' ^^^ M' ∧ R = R' := by
  have hr : registers (L ^^^ M) R = registers (L' ^^^ M') R' := by
    apply run_injective blockSteps
    rw [← block_eq_run, ← block_eq_run, h]
  exact ⟨congrArg (·[0]) hr, congrArg (·[1]) hr⟩

/-- Two computations which only the words tell apart. -/
structure Apart (d e : MicData) : Prop where
  filled : d.nBytesInM = e.nBytesInM
  word : d.M = e.M
  apart : ¬ (d.L = e.L ∧ d.R = e.R)

theorem Apart.appendbyte (h : Apart d e) (b : Byte) :
    Apart (rtwSecmicappendbyte d b) (rtwSecmicappendbyte e b) := by
  obtain ⟨hn, hm, ha⟩ := h
  simp only [rtwSecmicappendbyte, hn, hm]
  split_ifs
  · refine ⟨rfl, rfl, fun hlr => ha ?_⟩
    obtain ⟨hl, hr⟩ := block_inj (Prod.ext hlr.1 hlr.2)
    exact ⟨(BitVec.xor_left_inj _).mp hl, hr⟩
  · exact ⟨rfl, rfl, ha⟩

theorem Apart.append (h : Apart d e) (xs : List Byte) :
    Apart (rtwSecmicappend d xs) (rtwSecmicappend e xs) := by
  induction xs generalizing d e with
  | nil => exact h
  | cons x xs ih => exact ih (h.appendbyte x)

theorem Apart.fillWord (h : Apart d e) (n : ℕ) : Apart (fillWord n d) (fillWord n e) := by
  induction n generalizing d e with
  | zero => exact h
  | succ n ih =>
    simp only [Michael.fillWord, h.filled]
    split_ifs
    · exact ih (h.appendbyte 0)
    · exact h

theorem putuint32_inj (h : secmicputuint32 L = secmicputuint32 L') : L = L' := by
  have hb (r : BitVec 32) : CyclicChecks.word (bytes 4 r) = r :=
    word_bytes fun i hi => BitVec.getLsbD_of_ge r i (by omega)
  rw [← hb L, ← hb L']
  exact congrArg _ h

theorem or_byte {n : ℕ} (h : ∀ i, n ≤ i → M.getLsbD i = false) (b : Byte) :
    M ||| b.setWidth 32 <<< n = M ^^^ b.setWidth 32 <<< n := by
  refine BitVec.eq_of_getLsbD_eq fun i _ => ?_
  rw [BitVec.getLsbD_or, BitVec.getLsbD_xor]
  rcases Nat.lt_or_ge i n with hi | hi
  · simp [BitVec.getLsbD_shiftLeft, hi]
  · simp [h i hi]

theorem getuint32_eq (h : u.length = 4) : secmicgetuint32 u = CyclicChecks.word u := by
  suffices ∀ n ≤ 4, (List.range n).foldl
      (fun res i => res ||| (u.getD i 0).setWidth 32 <<< (8 * i)) 0 =
        CyclicChecks.word (u.take n) by
    rw [secmicgetuint32, this 4 (Nat.le_refl 4), List.take_of_length_le (by omega)]
  intro n hn
  induction n with
  | zero => rfl
  | succ n ih =>
    have hu : n < u.length := by omega
    have hl : (u.take n).length = n := by simp; omega
    rw [List.range_succ, List.foldl_append, ih (by omega), List.take_succ_eq_append_getElem hu,
      CyclicChecks.word_snoc, hl, List.foldl_cons, List.foldl_nil,
      or_byte fun i hi => CyclicChecks.word_bit i (by omega)]
    simp [hu]

theorem getuint32_inj (hu : u.length = 4) (hv : v.length = 4)
    (h : secmicgetuint32 u = secmicgetuint32 v) : u = v := by
  rw [getuint32_eq hu, getuint32_eq hv] at h
  have hb := CyclicChecks.bytes_word (w := 32) hu (by decide)
  rw [← hb, h, CyclicChecks.bytes_word hv (by decide)]

/-- Four bytes behind full words are one word. -/
theorem append_word (h : Partial d) (hn : d.nBytesInM = 0) (hu : u.length = 4) :
    rtwSecmicappend d u =
      { d with
        L := (block d.L d.R (secmicgetuint32 u)).1
        R := (block d.L d.R (secmicgetuint32 u)).2 } := by
  have hm := h.fresh hn
  obtain ⟨K0, K1, L, R, M, n⟩ := d
  obtain rfl := hn
  obtain rfl := hm
  obtain ⟨a, b, c, e, rfl⟩ : ∃ a b c e, u = [a, b, c, e] := by
    match u, hu with
    | [a, b, c, e], _ => exact ⟨a, b, c, e, rfl⟩
  rfl

theorem words_apart (h : Partial d) (hn : d.nBytesInM = 0) (hu : u.length = 4) (hv : v.length = 4)
    (huv : u ≠ v) : Apart (rtwSecmicappend d u) (rtwSecmicappend d v) := by
  rw [append_word h hn hu, append_word h hn hv]
  refine ⟨rfl, rfl, fun hlr => huv ?_⟩
  obtain ⟨hl, -⟩ := block_inj (Prod.ext hlr.1 hlr.2)
  exact getuint32_inj hu hv ((BitVec.xor_right_inj _).mp hl)

theorem Apart.getmic (h : Apart d e) : (rtwSecgetmic d).1 ≠ (rtwSecgetmic e).1 := by
  intro heq
  have hf := (h.append [0x5a, 0, 0, 0, 0]).fillWord 4
  obtain ⟨hl, hr⟩ := List.append_inj heq (by simp [secmicputuint32])
  exact hf.apart ⟨putuint32_inj hl, putuint32_inj hr⟩

/-- Data which differ in one word only have different codes, whatever stands before the
word and behind it. -/
theorem tkipmic_word {key header pre post : List Byte} {pri : Byte}
    (hh : (pseudoHeader header).length = 12) (hpre : pre.length % 4 = 0) (hu : u.length = 4)
    (hv : v.length = 4) (huv : u ≠ v) :
    rtwSeccalctkipmic key header (pre ++ (u ++ post)) pri ≠
      rtwSeccalctkipmic key header (pre ++ (v ++ post)) pri := by
  have h₀ := Partial.setkey key
  have h₁ := Partial.append h₀ (pseudoHeader header)
  have h₂ := Partial.append h₁ [pri, 0, 0, 0]
  have hn : (rtwSecmicappend (rtwSecmicappend (rtwSecmicappend (rtwSecmicsetkey key)
      (pseudoHeader header)) [pri, 0, 0, 0]) pre).nBytesInM = 0 := by
    rw [append_nBytesInM h₂, append_nBytesInM h₁, append_nBytesInM h₀, hh]
    simp [rtwSecmicsetkey, secmicclear, hpre]
  have hw := words_apart (Partial.append h₂ pre) hn hu hv huv
  simp only [rtwSeccalctkipmic, rtwSecmicappend_append]
  exact (hw.append post).getmic

/-- A bit of the second word is turned over. -/
theorem tkipmic_word_second :
    rtwSeccalctkipmic (List.replicate 8 5) (List.replicate 24 0)
        ([1, 2, 3, 4] ++ ([5, 6, 7, 8] ++ [9])) 0 ≠
      rtwSeccalctkipmic (List.replicate 8 5) (List.replicate 24 0)
        ([1, 2, 3, 4] ++ ([5, 6, 7, 0] ++ [9])) 0 :=
  tkipmic_word rfl rfl rfl rfl (by decide)

end Okm6ullOta.Michael
