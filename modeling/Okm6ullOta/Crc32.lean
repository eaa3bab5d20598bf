import Okm6ullOta.Arc4
import Okm6ullOta.CyclicChecks

/-!
# The CRC-32 of the Wi-Fi driver

crc32_reverseBit, crc32_init and getcrc32 of core/rtw_security.c, which keep the integrity
check value of a WEP or TKIP fragment. The table is made high bit first and then turned
around byte by byte; getcrc32 goes low bit first.
-/
namespace Okm6ullOta.Crc32
open Arc4 CyclicChecks
open StreamCiphers (xors xors_length xors_append xors_inj)

/-- CRC32_POLY. -/
def crc32Poly : BitVec 32 := 0x04c11db7

def crc32ReverseBit (data : Byte) : Byte :=
  ((data <<< 7) &&& 0x80) ||| ((data <<< 5) &&& 0x40) ||| ((data <<< 3) &&& 0x20) |||
    ((data <<< 1) &&& 0x10) ||| ((data >>> 1) &&& 0x08) ||| ((data >>> 3) &&& 0x04) |||
    ((data >>> 5) &&& 0x02) ||| ((data >>> 7) &&& 0x01)

/-- One bit of the inner loop of crc32_init. -/
def tableBit (c : BitVec 32) : BitVec 32 :=
  if c &&& 0x80000000 ≠ 0 then (c <<< 1) ^^^ crc32Poly else c <<< 1

/-- crc32_table, as crc32_init fills it. `p` and `p1` go through the bytes of a
little-endian word. -/
def crc32Table (i : Byte) : BitVec 32 :=
  let k := crc32ReverseBit i
  let c := tableBit^[8] (k.setWidth 32 <<< 24)
  let p := bytes 4 c
  word [crc32ReverseBit (p.getD 3 0), crc32ReverseBit (p.getD 2 0),
    crc32ReverseBit (p.getD 1 0), crc32ReverseBit (p.getD 0 0)]

def getcrc32 (buf : List Byte) : BitVec 32 :=
  ~~~ buf.foldl (fun crc b => crc32Table ((crc ^^^ b.setWidth 32).setWidth 8) ^^^ (crc >>> 8))
    0xffffffff

/-- The polynomial low bit first. -/
def reflected : BitVec 32 := 0xedb88320

theorem reflected_msb : reflected.msb = true := by decide

/-- Every entry of the table is its index with eight bits divided off. -/
theorem crc32Table_eq (i : Byte) : crc32Table i = (shift reflected)^[8] (i.setWidth 32) := by
  revert i
  decide +kernel

/-- The table gives what dividing bit by bit gives. -/
theorem getcrc32_eq (buf : List Byte) :
    getcrc32 buf = ~~~ register reflected 0xffffffff buf := by
  rw [getcrc32, register]
  congr 2
  funext crc b
  rw [crc32Table_eq, feed_table]

/-- The four bytes at the end of a fragment fit what stands before them. -/
def Fits (text : List Byte) : Prop :=
  bytes 4 (getcrc32 (text.take (text.length - 4))) = text.drop (text.length - 4)

instance (text : List Byte) : Decidable (Fits text) :=
  inferInstanceAs (Decidable (_ = _))

variable {payload text ds : List Byte}

theorem fits_append : Fits (payload ++ bytes 4 (getcrc32 payload)) := by
  simp [Fits]

theorem getcrc32_xors (h : payload.length = ds.length) :
    getcrc32 (xors payload ds) = getcrc32 payload ^^^ register reflected 0 ds := by
  have hr : register reflected 0xffffffff (xors payload ds) =
      register reflected 0xffffffff payload ^^^ register reflected 0 ds :=
    register_xors (r := 0xffffffff) (s := 0) h
  rw [getcrc32_eq, getcrc32_eq, hr, BitVec.not_xor_left]

/-- Whether a changed fragment still fits depends on the change only. -/
theorem fits_xors (h : Fits text) (hl : 4 ≤ text.length) (hd : ds.length = text.length) :
    Fits (xors text ds) ↔ register reflected 0 ds = 0 := by
  obtain ⟨t, e, rfl, he⟩ : ∃ t e, text = t ++ e ∧ e.length = 4 :=
    ⟨_, _, (List.take_append_drop (text.length - 4) text).symm, by simp; omega⟩
  obtain ⟨d, f, rfl, hf⟩ : ∃ d f, ds = d ++ f ∧ f.length = 4 :=
    ⟨_, _, (List.take_append_drop (ds.length - 4) ds).symm, by simp; omega⟩
  have ht : t.length = d.length := by simp at hd; omega
  have h₁ : Fits (t ++ e) ↔ bytes 4 (getcrc32 t) = e := by simp [Fits, he]
  have h₂ : Fits (xors t d ++ xors e f) ↔ bytes 4 (getcrc32 (xors t d)) = xors e f := by
    simp [Fits, he, hf]
  rw [xors_append ht, h₂, getcrc32_xors ht, bytes_xor, h₁.mp h, xors_inj (by simp [he]) (by omega),
    register_eq_zero_iff reflected_msb (by omega)]
  constructor
  · intro hb
    rw [← hb, word_bytes fun i hi => BitVec.getLsbD_of_ge _ i (by omega)]
  · intro hr
    rw [hr, bytes_word hf (by decide)]

end Okm6ullOta.Crc32
