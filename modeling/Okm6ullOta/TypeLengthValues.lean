import Okm6ullOta.ByteMemory

/-!
# Records with a tag and a length in front

A record is a header, which tells a tag and a length, and as many cells as the header
says. Records stand one behind the other, so a reader which steps from header to header
meets each of them and nothing else.
-/
namespace Okm6ullOta.TypeLengthValues
open ByteMemory

variable {β τ : Type*}

/-- Every list of `width` cells is the header of one tag and one length below `bound`. -/
structure Header (β τ : Type*) where
  width : ℕ
  bound : ℕ
  write : τ → ℕ → List β
  read : List β → τ × ℕ
  width_pos : 0 < width
  write_length : ∀ t n, (write t n).length = width
  read_write : ∀ t n, n < bound → read (write t n) = (t, n)
  read_lt : ∀ l, (read l).2 < bound
  write_read : ∀ l, l.length = width → write (read l).1 (read l).2 = l

structure Record (H : Header β τ) where
  tag : τ
  value : List β
  short : value.length < H.bound

variable {H : Header β τ}

namespace Record

theorem eq_of {r s : Record H} (ht : r.tag = s.tag) (hv : r.value = s.value) : r = s := by
  cases r
  cases s
  cases ht
  cases hv
  rfl

def size (r : Record H) : ℕ := H.width + r.value.length

def bytes (r : Record H) : List β := H.write r.tag r.value.length ++ r.value

@[simp] theorem bytes_length (r : Record H) : r.bytes.length = r.size := by
  rw [bytes, List.length_append, H.write_length, size]

theorem size_pos (r : Record H) : 0 < r.size :=
  Nat.lt_of_lt_of_le H.width_pos (Nat.le_add_right _ _)

end Record

def encode (rs : List (Record H)) : List β := rs.flatMap Record.bytes

variable {r : Record H} {rs ss : List (Record H)} {m : ℕ → β} {a n : ℕ}

@[simp] theorem encode_nil : encode ([] : List (Record H)) = [] := rfl

theorem encode_cons : encode (r :: rs) = r.bytes ++ encode rs := List.flatMap_cons

theorem encode_cons_length : (encode (r :: rs)).length = r.size + (encode rs).length := by
  rw [encode_cons, List.length_append, Record.bytes_length]

theorem encode_append : encode (rs ++ ss) = encode rs ++ encode ss := List.flatMap_append

/-- The next header. -/
def headerAt (H : Header β τ) (m : ℕ → β) (a : ℕ) : τ × ℕ := H.read (load m a H.width)

/-- The record which the header at an address announces. -/
def recordAt (H : Header β τ) (m : ℕ → β) (a : ℕ) : Record H where
  tag := (headerAt H m a).1
  value := load m (a + H.width) (headerAt H m a).2
  short := by
    rw [load_length]
    exact H.read_lt _

theorem recordAt_length : (recordAt H m a).value.length = (headerAt H m a).2 := load_length

theorem recordAt_bytes (m : ℕ → β) (a : ℕ) :
    load m a (recordAt H m a).size = (recordAt H m a).bytes := by
  have hl : (load m a H.width).length = H.width := load_length
  have hw : H.write (recordAt H m a).tag (recordAt H m a).value.length = load m a H.width := by
    rw [recordAt_length]
    exact H.write_read _ hl
  rw [Record.size, load_add, Record.bytes, hw, recordAt_length]
  rfl

/-- The bytes tell the record. -/
theorem recordAt_of_load (h : load m a r.size = r.bytes) : recordAt H m a = r := by
  rw [Record.size, load_add, Record.bytes] at h
  obtain ⟨hh, hv⟩ := List.append_inj h (by rw [load_length, H.write_length])
  have hr : headerAt H m a = (r.tag, r.value.length) := by
    rw [headerAt, hh, H.read_write _ _ r.short]
  have hn : (headerAt H m a).2 = r.value.length := congrArg Prod.snd hr
  exact Record.eq_of (congrArg Prod.fst hr) ((congrArg (load m (a + H.width)) hn).trans hv)

theorem load_cons (h : load m a n = encode (r :: rs)) :
    n = r.size + (encode rs).length ∧ recordAt H m a = r ∧
      load m (a + r.size) (encode rs).length = encode rs := by
  have hn : n = r.size + (encode rs).length := by
    rw [← encode_cons_length, ← h, load_length]
  rw [hn, load_add, encode_cons] at h
  obtain ⟨hr, hs⟩ := List.append_inj h (by rw [load_length, Record.bytes_length])
  exact ⟨hn, recordAt_of_load hr, hs⟩

theorem load_middle (h : load m a n = encode (rs ++ r :: ss)) :
    load m a (encode rs).length = encode rs ∧ recordAt H m (a + (encode rs).length) = r ∧
      load m (a + (encode rs).length + r.size) (encode ss).length = encode ss := by
  have hn : n = (encode rs).length + (encode (r :: ss)).length := by
    rw [← List.length_append, ← encode_append, ← h, load_length]
  rw [hn, load_add, encode_append] at h
  obtain ⟨hb, hr⟩ := List.append_inj h load_length
  exact ⟨hb, (load_cons hr).2⟩

theorem cons_load (hr : recordAt H m a = r) (hs : load m (a + r.size) n = encode rs) :
    load m a (r.size + n) = encode (r :: rs) := by
  rw [load_add, hs, encode_cons, ← hr, recordAt_bytes]

/-- Bytes are those of records where they are none, or begin with a record and go on so. -/
theorem load_encode_iff :
    (∃ rs : List (Record H), load m a n = encode rs) ↔ n = 0 ∨
      (recordAt H m a).size ≤ n ∧ ∃ rs : List (Record H),
        load m (a + (recordAt H m a).size) (n - (recordAt H m a).size) = encode rs := by
  constructor
  · rintro ⟨_ | ⟨r, rs⟩, h⟩
    · exact .inl (by simpa using congrArg List.length h)
    · obtain ⟨rfl, rfl, hs⟩ := load_cons h
      exact .inr ⟨Nat.le_add_right _ _, rs, by rw [Nat.add_sub_cancel_left, hs]⟩
  · rintro (rfl | ⟨hn, rs, hs⟩)
    · exact ⟨[], rfl⟩
    · refine ⟨recordAt H m a :: rs, ?_⟩
      have hc := cons_load rfl hs
      rwa [Nat.add_sub_cancel' hn] at hc

/-- Each record beside its address. -/
def placed : ℕ → List (Record H) → List (ℕ × Record H)
  | _, [] => []
  | a, r :: rs => (a, r) :: placed (a + r.size) rs

theorem placed_map_snd (a : ℕ) (rs : List (Record H)) : (placed a rs).map Prod.snd = rs := by
  induction rs generalizing a with
  | nil => rfl
  | cons r rs ih => rw [placed, List.map_cons, ih]

theorem exists_placed {P : Record H → Prop} : (∃ p ∈ placed a rs, P p.2) ↔ ∃ r ∈ rs, P r := by
  conv_rhs => rw [← placed_map_snd a rs]
  simp only [List.mem_map, exists_exists_and_eq_and]

/-- A reader which comes to the address of a record reads that record. -/
theorem recordAt_placed {p : ℕ × Record H} (h : load m a n = encode rs) (hp : p ∈ placed a rs) :
    recordAt H m p.1 = p.2 := by
  induction rs generalizing a n with
  | nil => cases hp
  | cons r rs ih =>
    obtain ⟨-, hr, hs⟩ := load_cons h
    rcases List.mem_cons.mp hp with rfl | hp
    · exact hr
    · exact ih hs hp

end Okm6ullOta.TypeLengthValues
