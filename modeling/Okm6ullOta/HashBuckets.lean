import Mathlib.Tactic.Common
import Mathlib.Data.List.Find
import Mathlib.Data.List.Nodup

/-!
# Buckets of a hash table

Every entry has an id and a key; its id is filed in the bucket of its key. The buckets
together stand for one list of entries, the oldest first, and a search of one bucket finds what a
search of the whole list would find.
-/
namespace Okm6ullOta.HashBuckets

variable {ι κ : Type*} {place : κ → ℕ} {key key' : ι → κ}
  {buckets : ℕ → List ι} {live : List (ι × κ)} {i : ι}

/-- The ids of a bucket are those of the entries whose place it is, in their order. -/
structure Files (place : κ → ℕ) (key : ι → κ) (buckets : ℕ → List ι) (live : List (ι × κ)) :
    Prop where
  keyed : ∀ e ∈ live, key e.1 = e.2
  filed : ∀ b, buckets b = (live.filter fun e => place e.2 = b).map Prod.fst

namespace Files

theorem empty : Files place key (fun _ => []) [] := ⟨by simp, by simp⟩

theorem mem_iff (h : Files place key buckets live) : (∃ b, i ∈ buckets b) ↔ ∃ k, (i, k) ∈ live := by
  simp only [h.filed, List.mem_map, List.mem_filter, decide_eq_true_eq, Prod.exists]
  constructor
  · rintro ⟨b, j, k, ⟨hm, -⟩, rfl⟩
    exact ⟨k, hm⟩
  · rintro ⟨k, hm⟩
    exact ⟨place k, i, k, ⟨hm, rfl⟩, rfl⟩

theorem place_eq (h : Files place key buckets live) {b : ℕ} (hi : i ∈ buckets b) :
    place (key i) = b := by
  rw [h.filed] at hi
  obtain ⟨e, he, rfl⟩ := List.mem_map.mp hi
  obtain ⟨he, hb⟩ := List.mem_filter.mp he
  rw [h.keyed e he]
  exact of_decide_eq_true hb

/-- The first `n` buckets hold every id once, when every key has its place there. -/
theorem flatMap_nodup (h : Files place key buckets live) (hn : (live.map Prod.fst).Nodup)
    (q : ι → Bool) (n : ℕ) : ((List.range n).flatMap fun b => (buckets b).filter q).Nodup := by
  refine List.nodup_flatMap.mpr ⟨fun b _ => ?_, ?_⟩
  · rw [h.filed]
    exact ((List.filter_sublist.map Prod.fst).nodup hn).filter q
  · refine List.nodup_range.imp fun hne i hi hi' => hne ?_
    exact (h.place_eq (List.mem_filter.mp hi).1).symm.trans (h.place_eq (List.mem_filter.mp hi').1)

theorem mem_flatMap (h : Files place key buckets live) (q : ι → Bool) {n : ℕ}
    (hp : ∀ k, place k < n) : (i ∈ (List.range n).flatMap fun b => (buckets b).filter q) ↔
      (∃ k, (i, k) ∈ live) ∧ q i := by
  rw [List.mem_flatMap, ← h.mem_iff]
  constructor
  · rintro ⟨b, -, hi⟩
    exact ⟨⟨b, (List.mem_filter.mp hi).1⟩, (List.mem_filter.mp hi).2⟩
  · rintro ⟨⟨b, hi⟩, hq⟩
    exact ⟨b, List.mem_range.mpr (h.place_eq hi ▸ hp _), List.mem_filter.mpr ⟨hi, hq⟩⟩

/-- A search in the bucket of a key finds the oldest entry with that key. -/
theorem find [DecidableEq κ] (h : Files place key buckets live) (k : κ) :
    (buckets (place k)).find? (fun i => key i = k) =
      (live.find? fun e => e.2 = k).map Prod.fst := by
  rw [h.filed, List.find?_map, List.find?_filter]
  congr 1
  refine List.find?_congr fun e he => ?_
  rw [Function.comp_apply, h.keyed e he]
  by_cases hk : e.2 = k <;> simp [hk]

variable [DecidableEq ι]

theorem insert (h : Files place key buckets live) (k : κ) (hi : ∀ e ∈ live, e.1 ≠ i) :
    Files place (Function.update key i k)
      (Function.update buckets (place k) (buckets (place k) ++ [i])) (live ++ [(i, k)]) where
  keyed e he := by
    rcases List.mem_append.mp he with he | he
    · rw [Function.update_of_ne (hi e he), h.keyed e he]
    · obtain rfl := List.mem_singleton.mp he
      exact Function.update_self ..
  filed b := by
    rw [List.filter_append, List.map_append, ← h.filed]
    by_cases hb : place k = b
    · subst hb
      simp
    · rw [Function.update_of_ne fun hk => hb hk.symm]
      simp [hb]

/-- The entries with an id go; the key of that id may change then. -/
theorem remove (h : Files place key buckets live) (hk : ∀ j, j ≠ i → key' j = key j) :
    Files place key' (fun b => (buckets b).filter (· ≠ i)) (live.filter (·.1 ≠ i)) where
  keyed e he := by
    obtain ⟨he, hne⟩ := List.mem_filter.mp he
    rw [hk _ (of_decide_eq_true hne), h.keyed e he]
  filed b := by
    rw [h.filed, List.filter_map, List.filter_filter, List.filter_filter]
    congr 1
    refine List.filter_congr fun e _ => ?_
    exact Bool.and_comm ..

end Files
end Okm6ullOta.HashBuckets
