import Mathlib.Data.List.Sort

/-!
# Binary search in strictly ascending lists

`binarySearch` returns the position of a key, or the position where it belongs. Inserting
or erasing at that position keeps the list strictly ascending.
-/

namespace Dexos.Foundations

open List

variable {K : Type} [LinearOrder K] {keys : List K} {k : K}

/-- The position of a key in an ascending list, or the position where it would be inserted. -/
def binarySearch (keys : List K) (k : K) : Except Nat Nat :=
  let position := (keys.takeWhile fun x => x < k).length
  if keys[position]? = some k then .ok position else .error position

/-- The position that a search returns, whether the key is there or not. -/
def searchPosition (keys : List K) (k : K) : Nat :=
  match binarySearch keys k with
  | .ok p => p
  | .error p => p

theorem searchPosition_eq (keys : List K) (k : K) :
    searchPosition keys k = (keys.takeWhile fun x => x < k).length := by
  rw [searchPosition, binarySearch]
  split_ifs <;> rfl

theorem insertIdx_searchPosition (keys : List K) (k : K) :
    keys.insertIdx (searchPosition keys k) k = keys.orderedInsert (· ≤ ·) k := by
  rw [searchPosition_eq]
  induction keys with
  | nil => rfl
  | cons x rest ih =>
    rw [takeWhile_cons, List.orderedInsert]
    by_cases below : x < k
    · rw [if_neg (not_le.2 below), if_pos (decide_eq_true below), length_cons,
        insertIdx_succ_cons, ih]
    · rw [if_pos (not_lt.1 below), if_neg (by simpa using below)]
      rfl

theorem mem_orderedInsert_iff {x : K} :
    x ∈ keys.orderedInsert (· ≤ ·) k ↔ x = k ∨ x ∈ keys := by
  rw [(perm_orderedInsert (· ≤ ·) k keys).mem_iff, mem_cons]

variable (ascending : keys.Pairwise (· < ·))
include ascending

/-- Sorted insertion of a new key keeps the list strictly ascending. -/
theorem pairwise_orderedInsert (fresh : k ∉ keys) :
    (keys.orderedInsert (· ≤ ·) k).Pairwise (· < ·) := by
  induction keys with
  | nil => simp
  | cons x rest ih =>
    obtain ⟨head, tail⟩ := pairwise_cons.1 ascending
    rw [List.orderedInsert]
    split_ifs with le
    · have lt : k < x := lt_of_le_of_ne le fun same => fresh (same ▸ mem_cons_self)
      exact pairwise_cons.2
        ⟨forall_mem_cons.2 ⟨lt, fun y later => lt.trans (head y later)⟩, ascending⟩
    · refine pairwise_cons.2
        ⟨fun y hy => ?_, ih tail fun h => fresh (mem_cons_of_mem _ h)⟩
      obtain rfl | later := mem_orderedInsert_iff.1 hy
      · exact not_le.1 le
      · exact head y later

/-- A search finds exactly the keys of an ascending list. -/
theorem binarySearch_of_mem (listed : k ∈ keys) :
    ∃ p, binarySearch keys k = .ok p ∧ keys.eraseIdx p = keys.erase k := by
  suffices found : keys[(keys.takeWhile fun x => x < k).length]? = some k ∧
      keys.eraseIdx (keys.takeWhile fun x => x < k).length = keys.erase k by
    refine ⟨_, ?_, found.2⟩
    exact if_pos found.1
  induction keys with
  | nil => simp at listed
  | cons x rest ih =>
    obtain ⟨head, tail⟩ := pairwise_cons.1 ascending
    obtain rfl | later := mem_cons.1 listed
    · simp
    · have below : x < k := head k later
      obtain ⟨here, erased⟩ := ih tail later
      rw [takeWhile_cons, if_pos (decide_eq_true below)]
      refine ⟨by simpa using here, ?_⟩
      rw [length_cons, eraseIdx_cons_succ, erased, erase_cons_tail (by simp [below.ne])]

theorem mem_erase_iff {x : K} : x ∈ keys.erase k ↔ x ≠ k ∧ x ∈ keys :=
  List.Nodup.mem_erase_iff (ascending.imp ne_of_lt)

theorem pairwise_erase : (keys.erase k).Pairwise (· < ·) :=
  ascending.sublist erase_sublist

end Dexos.Foundations
