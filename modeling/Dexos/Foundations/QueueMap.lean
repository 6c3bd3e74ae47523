import Mathlib.Data.List.Perm.Basic
import Dexos.Foundations.OrdMap

/-!
# Maps of queues

Ordered maps whose values are lists, where an empty list is not stored. `flatten` lists
all elements in key order; replacing one queue changes that list in one block.
-/

namespace Dexos.Foundations

open List OrdMap

variable {K V W : Type} [LinearOrder K]

/-- Store a queue; an empty queue leaves no entry. -/
def putQueue (m : OrdMap K (List V)) (k : K) (q : List V) : OrdMap K (List V) :=
  if q.isEmpty then m.erase k else m.insert k q

/-- The elements of all queues, in key order. -/
def flatten (m : OrdMap K (List V)) : List V := m.entries.flatMap Prod.snd

theorem get?_putQueue (m : OrdMap K (List V)) (k k' : K) (q : List V) :
    (putQueue m k q).get? k' =
      if k' = k then (if q.isEmpty then none else some q) else m.get? k' := by
  rw [putQueue]
  split_ifs with none here here
  · rw [here, get?_erase_self]
  · rw [get?_erase, if_neg here]
  · rw [here, get?_insert_self]
  · rw [get?_insert_ne _ _ here]

theorem mem_flatten {m : OrdMap K (List V)} {v : V} :
    v ∈ flatten m ↔ ∃ k q, m.get? k = some q ∧ v ∈ q := by
  simp only [flatten, mem_flatMap, Prod.exists, mem_entries]

theorem flatten_mapValues (m : OrdMap K (List V)) (f : V → W) :
    flatten (m.mapValues fun q => q.map f) = (flatten m).map f := by
  simp [flatten, OrdMap.mapValues, flatMap_map, map_flatMap]

theorem mapValues_putQueue (m : OrdMap K (List V)) (f : V → W) (k : K) (q : List V) :
    (putQueue m k q).mapValues (fun q => q.map f) =
      putQueue (m.mapValues fun q => q.map f) k (q.map f) := by
  rw [putQueue, putQueue, isEmpty_map]
  split_ifs with none
  · exact mapValues_erase m _ k
  · exact mapValues_insert m _ k q

/-- The elements, with one queue split off. -/
theorem flatten_perm (m : OrdMap K (List V)) (k : K) :
    (flatten m).Perm ((m.get? k).getD [] ++ flatten (m.erase k)) := by
  cases h : m.get? k with
  | none =>
    rw [erase_of_absent h]
    exact List.Perm.refl _
  | some q =>
    have split := (entries_perm h).flatMap_right Prod.snd
    rwa [flatMap_cons] at split

theorem flatten_putQueue_perm (m : OrdMap K (List V)) (k : K) (q : List V) :
    (flatten (putQueue m k q)).Perm (q ++ flatten (m.erase k)) := by
  rw [putQueue]
  split_ifs with none
  · rw [isEmpty_iff.1 none]
    exact List.Perm.refl _
  · have split := (entries_insert_perm m k q).flatMap_right Prod.snd
    rwa [flatMap_cons] at split

theorem length_flatten_putQueue (m : OrdMap K (List V)) (k : K) (q : List V) :
    (flatten (putQueue m k q)).length + ((m.get? k).getD []).length =
      (flatten m).length + q.length := by
  have before := (flatten_perm m k).length_eq
  have after := (flatten_putQueue_perm m k q).length_eq
  rw [length_append] at before after
  omega

/-! ## Lists with distinct keys -/

/-- In a list with distinct keys, searching a key finds the element that has it. -/
theorem find?_key {l : List V} {key : V → K} (distinct : (l.map key).Nodup) {k : K} {v : V} :
    l.find? (fun x => key x = k) = some v ↔ v ∈ l ∧ key v = k := by
  constructor
  · intro found
    exact ⟨mem_of_find?_eq_some found, by simpa using find?_some found⟩
  · rintro ⟨member, rfl⟩
    cases found : l.find? (fun x => key x = key v) with
    | none => simpa using find?_eq_none.1 found v member
    | some w =>
      have same : key w = key v := by simpa using find?_some found
      rw [inj_on_of_nodup_map distinct (mem_of_find?_eq_some found) member same]

end Dexos.Foundations
