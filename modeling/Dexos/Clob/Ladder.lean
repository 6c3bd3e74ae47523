import Dexos.Clob.PriceTime

/-!
# Ladders

The best price of a side and the orders of a side in priority order. Matching only ever
drops or changes the first of them.
-/

namespace Dexos.Clob.PriceTime

open Foundations List

/-! ## The best price -/

/-- On a side, the first price is matched no later than the second. -/
def Ahead (side : Side) (p p' : Price) : Prop :=
  match side with
  | .bid => p' ≤ p
  | .ask => p ≤ p'

theorem Ahead.refl (side : Side) (p : Price) : Ahead side p p := by
  cases side <;> exact le_rfl

theorem Ahead.antisymm {side : Side} {p p' : Price} (first : Ahead side p p')
    (second : Ahead side p' p) : p = p' := by
  cases side
  · exact le_antisymm second first
  · exact le_antisymm first second

variable {V : Type} {side : Side} {m : OrdMap Price V} {p : Price}

theorem mem_bestFirst {e : Price × V} : e ∈ bestFirst side m ↔ m.get? e.1 = some e.2 := by
  rw [← OrdMap.mem_entries]
  cases side
  · exact mem_reverse
  · exact Iff.rfl

theorem bestFirst_pairwise (side : Side) (m : OrdMap Price V) :
    (bestFirst side m).Pairwise fun a b => Ahead side a.1 b.1 ∧ a.1 ≠ b.1 := by
  cases side
  · refine pairwise_reverse.2 (m.sorted.imp fun h => ⟨?_, ?_⟩)
    · exact h.le
    · exact h.ne'
  · exact m.sorted.imp fun h => ⟨h.le, h.ne⟩

/-- The best price is stored and no stored price is ahead of it. -/
theorem best_eq_some :
    best side m = some p ↔
      (∃ v, m.get? p = some v) ∧ ∀ p' v, m.get? p' = some v → Ahead side p p' := by
  have sorted := bestFirst_pairwise side m
  rw [best, Option.map_eq_some_iff]
  constructor
  · rintro ⟨e, first, rfl⟩
    obtain ⟨rest, shape⟩ := head?_eq_some_iff.1 first
    rw [shape] at sorted
    refine ⟨⟨e.2, mem_bestFirst.1 (shape ▸ mem_cons_self)⟩, fun p' v stored => ?_⟩
    have listed : (p', v) ∈ bestFirst side m := mem_bestFirst.2 stored
    rw [shape] at listed
    obtain here | later := mem_cons.1 listed
    · rw [← here]
      exact Ahead.refl side p'
    · exact ((pairwise_cons.1 sorted).1 _ later).1
  · rintro ⟨⟨v, stored⟩, first⟩
    have listed : (p, v) ∈ bestFirst side m := mem_bestFirst.2 stored
    cases shape : bestFirst side m with
    | nil => simp [shape] at listed
    | cons e rest =>
      refine ⟨e, rfl, ?_⟩
      have stored' : m.get? e.1 = some e.2 := mem_bestFirst.1 (shape ▸ mem_cons_self)
      rw [shape] at listed sorted
      obtain here | later := mem_cons.1 listed
      · rw [← here]
      · exact ((pairwise_cons.1 sorted).1 _ later).1.antisymm (first _ _ stored')

theorem best_eq_none : best side m = none ↔ ∀ p, m.get? p = none := by
  rw [best, Option.map_eq_none_iff, head?_eq_none_iff]
  constructor
  · intro empty p
    rw [Option.eq_none_iff_forall_ne_some]
    intro v stored
    have listed : (p, v) ∈ bestFirst side m := mem_bestFirst.2 stored
    simp [empty] at listed
  · intro absent
    rw [eq_nil_iff_forall_not_mem]
    intro e listed
    simpa [absent] using mem_bestFirst.1 listed

theorem best_mapValues {W : Type} (side : Side) (m : OrdMap Price V) (f : V → W) :
    best side (m.mapValues f) = best side m := by
  cases side <;> simp [best, bestFirst, OrdMap.mapValues, ← map_reverse, head?_map,
    Function.comp_def]

variable {m : OrdMap Price (List V)}

theorem bestFirst_putQueue {q q' : List V}
    {rest : List (Price × List V)} (shape : bestFirst side m = (p, q) :: rest) :
    bestFirst side (putQueue m p q') = if q'.isEmpty then rest else (p, q') :: rest := by
  have sorted := bestFirst_pairwise side m
  rw [shape, pairwise_cons] at sorted
  obtain ⟨first, sorted⟩ := sorted
  have sorted' : (if q'.isEmpty then rest else (p, q') :: rest).Pairwise
      fun a b => Ahead side a.1 b.1 ∧ a.1 ≠ b.1 := by
    split_ifs
    · exact sorted
    · exact pairwise_cons.2 ⟨first, sorted⟩
  have distinct : ∀ {l : List (Price × List V)},
      l.Pairwise (fun a b => Ahead side a.1 b.1 ∧ a.1 ≠ b.1) → l.Nodup := fun h =>
    h.imp fun apart same => apart.2 (congrArg Prod.fst same)
  apply Perm.eq_of_pairwise
    (fun a b _ _ hab hba => absurd (hab.1.antisymm hba.1) hab.2)
    (bestFirst_pairwise side _) sorted'
  rw [perm_ext_iff_of_nodup (distinct (bestFirst_pairwise side _)) (distinct sorted')]
  rintro ⟨k, w⟩
  have before : k ≠ p → ((k, w) ∈ rest ↔ m.get? k = some w) := fun other => by
    rw [← @mem_bestFirst _ side m (k, w), shape, mem_cons]
    exact ⟨.inr, fun h => h.resolve_left fun same => other (congrArg Prod.fst same)⟩
  rw [mem_bestFirst, get?_putQueue]
  by_cases here : k = p
  · subst here
    have absent : (k, w) ∉ rest := fun listed => (first _ listed).2 rfl
    rw [if_pos rfl]
    split_ifs <;> simp [absent, eq_comm]
  · rw [if_neg here, ← before here]
    split_ifs <;> simp [here]

theorem best_putQueue {q : List V} (first : best side m = some p) (nonempty : q ≠ []) :
    best side (putQueue m p q) = some p := by
  obtain ⟨-, ahead⟩ := best_eq_some.1 first
  have kept : (putQueue m p q).get? p = some q := by
    rw [get?_putQueue, if_pos rfl, if_neg fun h => nonempty (isEmpty_iff.1 h)]
  refine best_eq_some.2 ⟨⟨q, kept⟩, fun p' v stored => ?_⟩
  rw [get?_putQueue] at stored
  split_ifs at stored with here none
  · rw [here]
    exact Ahead.refl side p
  · exact ahead p' v stored

/-! ## The orders of a side, in priority order -/

/-- The orders of a side with their prices: best price first, oldest first. -/
def priority (side : Side) (m : OrdMap Price (List V)) : List (Price × V) :=
  (bestFirst side m).flatMap fun e => e.2.map fun r => (e.1, r)

/-- No stored queue is empty. -/
def Stocked (m : OrdMap Price (List V)) : Prop := ∀ p q, m.get? p = some q → q ≠ []

theorem Stocked.putQueue (h : Stocked m) (p : Price) (q : List V) :
    Stocked (putQueue m p q) := by
  intro p' q' stored
  rw [get?_putQueue] at stored
  split_ifs at stored with here none
  · obtain rfl := Option.some.inj stored
    exact fun empty => none (isEmpty_iff.2 empty)
  · exact h p' q' stored

theorem mem_priority {x : Price × V} :
    x ∈ priority side m ↔ ∃ q, m.get? x.1 = some q ∧ x.2 ∈ q := by
  simp only [priority, mem_flatMap, Prod.exists, mem_bestFirst, mem_map]
  constructor
  · rintro ⟨p, q, stored, r, hr, rfl⟩
    exact ⟨q, stored, hr⟩
  · rintro ⟨q, stored, hr⟩
    exact ⟨x.1, q, stored, x.2, hr, rfl⟩

theorem priority_perm (side : Side) (m : OrdMap Price (List V)) :
    ((priority side m).map Prod.snd).Perm (flatten m) := by
  have values : (priority side m).map Prod.snd = (bestFirst side m).flatMap Prod.snd := by
    simp [priority, map_flatMap, Function.comp_def]
  rw [values]
  cases side
  · exact (reverse_perm _).flatMap_right _
  · exact Perm.refl _

/-- The first order of a side is the oldest one at the best price. -/
theorem priority_eq_cons (stocked : Stocked m) {r : V}
    {rest : List (Price × V)} (shape : priority side m = (p, r) :: rest) :
    ∃ q levels, bestFirst side m = (p, r :: q) :: levels ∧
      rest = q.map (fun x => (p, x)) ++ levels.flatMap fun e => e.2.map fun x => (e.1, x) := by
  rw [priority] at shape
  cases first : bestFirst side m with
  | nil => simp [first] at shape
  | cons e levels =>
    obtain ⟨p', queue⟩ := e
    have stored : m.get? p' = some queue := by
      have listed : (p', queue) ∈ bestFirst side m := first ▸ mem_cons_self
      exact mem_bestFirst.1 listed
    cases queue with
    | nil => exact absurd rfl (stocked _ _ stored)
    | cons r' q =>
      simp only [first, flatMap_cons, map_cons, cons_append, cons.injEq, Prod.mk.injEq] at shape
      obtain ⟨⟨rfl, rfl⟩, rfl⟩ := shape
      exact ⟨q, levels, rfl, rfl⟩

theorem priority_eq_nil (stocked : Stocked m) (shape : priority side m = []) :
    best side m = none := by
  rw [best_eq_none]
  intro p
  rw [Option.eq_none_iff_forall_ne_some]
  intro q stored
  obtain ⟨r, rest, rfl⟩ := exists_cons_of_ne_nil (stocked p q stored)
  have listed : (p, r) ∈ priority side m := mem_priority.2 ⟨_, stored, mem_cons_self⟩
  simp [shape] at listed

section Head

variable {m : OrdMap Price (List V)} {r : V} {q : List V} {levels : List (Price × List V)}
  (shape : bestFirst side m = (p, r :: q) :: levels)

include shape

theorem best_of_bestFirst : best side m = some p := by
  rw [best, shape]
  rfl

theorem get?_of_bestFirst : m.get? p = some (r :: q) := by
  have listed : (p, r :: q) ∈ bestFirst side m := shape ▸ mem_cons_self
  exact mem_bestFirst.1 listed

theorem priority_drop : priority side (putQueue m p q) =
    q.map (fun x => (p, x)) ++ levels.flatMap fun e => e.2.map fun x => (e.1, x) := by
  rw [priority, bestFirst_putQueue shape]
  split_ifs with none
  · simp [isEmpty_iff.1 none]
  · rfl

theorem priority_change (r' : V) : priority side (putQueue m p (r' :: q)) =
    (p, r') :: (q.map (fun x => (p, x)) ++ levels.flatMap fun e => e.2.map fun x => (e.1, x)) := by
  rw [priority, bestFirst_putQueue shape]
  rfl

end Head

theorem priority_ahead (side : Side) (m : OrdMap Price (List V)) :
    (priority side m).Pairwise fun a b => Ahead side a.1 b.1 := by
  rw [priority, flatMap, pairwise_flatten]
  constructor
  · intro l hl
    obtain ⟨e, -, rfl⟩ := mem_map.1 hl
    apply pairwise_of_forall_mem_list
    intro x hx y hy
    obtain ⟨_, -, rfl⟩ := mem_map.1 hx
    obtain ⟨_, -, rfl⟩ := mem_map.1 hy
    exact Ahead.refl side e.1
  · refine pairwise_map.2 ((bestFirst_pairwise side m).imp fun h x hx y hy => ?_)
    obtain ⟨_, -, rfl⟩ := mem_map.1 hx
    obtain ⟨_, -, rfl⟩ := mem_map.1 hy
    exact h.1

end Dexos.Clob.PriceTime
