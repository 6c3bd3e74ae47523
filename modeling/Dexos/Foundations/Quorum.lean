import Mathlib.Algebra.Order.BigOperators.Group.Finset

/-!
# Weighted quorums

A finite population carries weights, and the weight of its faulty members is bounded. A
property has support `n` when members of total weight at least `n` have it. Two supports
that together exceed the total weight by more than the bound share a correct member.
-/

namespace Dexos.Foundations

open Finset

/-- A weighted population whose members outside `correct` weigh at most `faultBound`. -/
structure Population (V : Type*) [DecidableEq V] where
  members : Finset V
  weight : V → Nat
  correct : Finset V
  faultBound : Nat
  faulty_le : ∑ i ∈ members \ correct, weight i ≤ faultBound

namespace Population

variable {V : Type*} [DecidableEq V] (pop : Population V)

def weightOf (s : Finset V) : Nat := ∑ i ∈ s, pop.weight i

def total : Nat := pop.weightOf pop.members

/-- Members of total weight at least `n` satisfy the property. -/
def Supports (n : Nat) (p : V → Prop) : Prop :=
  ∃ s ⊆ pop.members, n ≤ pop.weightOf s ∧ ∀ i ∈ s, p i

variable {pop} {n m : Nat} {p q : V → Prop}

theorem weightOf_mono {s t : Finset V} (h : s ⊆ t) : pop.weightOf s ≤ pop.weightOf t :=
  sum_le_sum_of_subset h

/-- A set heavier than the fault bound has a correct member. -/
theorem exists_correct_mem {s : Finset V} (sub : s ⊆ pop.members)
    (heavy : pop.faultBound < pop.weightOf s) : ∃ i ∈ s, i ∈ pop.correct := by
  by_contra none
  push Not at none
  have faulty : s ⊆ pop.members \ pop.correct := fun i hi =>
    mem_sdiff.2 ⟨sub hi, none i hi⟩
  exact absurd ((weightOf_mono faulty).trans pop.faulty_le) (not_le.2 heavy)

theorem total_le_inter {s t : Finset V} (hs : s ⊆ pop.members) (ht : t ⊆ pop.members) :
    pop.weightOf s + pop.weightOf t ≤ pop.total + pop.weightOf (s ∩ t) := by
  calc pop.weightOf s + pop.weightOf t
      = pop.weightOf (s ∪ t) + pop.weightOf (s ∩ t) := sum_union_inter.symm
    _ ≤ pop.total + pop.weightOf (s ∩ t) :=
        Nat.add_le_add_right (weightOf_mono (union_subset hs ht)) _

theorem Supports.imp (h : pop.Supports n p) (imp : ∀ i, p i → q i) : pop.Supports n q := by
  obtain ⟨s, sub, heavy, all⟩ := h
  exact ⟨s, sub, heavy, fun i hi => imp i (all i hi)⟩

theorem Supports.anti (h : pop.Supports n p) (le : m ≤ n) : pop.Supports m p := by
  obtain ⟨s, sub, heavy, all⟩ := h
  exact ⟨s, sub, le.trans heavy, all⟩

theorem Supports.exists_correct (h : pop.Supports n p) (heavy : pop.faultBound < n) :
    ∃ i ∈ pop.correct, p i := by
  obtain ⟨s, sub, weight, all⟩ := h
  obtain ⟨i, hi, correct⟩ := exists_correct_mem sub (heavy.trans_le weight)
  exact ⟨i, correct, all i hi⟩

/-- Two supports beyond the total and the fault bound share a correct member. -/
theorem Supports.exists_correct_both (hp : pop.Supports n p) (hq : pop.Supports m q)
    (heavy : pop.total + pop.faultBound < n + m) : ∃ i ∈ pop.correct, p i ∧ q i := by
  obtain ⟨s, hs, sWeight, allP⟩ := hp
  obtain ⟨t, ht, tWeight, allQ⟩ := hq
  have inter := total_le_inter hs ht
  have shared : pop.faultBound < pop.weightOf (s ∩ t) := by omega
  obtain ⟨i, hi, correct⟩ :=
    exists_correct_mem (inter_subset_left.trans hs) shared
  rw [mem_inter] at hi
  exact ⟨i, correct, allP i hi.1, allQ i hi.2⟩

end Population

end Dexos.Foundations
