import Dexos.Clob.Queue

/-!
# The indexes mirror the live orders

The id index, the account lists and the XOR cache are functions of the list of live
orders, up to its order. One lemma for each change of that list: an order enters, an order
leaves, the remaining quantity of an order changes.
-/

namespace Dexos.Clob

open Foundations List OrdMap Function Option OrderBook

/-- The XOR of the leaves of the live orders. -/
def leafXor (sha256 : Sha256) (live : List Slotted) : Digest :=
  live.foldr (fun x acc => orderLeaf sha256 x.2 ^^^ acc) 0

theorem leafXor_perm {sha256 : Sha256} {live live' : List Slotted}
    (h : live.Perm live') : leafXor sha256 live = leafXor sha256 live' := by
  apply h.foldr_eq'
  intro x _ y _ acc
  rw [← BitVec.xor_assoc, ← BitVec.xor_assoc, BitVec.xor_comm (orderLeaf sha256 y.2)]

/-- The stores agree with a list of live orders. -/
structure Mirror (sha256 : Sha256) (stored : Nat → Option Order)
    (idIndex : OrdMap OrderId Locator) (accountOrders : OrdMap AccountId (List OrderId))
    (xor : Digest) (live : List Slotted) : Prop where
  slots : (slotsOf live).Nodup
  ids : (live.map fun x => x.2.orderId).Nodup
  cells : ∀ x : Slotted, x ∈ live ↔ stored x.1 = some x.2
  index : ∀ id loc, idIndex.get? id = some loc ↔
    ∃ x ∈ live, x.2.orderId = id ∧ loc = ⟨x.1, x.2.side, x.2.account⟩
  ascending : ∀ account ids, accountOrders.get? account = some ids → ids.Pairwise (· < ·)
  owned : ∀ account id, id ∈ (accountOrders.get? account).getD [] ↔
    ∃ x ∈ live, x.2.account = account ∧ x.2.orderId = id
  leaves : xor = leafXor sha256 live

namespace Mirror

variable {sha256 : Sha256} {stored : Nat → Option Order}
  {idIndex : OrdMap OrderId Locator} {accountOrders : OrdMap AccountId (List OrderId)}
  {xor : Digest} {live live' : List Slotted} {stored' : Nat → Option Order} {x : Slotted}

theorem perm (same : live.Perm live') (h : Mirror sha256 stored idIndex accountOrders xor live) :
    Mirror sha256 stored idIndex accountOrders xor live' where
  slots := (same.map Prod.fst).nodup_iff.1 h.slots
  ids := (same.map fun x => x.2.orderId).nodup_iff.1 h.ids
  cells x := by rw [← same.mem_iff, h.cells]
  index id loc := by simp only [h.index, same.mem_iff]
  ascending := h.ascending
  owned account id := by simp only [h.owned, same.mem_iff]
  leaves := h.leaves.trans (leafXor_perm same)

variable (h : Mirror sha256 stored idIndex accountOrders xor live)
include h

theorem index_of_mem (hx : x ∈ live) :
    idIndex.get? x.2.orderId = some ⟨x.1, x.2.side, x.2.account⟩ :=
  (h.index _ _).2 ⟨x, hx, rfl, rfl⟩

theorem index_eq_none {id : OrderId} : idIndex.get? id = none ↔ ∀ x ∈ live, x.2.orderId ≠ id := by
  rw [eq_none_iff_forall_ne_some]
  constructor
  · rintro absent x hx rfl
    exact absent _ (h.index_of_mem hx)
  · intro absent loc found
    obtain ⟨x, hx, same, -⟩ := (h.index _ _).1 found
    exact absent x hx same

theorem enter (free : stored x.1 = none) (fresh : idIndex.get? x.2.orderId = none)
    (written : stored' = update stored x.1 (some x.2)) :
    Mirror sha256 stored' (idIndex.insert x.2.orderId ⟨x.1, x.2.side, x.2.account⟩)
      (accountOrders.insert x.2.account (((accountOrders.get? x.2.account).getD []).insertIdx
          (searchPosition ((accountOrders.get? x.2.account).getD []) x.2.orderId) x.2.orderId))
      (xor ^^^ orderLeaf sha256 x.2) (x :: live) := by
  have other := h.index_eq_none.1 fresh
  have unowned : x.2.orderId ∉ (accountOrders.get? x.2.account).getD [] := by
    intro listed
    obtain ⟨y, hy, -, same⟩ := (h.owned _ _).1 listed
    exact other y hy same
  have unslotted : x.1 ∉ slotsOf live := by
    intro listed
    obtain ⟨y, hy, same⟩ := mem_map.1 listed
    have := (h.cells y).1 hy
    simp [same, free] at this
  constructor
  · exact nodup_cons.2 ⟨unslotted, h.slots⟩
  · refine nodup_cons.2 ⟨fun listed => ?_, h.ids⟩
    obtain ⟨y, hy, same⟩ := mem_map.1 listed
    exact other y hy same
  · intro y
    rw [written, mem_cons, h.cells]
    by_cases here : y.1 = x.1
    · rw [here, free]
      simp [Prod.ext_iff, here, eq_comm]
    · rw [update_of_ne here]
      refine or_iff_right fun same => here ?_
      rw [same]
  · intro id loc
    rw [get?_insert]
    split_ifs with here
    · subst here
      simp only [mem_cons, exists_eq_or_imp, some.injEq, true_and]
      constructor
      · exact fun same => .inl same.symm
      · rintro (same | ⟨y, hy, same, -⟩)
        · exact same.symm
        · exact absurd same (other y hy)
    · rw [h.index]
      simp only [mem_cons, exists_eq_or_imp]
      exact (or_iff_right fun same => here same.1.symm).symm
  · intro account ids listed
    rw [get?_insert] at listed
    split_ifs at listed with here
    · obtain rfl := some.inj listed
      rw [insertIdx_searchPosition]
      apply pairwise_orderedInsert _ unowned
      cases held : accountOrders.get? x.2.account with
      | none => exact List.Pairwise.nil
      | some ids => exact h.ascending _ ids held
    · exact h.ascending _ _ listed
  · intro account id
    rw [get?_insert]
    simp only [mem_cons, exists_eq_or_imp]
    split_ifs with here
    · subst here
      rw [getD_some, insertIdx_searchPosition, mem_orderedInsert_iff, h.owned]
      simp [eq_comm]
    · rw [h.owned]
      exact (or_iff_right fun same => here same.1.symm).symm
  · rw [h.leaves, BitVec.xor_comm]
    rfl

omit h

theorem leave (h : Mirror sha256 stored idIndex accountOrders xor (x :: live))
    (cleared : stored' = update stored x.1 none) :
    Mirror sha256 stored' (idIndex.erase x.2.orderId)
      (delist accountOrders x.2.account x.2.orderId)
      (xor ^^^ orderLeaf sha256 x.2) live := by
  obtain ⟨unslotted, slots⟩ := nodup_cons.1 h.slots
  obtain ⟨unnamed, ids⟩ := nodup_cons.1 h.ids
  have other : ∀ y ∈ live, y.2.orderId ≠ x.2.orderId := fun y hy same =>
    unnamed (mem_map.2 ⟨y, hy, same⟩)
  obtain ⟨mine, held, listed⟩ : ∃ mine, accountOrders.get? x.2.account = some mine ∧
      x.2.orderId ∈ mine := by
    have listed := (h.owned _ _).2 ⟨x, mem_cons_self, rfl, rfl⟩
    cases held : accountOrders.get? x.2.account with
    | none => simp [held] at listed
    | some mine => exact ⟨mine, rfl, by simpa [held] using listed⟩
  have ascending := h.ascending _ _ held
  have delisted : delist accountOrders x.2.account x.2.orderId =
      accountOrders.insert x.2.account (mine.erase x.2.orderId) := by
    obtain ⟨p, found, erased⟩ := binarySearch_of_mem ascending listed
    simp only [delist, held, found, erased]
  constructor
  · exact slots
  · exact ids
  · intro y
    rw [cleared]
    by_cases here : y.1 = x.1
    · rw [here]
      refine iff_of_false (fun hy => unslotted ?_) (by simp)
      exact here ▸ mem_map_of_mem hy
    · rw [update_of_ne here, ← h.cells, mem_cons]
      refine (or_iff_right fun same => here ?_).symm
      rw [same]
  · intro id loc
    rw [get?_erase]
    split_ifs with here
    · refine iff_of_false (by simp) ?_
      rintro ⟨y, hy, same, -⟩
      exact other y hy (same.trans here)
    · rw [h.index]
      simp only [mem_cons, exists_eq_or_imp]
      exact or_iff_right fun same => here same.1.symm
  · intro account ids found
    rw [delisted, get?_insert] at found
    split_ifs at found with here
    · obtain rfl := some.inj found
      exact pairwise_erase ascending
    · exact h.ascending _ _ found
  · intro account id
    have before := h.owned account id
    simp only [mem_cons, exists_eq_or_imp] at before
    rw [delisted, get?_insert]
    split_ifs with here
    · subst here
      rw [held, getD_some] at before
      rw [getD_some, mem_erase_iff ascending, before]
      constructor
      · rintro ⟨different, ⟨-, same⟩ | found⟩
        · exact absurd same.symm different
        · exact found
      · rintro ⟨y, hy, mineToo, rfl⟩
        exact ⟨other y hy, .inr ⟨y, hy, mineToo, rfl⟩⟩
    · rw [before]
      exact or_iff_right fun same => here same.1.symm
  · rw [h.leaves, leafXor, foldr_cons, BitVec.xor_comm, ← BitVec.xor_assoc, BitVec.xor_self,
      BitVec.zero_xor]
    rfl

theorem adjust (h : Mirror sha256 stored idIndex accountOrders xor (x :: live))
    (remaining : Quantity)
    (written : stored' = update stored x.1 (some (x.2.withRemaining remaining))) :
    Mirror sha256 stored' idIndex accountOrders
      (xor ^^^ orderLeaf sha256 x.2 ^^^ orderLeaf sha256 (x.2.withRemaining remaining))
      ((x.1, x.2.withRemaining remaining) :: live) where
  __ := h
  cells y := by
    have before := h.cells y
    rw [mem_cons] at before ⊢
    rw [written]
    by_cases here : y.1 = x.1
    · rw [here, update_self, some.injEq]
      have unslotted := (nodup_cons.1 h.slots).1
      constructor
      · rintro (rfl | hy)
        · rfl
        · exact absurd (here ▸ mem_map_of_mem hy) unslotted
      · intro same
        exact .inl (Prod.ext here same.symm)
    · rw [update_of_ne here, ← before]
      constructor <;>
      · rintro (rfl | hy)
        · exact absurd rfl here
        · exact .inr hy
  index id loc := by
    have before := h.index id loc
    simp only [mem_cons, exists_eq_or_imp] at before ⊢
    exact before
  owned account id := by
    have before := h.owned account id
    simp only [mem_cons, exists_eq_or_imp] at before ⊢
    exact before
  leaves := by
    change _ = orderLeaf sha256 (x.2.withRemaining remaining) ^^^ leafXor sha256 live
    have before : xor = orderLeaf sha256 x.2 ^^^ leafXor sha256 live := h.leaves
    rw [before, BitVec.xor_comm (orderLeaf sha256 x.2),
      BitVec.xor_assoc (leafXor sha256 live) (orderLeaf sha256 x.2) (orderLeaf sha256 x.2),
      BitVec.xor_self, BitVec.xor_zero, BitVec.xor_comm]

end Mirror

end Dexos.Clob
