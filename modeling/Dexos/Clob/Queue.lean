import Mathlib.Algebra.Order.BigOperators.Group.List
import Dexos.Clob.Book

/-!
# Levels as queues

A level stands for the queue of its orders with their slots. The link writes of
`push_back` and `unlink` append to that queue and take an element out of it; they keep
the orders stored in the slab.
-/

namespace Dexos.Clob

open Foundations List Function Bounded

variable {touched : List Nat} {book : SideBook} {slab : Slab Node}

abbrev Slotted := Nat × Order

def Node.cell (n : Node) : Cell Order := ⟨n.toOrder, n.prev, n.next⟩

/-- The slab as a heap of linked orders. -/
def heapOf (slab : Slab Node) : Nat → Option (Cell Order) := fun s => (slab.get s).map Node.cell

def quantity (q : List Slotted) : Int := (q.map fun x => x.2.remaining.val).sum

abbrev slotsOf (q : List Slotted) : List Nat := q.map Prod.fst

/-- The level that stands for a queue. -/
def levelOf (q : List Slotted) : Level where
  head := firstAddress nil q
  tail := lastAddress nil q
  totalQty := clamp (by decide) (quantity q)
  count := q.length

@[simp] theorem quantity_nil : quantity [] = 0 := rfl

@[simp] theorem quantity_cons (x : Slotted) (q : List Slotted) :
    quantity (x :: q) = x.2.remaining.val + quantity q := by
  simp [quantity]

@[simp] theorem quantity_append (q q' : List Slotted) :
    quantity (q ++ q') = quantity q + quantity q' := by
  simp [quantity]

variable {l q r : List Slotted} {x : Slotted}

theorem quantity_nonneg (positive : ∀ x ∈ q, 0 < x.2.remaining.val) : 0 ≤ quantity q := by
  apply sum_nonneg
  intro v hv
  obtain ⟨x, hx, rfl⟩ := mem_map.1 hv
  exact (positive x hx).le

theorem levelOf_totalQty (nonneg : 0 ≤ quantity q) (fits : quantity q ≤ i64Max) :
    (levelOf q).totalQty.val = quantity q :=
  clamp_val (by decide) (le_trans (by decide) nonneg) fits

/-! ## Link writes -/

/-- The slabs before and after link writes to some slots: the stored orders are the same. -/
structure Relinked (touched : List Nat) (slab slab' : Slab Node) : Prop where
  sound : slab.Sound → slab'.Sound
  orders : ∀ s, (slab'.get s).map Node.toOrder = (slab.get s).map Node.toOrder
  elsewhere : ∀ s, s ∉ touched → slab'.get s = slab.get s
  len : slab'.len = slab.len
  capacity : slab'.capacity = slab.capacity

theorem Relinked.refl (touched : List Nat) (slab : Slab Node) : Relinked touched slab slab :=
  ⟨id, fun _ => rfl, fun _ _ => rfl, rfl, rfl⟩

theorem Relinked.trans {a b c : Slab Node} (first : Relinked touched a b)
    (second : Relinked touched b c) : Relinked touched a c where
  sound h := second.sound (first.sound h)
  orders s := (second.orders s).trans (first.orders s)
  elsewhere s hs := (second.elsewhere s hs).trans (first.elsewhere s hs)
  len := second.len.trans first.len
  capacity := second.capacity.trans first.capacity

variable (slab : Slab Node)

theorem Relinked.modify {s : Nat} (f : Node → Node) (hs : s ∈ touched)
    (keeps : ∀ n, (f n).toOrder = n.toOrder) :
    Relinked touched slab (slab.modify s f) where
  sound h := h.modify s f
  orders s' := by
    rw [Slab.get_modify]
    by_cases here : s' = s
    · subst here
      rw [update_self, Option.map_map]
      congr 1
      ext n
      exact keeps n
    · rw [update_of_ne here]
  elsewhere s' hs' := by
    rw [Slab.get_modify, update_of_ne]
    rintro rfl
    exact hs' hs
  len := Slab.len_modify _ _ _
  capacity := Slab.capacity_modify _ _ _

theorem heapOf_modify (s : Nat) {f : Node → Node} {g : Cell Order → Cell Order}
    (agree : ∀ n, (f n).cell = g n.cell) :
    heapOf (slab.modify s f) = update (heapOf slab) s ((heapOf slab s).map g) := by
  ext1 s'
  rw [heapOf, Slab.get_modify]
  by_cases here : s' = s
  · subst here
    rw [update_self, update_self, heapOf, Option.map_map, Option.map_map]
    congr 1
    ext1 n
    exact agree n
  · rw [update_of_ne here, update_of_ne here]
    rfl

theorem heapOf_setNext (s next : Nat) :
    heapOf (slab.modify s fun n => { n with next := next }) = setNext (heapOf slab) s next :=
  heapOf_modify slab s fun _ => rfl

theorem heapOf_setPrev (s prev : Nat) :
    heapOf (slab.modify s fun n => { n with prev := prev }) = setPrev (heapOf slab) s prev :=
  heapOf_modify slab s fun _ => rfl

variable {slab}

theorem heapOf_eq_some {s : Nat} {c : Cell Order} :
    heapOf slab s = some c ↔ ∃ n, slab.get s = some n ∧ n.cell = c := by
  rw [heapOf, Option.map_eq_some_iff]

theorem nil_notMem_slots (sound : slab.Sound) {before after : Nat}
    (linked : Segment (heapOf slab) before q after) : nil ∉ slotsOf q := by
  intro listed
  obtain ⟨x, hx, same⟩ := mem_map.1 listed
  obtain ⟨c, stored, -⟩ := linked.exists_cell hx
  obtain ⟨n, live, -⟩ := heapOf_eq_some.1 stored
  exact (sound.lt_nil live).ne same

theorem pushBack_spec {slot : Nat} {node : Node} (sound : slab.Sound)
    (live : slab.get slot = some node)
    (level : book.levels.get? node.price = if q.isEmpty then none else some (levelOf q))
    (linked : Segment (heapOf slab) nil q nil) (distinct : (slotsOf q).Nodup)
    (fresh : slot ∉ slotsOf q) (short : q.length < u32Max) (nonneg : 0 ≤ quantity q)
    (positive : 0 < node.remaining.val) (fits : quantity q + node.remaining.val ≤ i64Max) :
    ∃ slab', book.pushBack slab slot = some ({ book with
          levels := book.levels.insert node.price (levelOf (q ++ [(slot, node.toOrder)])) },
            slab') ∧ Segment (heapOf slab') nil (q ++ [(slot, node.toOrder)]) nil ∧
      Relinked (slot :: slotsOf q) slab slab' := by
  have proper := nil_notMem_slots sound linked
  have stored : heapOf slab slot = some node.cell := heapOf_eq_some.2 ⟨node, live, rfl⟩
  have current : (book.levels.get? node.price).getD Level.empty = levelOf q := by
    rw [level]
    cases q <;> rfl
  have total : (levelOf q).totalQty.checkedAdd node.remaining =
      some (levelOf (q ++ [(slot, node.toOrder)])).totalQty := by
    rw [checkedAdd_eq_some, levelOf_totalQty nonneg (by omega), levelOf_totalQty]
    · simp
    · simp only [quantity_append, quantity_cons, quantity_nil]
      omega
    · simp only [quantity_append, quantity_cons, quantity_nil]
      omega
  have count : (levelOf q).count < u32Max := short
  have tail : (levelOf q).tail = lastAddress nil q := rfl
  by_cases empty : q = []
  · -- The first order of a level: the links of the node are cleared.
    subst empty
    refine ⟨slab.modify slot fun n => { n with prev := nil, next := nil }, ?_, ?_, ?_⟩
    · simp only [SideBook.pushBack, live, current]
      rw [if_pos (show (levelOf []).tail = nil from rfl)]
      simp only [count, if_true, total]
      rfl
    · refine ⟨?_, trivial⟩
      rw [heapOf_modify slab slot (g := fun c => { c with prev := nil, next := nil })
        fun _ => rfl, update_self, stored]
      rfl
    · exact Relinked.modify slab _ mem_cons_self fun _ => rfl
  · have last : lastAddress nil q ≠ nil := (lastAddress_eq_iff proper).not.2 empty
    have listed : lastAddress nil q ∈ slotsOf q := by
      obtain ⟨x, rest, rfl⟩ := exists_cons_of_ne_nil empty
      exact lastAddress_mem nil
    have other : slot ≠ lastAddress nil q := fun same => fresh (same ▸ listed)
    refine ⟨(slab.modify (lastAddress nil q) fun t => { t with next := slot }).modify slot
      fun n => { n with prev := lastAddress nil q, next := nil }, ?_, ?_, ?_⟩
    · simp only [SideBook.pushBack, live, current, tail]
      rw [if_neg last]
      simp only [count, if_true, total]
      have first : firstAddress nil q = firstAddress nil (q ++ [(slot, node.toOrder)]) := by
        obtain ⟨x, rest, rfl⟩ := exists_cons_of_ne_nil empty
        rfl
      simp [levelOf, first, lastAddress]
    · rw [segment_append]
      rw [heapOf_modify _ slot (g := fun c => { c with prev := lastAddress nil q, next := nil })
        fun _ => rfl, heapOf_setNext]
      constructor
      · have moved := linked.retarget_last slot distinct proper
        rw [if_neg last] at moved
        refine moved.congr fun s hs => update_of_ne ?_ _ _
        rintro rfl
        exact fresh hs
      · refine ⟨?_, trivial⟩
        rw [update_self, setNext, update_of_ne other, stored]
        rfl
    · apply Relinked.trans
      · exact Relinked.modify slab (fun t => { t with next := slot })
          (mem_cons_of_mem _ listed) fun _ => rfl
      · exact Relinked.modify _ _ mem_cons_self fun _ => rfl

/-! ## Taking out -/

theorem lastAddress_mem_of_ne {z : Nat} (h : lastAddress z q ≠ z) :
    lastAddress z q ∈ slotsOf q := by
  cases q with
  | nil => exact absurd rfl h
  | cons x rest => exact lastAddress_mem z

theorem firstAddress_mem_of_ne {z : Nat} (h : firstAddress z q ≠ z) :
    firstAddress z q ∈ slotsOf q := by
  cases q with
  | nil => exact absurd rfl h
  | cons x rest => exact mem_cons_self

/-- The link writes of `unlink`. -/
def spliceOut (slab : Slab Node) (slot prev next : Nat) : Slab Node :=
  let slab := if prev ≠ nil then slab.modify prev fun p => { p with next := next } else slab
  let slab := if next ≠ nil then slab.modify next fun n => { n with prev := prev } else slab
  slab.modify slot fun n => { n with prev := nil, next := nil }

theorem spliceOut_relinked {slot prev next : Nat} (hslot : slot ∈ touched)
    (hprev : prev ≠ nil → prev ∈ touched) (hnext : next ≠ nil → next ∈ touched) :
    Relinked touched slab (spliceOut slab slot prev next) := by
  refine Relinked.trans ?_
    (Relinked.modify _ (fun n => { n with prev := nil, next := nil }) hslot fun _ => rfl)
  split_ifs with after before before
  · exact (Relinked.modify slab (fun p => { p with next := next }) (hprev before)
      fun _ => rfl).trans (Relinked.modify _ _ (hnext after) fun _ => rfl)
  · exact Relinked.modify slab _ (hnext after) fun _ => rfl
  · exact Relinked.modify slab _ (hprev before) fun _ => rfl
  · exact Relinked.refl _ _

/-- Splicing an element out joins the queue before it to the queue after it. -/
theorem spliceOut_segment (linked : Segment (heapOf slab) nil (l ++ x :: r) nil)
    (distinct : (slotsOf (l ++ x :: r)).Nodup) (proper : nil ∉ slotsOf (l ++ x :: r)) :
    Segment (heapOf (spliceOut slab x.1 (lastAddress nil l) (firstAddress nil r))) nil (l ++ r)
      nil := by
  obtain ⟨before, -, after⟩ := segment_append.1 linked
  simp only [slotsOf, map_append, map_cons] at distinct proper
  obtain ⟨leftDistinct, tailDistinct, apart⟩ := nodup_append.1 distinct
  obtain ⟨notRight, rightDistinct⟩ := nodup_cons.1 tailDistinct
  have leftProper : nil ∉ l.map Prod.fst := fun h => proper (mem_append_left _ h)
  have rightProper : nil ∉ r.map Prod.fst := fun h =>
    proper (mem_append_right _ (mem_cons_of_mem _ h))
  set last := lastAddress nil l
  set first := firstAddress nil r
  set joined := if last = nil then heapOf slab else setNext (heapOf slab) last first with join
  -- The three writes touch the last slot of `l`, the first slot of `r` and the slot itself.
  have written : ∀ s, s ≠ x.1 → heapOf (spliceOut slab x.1 last first) s =
      (if first = nil then joined else setPrev joined first last) s := by
    intro s hs
    rw [spliceOut, heapOf_modify _ x.1 (g := fun c => { c with prev := nil, next := nil })
      fun _ => rfl, update_of_ne hs]
    simp only [join, ne_eq, ite_not]
    split_ifs with a b b
    · rfl
    · rw [heapOf_setNext]
    · rw [heapOf_setPrev]
    · rw [heapOf_setPrev, heapOf_setNext]
  rw [segment_append]
  constructor
  · have moved := before.retarget_last first leftDistinct leftProper
    refine moved.congr fun s hs => ?_
    have other : first ≠ nil → s ≠ first := by
      rintro proper rfl
      exact apart _ hs _ (mem_cons_of_mem _ (firstAddress_mem_of_ne proper)) rfl
    rw [written s (apart s hs x.1 mem_cons_self), join]
    split_ifs with a b b
    · rfl
    · rfl
    · rw [setPrev, update_of_ne (other a)]
    · rw [setPrev, update_of_ne (other a)]
  · have kept : Segment joined x.1 r nil := by
      refine after.congr fun s hs => ?_
      rw [join]
      split_ifs with b
      · rfl
      · have other : s ≠ last := by
          rintro rfl
          exact apart _ (lastAddress_mem_of_ne b) _ (mem_cons_of_mem _ hs) rfl
        rw [setNext, update_of_ne other]
    have moved := kept.retarget_first last rightDistinct rightProper
    refine moved.congr fun s hs => written s ?_
    rintro rfl
    exact notRight hs

/-- The level that `unlink` computes is the level of the remaining queue. -/
theorem levelOf_spliced (proper : nil ∉ slotsOf (l ++ x :: r)) {total : Quantity}
    (sum : total.val = quantity (l ++ r)) (nonneg : 0 ≤ quantity (l ++ r))
    (fits : quantity (l ++ r) ≤ i64Max) :
    levelOf (l ++ r) =
      { head := if lastAddress nil l = nil then firstAddress nil r else (levelOf (l ++ x :: r)).head
        tail := if firstAddress nil r = nil then lastAddress nil l else (levelOf (l ++ x :: r)).tail
        totalQty := total
        count := (levelOf (l ++ x :: r)).count - 1 } := by
  simp only [slotsOf, map_append, map_cons] at proper
  have leftProper : nil ∉ l.map Prod.fst := fun h => proper (mem_append_left _ h)
  have rightProper : nil ∉ r.map Prod.fst := fun h =>
    proper (mem_append_right _ (mem_cons_of_mem _ h))
  have amount : (levelOf (l ++ r)).totalQty = total :=
    Subtype.ext ((levelOf_totalQty nonneg fits).trans sum.symm)
  have first : firstAddress nil (l ++ r) =
      if lastAddress nil l = nil then firstAddress nil r else firstAddress nil (l ++ x :: r) := by
    split_ifs with none
    · rw [(lastAddress_eq_iff leftProper).1 none, nil_append]
    · cases l with
      | nil => exact absurd rfl none
      | cons y rest => rfl
  have last : lastAddress nil (l ++ r) =
      if firstAddress nil r = nil then lastAddress nil l else lastAddress nil (l ++ x :: r) := by
    split_ifs with none
    · rw [(firstAddress_eq_iff rightProper).1 none, append_nil]
    · cases r with
      | nil => exact absurd rfl none
      | cons y rest => simp [lastAddress]
  rw [← amount, levelOf, first, last]
  simp [levelOf]

theorem unlink_spec (sound : slab.Sound)
    (level : book.levels.get? x.2.price = some (levelOf (l ++ x :: r)))
    (linked : Segment (heapOf slab) nil (l ++ x :: r) nil)
    (distinct : (slotsOf (l ++ x :: r)).Nodup) (nonneg : 0 ≤ quantity (l ++ r))
    (positive : 0 < x.2.remaining.val) (fits : quantity (l ++ x :: r) ≤ i64Max) :
    ∃ slab', book.unlink slab x.1 = some ({ book with
          levels := if (l ++ r).isEmpty then book.levels.erase x.2.price
            else book.levels.insert x.2.price (levelOf (l ++ r)) }, slab') ∧
      Segment (heapOf slab') nil (l ++ r) nil ∧ Relinked (slotsOf (l ++ x :: r)) slab slab' := by
  have proper := nil_notMem_slots sound linked
  obtain ⟨node, live, stored⟩ := heapOf_eq_some.1 (segment_append.1 linked).2.1
  obtain ⟨same, before, after⟩ : node.toOrder = x.2 ∧ node.prev = lastAddress nil l ∧
      node.next = firstAddress nil r := by
    simpa [Node.cell] using stored
  refine ⟨spliceOut slab x.1 (lastAddress nil l) (firstAddress nil r), ?_,
    spliceOut_segment linked distinct proper, ?_⟩
  · have price : node.price = x.2.price := by rw [← same]
    have remaining : node.remaining = x.2.remaining := by rw [← same]
    have split : quantity (l ++ x :: r) = quantity (l ++ r) + x.2.remaining.val := by
      simp only [quantity_append, quantity_cons]
      omega
    obtain ⟨total, difference⟩ : ∃ total,
        (levelOf (l ++ x :: r)).totalQty.checkedSub x.2.remaining = some total := by
      refine ⟨clamp (by decide) (quantity (l ++ r)), checkedSub_eq_some.2 ?_⟩
      rw [levelOf_totalQty (by omega) fits, clamp_val (by decide) (le_trans (by decide) nonneg)]
      · omega
      · exact le_trans (by omega) fits
    have sum : total.val = quantity (l ++ r) := by
      rw [checkedSub_eq_some.1 difference, levelOf_totalQty (by omega) fits]
      omega
    have spliced := levelOf_spliced proper sum nonneg (by omega)
    have count : (levelOf (l ++ x :: r)).count = (l ++ r).length + 1 := by
      simp only [levelOf, length_append, length_cons]
      omega
    have empty : (l ++ r).isEmpty = decide ((levelOf (l ++ x :: r)).count - 1 = 0) := by
      rw [count, Nat.add_sub_cancel, Bool.eq_iff_iff, List.isEmpty_iff, decide_eq_true_eq,
        List.length_eq_zero_iff]
    have some_left : (levelOf (l ++ x :: r)).count ≠ 0 := by omega
    rw [spliced, empty]
    simp only [SideBook.unlink, live, price, level, before, after, remaining, spliceOut]
    by_cases p : lastAddress nil l = nil <;> by_cases n : firstAddress nil r = nil <;>
      simp only [p, n, ne_eq, not_true, not_false_eq_true, if_true, if_false, some_left,
        difference, decide_eq_true_eq] <;>
      split_ifs <;> rfl
  · apply spliceOut_relinked
    · simp [slotsOf]
    · intro h
      simp only [slotsOf, map_append, mem_append]
      exact .inl (lastAddress_mem_of_ne h)
    · intro h
      simp only [slotsOf, map_append, mem_append, map_cons, mem_cons]
      exact .inr (.inr (firstAddress_mem_of_ne h))

/-! ## Filling the head -/

/-- Writing a new remaining quantity into the head of a queue. -/
theorem modify_head_segment (linked : Segment (heapOf slab) nil (x :: r) nil)
    (distinct : (slotsOf (x :: r)).Nodup) (remaining : Quantity) :
    Segment (heapOf (slab.modify x.1 fun n => { n with remaining := remaining })) nil
      ((x.1, x.2.withRemaining remaining) :: r) nil := by
  obtain ⟨fresh, -⟩ := nodup_cons.1 distinct
  rw [heapOf_modify slab x.1
    (g := fun c => { c with item := c.item.withRemaining remaining }) fun _ => rfl]
  constructor
  · rw [update_self, linked.1]
    rfl
  · refine linked.2.congr fun s hs => update_of_ne ?_ _ _
    rintro rfl
    exact fresh hs

theorem reduceLevelQty_spec {price : Price} {remaining delta : Quantity}
    (level : book.levels.get? price = some (levelOf (x :: r))) (nonneg : 0 ≤ quantity r)
    (positive : 0 < remaining.val) (left : remaining.val = x.2.remaining.val - delta.val)
    (some_filled : 0 < delta.val) (fits : quantity (x :: r) ≤ i64Max) :
    book.reduceLevelQty price delta = some { book with
        levels := book.levels.insert price
          (levelOf ((x.1, x.2.withRemaining remaining) :: r)) } := by
  have before : quantity (x :: r) = x.2.remaining.val + quantity r := quantity_cons x r
  have after : quantity ((x.1, x.2.withRemaining remaining) :: r) =
      remaining.val + quantity r := quantity_cons _ r
  have total : (levelOf (x :: r)).totalQty.checkedSub delta =
      some (levelOf ((x.1, x.2.withRemaining remaining) :: r)).totalQty := by
    rw [checkedSub_eq_some, levelOf_totalQty (by omega) (by omega),
      levelOf_totalQty (by omega) fits]
    omega
  rw [SideBook.reduceLevelQty, level]
  simp only [total]
  rfl

end Dexos.Clob
