import Dexos.Clob.Layout

/-!
# The writes of the book

Every change of the resting orders is one of three writes: an order is removed, an order
rests, the head of a level is partially filled. Each one keeps the book in step with a
layout that changes in one queue.
-/

namespace Dexos.Clob

open Foundations List Option Function OrdMap OrderBook

namespace Represents

variable {sha256 : Sha256} {b : OrderBook} {L : Layout} {side : Side} {p : Price}
  {o : NewOrder} {remaining : Quantity}

variable (h : Represents sha256 b L)
include h

theorem remove {x : Slotted} {l r : List Slotted}
    (stored : (L.side side).get? p = some (l ++ x :: r)) :
    ∃ b', b.removeResting sha256 side x.1 = some b' ∧
      Represents sha256 b' (L.put side p (l ++ r)) ∧ Frame b b' := by
  have ok := (h.laid side).queues p _ stored
  obtain ⟨distinct, apart⟩ := h.slots_split stored
  obtain ⟨node, live, same⟩ := h.exists_node stored (x := x) (by simp)
  have member : x ∈ l ++ x :: r := by simp
  have price : x.2.price = p := (ok.placed x member).2
  have level : (b.sideBook side).levels.get? x.2.price = some (levelOf (l ++ x :: r)) := by
    rw [(h.laid side).levels_eq, get?_mapValues, price, stored]
    rfl
  have kept : ∀ y ∈ l ++ r, y ∈ l ++ x :: r := by
    intro y hy
    rw [mem_append, mem_cons]
    exact (mem_append.1 hy).imp_right .inr
  have nonneg : 0 ≤ quantity (l ++ r) := quantity_nonneg fun y hy => ok.positive y (kept y hy)
  obtain ⟨slab₁, unlinked, segment, relinked⟩ := unlink_spec h.sound level ok.linked distinct
    nonneg (ok.positive x member) ok.fits
  obtain ⟨node₁, live₁, same₁⟩ : ∃ node₁, slab₁.get x.1 = some node₁ ∧ node₁.toOrder = x.2 := by
    have orders := relinked.orders x.1
    rw [live, map_some, map_eq_some_iff] at orders
    obtain ⟨node₁, live₁, kept⟩ := orders
    exact ⟨node₁, live₁, kept.trans same⟩
  obtain ⟨slab₂, removed, sound₂, get₂, len₂, capacity₂⟩ :=
    (relinked.sound h.sound).remove_ok live₁
  have account : node.account = x.2.account := by rw [← same]
  have id : node.orderId = x.2.orderId := by rw [← same]
  -- The live orders without `x`.
  have split : L.live.Perm (x :: ((l ++ r) ++ L.others side p)) := by
    refine (L.live_perm side p).trans ?_
    rw [Layout.queue, stored]
    exact perm_middle.append_right _
  have fresh : x.1 ∉ slotsOf (l ++ r) := by
    have moved : (slotsOf (x :: (l ++ r))).Nodup :=
      (perm_middle.map Prod.fst).nodup_iff.1 distinct
    exact (nodup_cons.1 moved).1
  have heap₂ : ∀ s, s ≠ x.1 → heapOf slab₂ s = heapOf slab₁ s := by
    intro s hs
    rw [heapOf, heapOf, get₂, update_of_ne hs]
  rw [price] at unlinked
  refine ⟨b.withStores side (levelsWith b side p (l ++ r)) slab₂
      (b.idIndex.erase x.2.orderId) (delist b.accountOrders x.2.account x.2.orderId)
      (b.orderLeafXor ^^^ orderLeaf sha256 x.2), ?_, ?_, b.withStores_frame side _ _ _ _ _⟩
  · simp only [removeResting, live, sideBook_authToggle]
    rw [show (b.authToggle sha256 node.toOrder).slab = b.slab from rfl, unlinked]
    simp only [removed, account, id]
    rw [← same]
    cases side <;> rfl
  · apply h.rebuild
    · exact sound₂
    · exact capacity₂.trans relinked.capacity
    · have total := split.length_eq
      rw [← h.len, ← relinked.len] at total
      exact Nat.succ_injective (len₂.trans total)
    · intro y hy
      have outside := apart y hy
      have distinctSlot : y.1 ≠ x.1 := by
        intro clash
        exact outside (clash ▸ mem_map_of_mem member)
      rw [heap₂ _ distinctSlot, heapOf, heapOf, relinked.elsewhere _ outside]
    · intro some_left
      refine ⟨some_left, segment.congr fun s hs => heap₂ s ?_, fun y hy => ok.placed y (kept y hy),
        ok.priced, fun y hy => ok.positive y (kept y hy), ?_⟩
      · rintro rfl
        exact fresh hs
      · have total : quantity (l ++ x :: r) = quantity (l ++ r) + x.2.remaining.val := by
          simp only [quantity_append, quantity_cons]
          omega
        have positive := ok.positive x member
        have fits := ok.fits
        omega
    · apply (h.mirror.perm split).leave
      ext1 s
      by_cases here : s = x.1
      · rw [here, update_self, storedIn, get₂, update_self]
        rfl
      · rw [update_of_ne here, storedIn, get₂, update_of_ne here, relinked.orders]
        rfl

/-! ## Resting -/

theorem levelTotal_val (side : Side) (p : Price) :
    ((b.sideBook side).levelTotal p).val = quantity (L.queue side p) := by
  rw [SideBook.levelTotal, (h.laid side).levels_eq, get?_mapValues, Layout.queue]
  cases stored : (L.side side).get? p with
  | none => rfl
  | some q =>
    have ok := (h.laid side).queues p q stored
    exact levelOf_totalQty (quantity_nonneg ok.positive) ok.fits

theorem quantity_queue_nonneg (side : Side) (p : Price) : 0 ≤ quantity (L.queue side p) := by
  rw [Layout.queue]
  cases stored : (L.side side).get? p with
  | none => exact le_rfl
  | some q => exact quantity_nonneg ((h.laid side).queues p q stored).positive

theorem rest_overflow (high : i64Max < quantity (L.queue o.side o.price) + remaining.val) :
    b.restOrder sha256 o remaining = some (.error .overflow) := by
  have none : ((b.sideBook o.side).levelTotal o.price).checkedAdd remaining = none := by
    rw [Bounded.checkedAdd, Bounded.narrow_eq_none, h.levelTotal_val]
    exact .inr high
  simp only [restOrder, none]

theorem levelTotal_checkedAdd (positive : 0 < remaining.val)
    (fits : quantity (L.queue o.side o.price) + remaining.val ≤ i64Max) :
    ∃ bounds, ((b.sideBook o.side).levelTotal o.price).checkedAdd remaining =
      some ⟨quantity (L.queue o.side o.price) + remaining.val, bounds⟩ := by
  have nonneg := h.quantity_queue_nonneg o.side o.price
  refine ⟨⟨le_trans (by decide) (add_nonneg nonneg positive.le), fits⟩, ?_⟩
  rw [Bounded.checkedAdd_eq_some, h.levelTotal_val]

theorem rest_full (positive : 0 < remaining.val)
    (fits : quantity (L.queue o.side o.price) + remaining.val ≤ i64Max)
    (full : (b.config.capacity : Nat) ≤ L.live.length) :
    b.restOrder sha256 o remaining = some (.error .capacityExhausted) := by
  obtain ⟨_, sum⟩ := h.levelTotal_checkedAdd positive fits
  have refused := h.sound.insert_full (by rw [h.capacity, h.len]; exact full)
    (Node.new o remaining)
  simp only [restOrder, sum, refused]

/-- The queue at a price, present or not, is linked and has distinct slots. -/
theorem queue_linked (side : Side) (p : Price) :
    Segment (heapOf b.slab) nil (L.queue side p) nil ∧ (slotsOf (L.queue side p)).Nodup ∧
      (b.sideBook side).levels.get? p =
        if (L.queue side p).isEmpty then none else some (levelOf (L.queue side p)) := by
  rw [(h.laid side).levels_eq, get?_mapValues, Layout.queue]
  cases stored : (L.side side).get? p with
  | none => exact ⟨trivial, nodup_nil, rfl⟩
  | some q =>
    have ok := (h.laid side).queues p q stored
    refine ⟨ok.linked, (h.slots_split stored).1, ?_⟩
    rw [getD_some, if_neg fun empty => ok.nonempty (isEmpty_iff.1 empty)]
    rfl

theorem rest_ok (priced : 0 < o.price.val) (positive : 0 < remaining.val)
    (fits : quantity (L.queue o.side o.price) + remaining.val ≤ i64Max)
    (room : L.live.length < (b.config.capacity : Nat)) (small : L.live.length < u32Max)
    (fresh : b.idIndex.get? o.orderId = none) :
    ∃ slot b', b.restOrder sha256 o remaining = some (.ok b') ∧
      Represents sha256 b' (L.put o.side o.price
        (L.queue o.side o.price ++ [(slot, (Node.new o remaining).toOrder)])) ∧ Frame b b' := by
  have nonneg := h.quantity_queue_nonneg o.side o.price
  obtain ⟨_, sum⟩ := h.levelTotal_checkedAdd positive fits
  obtain ⟨slot, slab₁, inserted, sound₁, free, get₁, len₁, capacity₁⟩ :=
    h.sound.insert_ok (by rw [h.capacity, h.len]; exact room) (by rw [h.len]; exact small)
      (Node.new o remaining)
  obtain ⟨linked, distinct, level⟩ := h.queue_linked o.side o.price
  set q := L.queue o.side o.price
  have split : L.live.Perm (q ++ L.others o.side o.price) := L.live_perm o.side o.price
  -- A slot that holds an order is not the fresh slot.
  have occupied : ∀ x ∈ L.live, x.1 ≠ slot := by
    rintro x hx rfl
    have held := (h.mirror.cells x).1 hx
    simp [storedIn, free] at held
  have heap₁ : ∀ s, s ≠ slot → heapOf slab₁ s = heapOf b.slab s := by
    intro s hs
    rw [heapOf, heapOf, get₁, update_of_ne hs]
  have unlisted : slot ∉ slotsOf q := by
    intro listed
    obtain ⟨x, hx, same⟩ := mem_map.1 listed
    exact occupied x (split.mem_iff.2 (mem_append_left _ hx)) same
  have live₁ : slab₁.get slot = some (Node.new o remaining) := by rw [get₁, update_self]
  have short : q.length < u32Max := by
    have total := split.length_eq
    rw [length_append] at total
    omega
  obtain ⟨slab₂, pushed, segment, relinked⟩ := pushBack_spec sound₁ live₁ level
    (linked.congr fun s hs => heap₁ s fun same => unlisted (same ▸ hs)) distinct unlisted short
    nonneg positive fits
  obtain ⟨node, live₂, same⟩ : ∃ node, slab₂.get slot = some node ∧
      node.toOrder = (Node.new o remaining).toOrder := by
    have orders := relinked.orders slot
    rwa [live₁, map_some, map_eq_some_iff] at orders
  set x : Slotted := (slot, (Node.new o remaining).toOrder) with entering
  have nonempty : (q ++ [x]).isEmpty = false := by simp
  refine ⟨slot, b.withStores o.side (levelsWith b o.side o.price (q ++ [x])) slab₂
    (b.idIndex.insert o.orderId ⟨slot, o.side, o.account⟩)
    (b.accountOrders.insert o.account (((b.accountOrders.get? o.account).getD []).insertIdx
        (searchPosition ((b.accountOrders.get? o.account).getD []) o.orderId) o.orderId))
    (b.orderLeafXor ^^^ orderLeaf sha256 x.2), ?_, ?_, b.withStores_frame _ _ _ _ _ _⟩
  · simp only [restOrder, sum, inserted, pushed, live₂, same, levelsWith, nonempty]
    cases o.side <;> rfl
  · apply h.rebuild
    · exact relinked.sound sound₁
    · exact relinked.capacity.trans capacity₁
    · rw [relinked.len, len₁, h.len, split.length_eq]
      simp only [length_append, length_singleton]
      omega
    · intro y hy
      have member : y ∈ L.live := split.mem_iff.2 (mem_append_right _ hy)
      have outside : y.1 ∉ slot :: slotsOf q := by
        rw [mem_cons, not_or]
        refine ⟨occupied y member, fun listed => ?_⟩
        have slots := (split.map Prod.fst).nodup_iff.1 h.mirror.slots
        rw [map_append] at slots
        exact (nodup_append.1 slots).2.2 _ listed _ (mem_map_of_mem hy) rfl
      rw [heapOf, relinked.elsewhere _ outside]
      exact heap₁ _ (occupied y member)
    · intro _
      have before : ∀ y ∈ q, y.2.side = o.side ∧ y.2.price = o.price ∧ 0 < y.2.remaining.val := by
        intro y hy
        cases stored : (L.side o.side).get? o.price with
        | none => simp [q, Layout.queue, stored] at hy
        | some q' =>
          have ok := (h.laid o.side).queues _ _ stored
          have hy' : y ∈ q' := by simpa [q, Layout.queue, stored] using hy
          exact ⟨(ok.placed y hy').1, (ok.placed y hy').2, ok.positive y hy'⟩
      refine ⟨by simp, segment, ?_, priced, ?_, ?_⟩
      · exact forall_mem_snoc.2 ⟨fun y hy => ⟨(before y hy).1, (before y hy).2.1⟩, rfl, rfl⟩
      · exact forall_mem_snoc.2 ⟨fun y hy => (before y hy).2.2, positive⟩
      · simp only [quantity_append, quantity_cons, quantity_nil, add_zero]
        exact fits
    · have written : storedIn slab₂ = update (storedIn b.slab) x.1 (some x.2) := by
        ext1 s
        rw [storedIn, relinked.orders, get₁]
        by_cases here : s = slot
        · subst here
          rw [update_self, update_self]
          rfl
        · rw [update_of_ne here, update_of_ne here]
          rfl
      have entered := (h.mirror.perm split).enter (x := x) (by rw [storedIn, free]; rfl) fresh
        written
      refine entered.perm ?_
      rw [append_assoc]
      exact perm_middle.symm

/-! ## Partial fills -/

omit h

theorem authUpdateRemaining_eq {node : Node} {slot : Nat} (live : b.slab.get slot = some node)
    (remaining : Quantity) :
    b.authUpdateRemaining sha256 slot remaining = { b with
        slab := b.slab.modify slot fun n => { n with remaining := remaining }
        orderLeafXor := b.orderLeafXor ^^^ orderLeaf sha256 node.toOrder ^^^
          orderLeaf sha256 (node.toOrder.withRemaining remaining) } := by
  have written : (b.slab.modify slot fun n => { n with remaining := remaining }).get slot =
      some { node with remaining := remaining } := by
    rw [Slab.get_modify, update_self, live]
    rfl
  simp only [authUpdateRemaining, live]
  rw [show (b.authToggle sha256 node.toOrder).slab = b.slab from rfl, written]
  rfl

theorem reduce (h : Represents sha256 b L) {x : Slotted} {r : List Slotted}
    (stored : (L.side side).get? p = some (x :: r)) {delta : Quantity}
    (positive : 0 < remaining.val) (left : remaining.val = x.2.remaining.val - delta.val)
    (filled : 0 < delta.val) :
    ∃ book, ((b.authUpdateRemaining sha256 x.1 remaining).sideBook side).reduceLevelQty p delta =
        some book ∧
      Represents sha256 ((b.authUpdateRemaining sha256 x.1 remaining).setSide side book)
        (L.put side p ((x.1, x.2.withRemaining remaining) :: r)) ∧
      Frame b ((b.authUpdateRemaining sha256 x.1 remaining).setSide side book) := by
  have ok := (h.laid side).queues p _ stored
  obtain ⟨distinct, apart⟩ := h.slots_split stored
  obtain ⟨node, live, same⟩ := h.exists_node stored mem_cons_self
  have level : (b.sideBook side).levels.get? p = some (levelOf (x :: r)) := by
    rw [(h.laid side).levels_eq, get?_mapValues, stored]
    rfl
  have nonneg : 0 ≤ quantity r :=
    quantity_nonneg fun y hy => ok.positive y (mem_cons_of_mem _ hy)
  have reduced := reduceLevelQty_spec level nonneg positive left filled ok.fits
  set slab' := b.slab.modify x.1 fun n => { n with remaining := remaining }
  have updated := @authUpdateRemaining_eq sha256 b _ _ live remaining
  have split : L.live.Perm (x :: (r ++ L.others side p)) := by
    have whole := L.live_perm side p
    rwa [Layout.queue, stored] at whole
  refine ⟨{ b.sideBook side with
      levels := levelsWith b side p ((x.1, x.2.withRemaining remaining) :: r) }, ?_, ?_, ?_⟩
  · rw [updated]
    have untouched : ∀ (slab : Slab Node) (xor : Digest),
        ({ b with slab := slab, orderLeafXor := xor } : OrderBook).sideBook side =
          b.sideBook side := by
      intro slab xor
      cases side <;> rfl
    rw [untouched, reduced]
    rfl
  · rw [updated, same]
    suffices target : Represents sha256
        (b.withStores side (levelsWith b side p ((x.1, x.2.withRemaining remaining) :: r)) slab'
          b.idIndex b.accountOrders (b.orderLeafXor ^^^ orderLeaf sha256 x.2 ^^^
            orderLeaf sha256 (x.2.withRemaining remaining)))
        (L.put side p ((x.1, x.2.withRemaining remaining) :: r)) by
      cases side <;> exact target
    refine h.rebuild (h.sound.modify _ _) (Slab.capacity_modify _ _ _) ?_ ?_ ?_
      ((h.mirror.perm split).adjust remaining ?_)
    · rw [Slab.len_modify, h.len, split.length_eq]
      rfl
    · intro y hy
      have other : y.1 ≠ x.1 := fun clash =>
        apart y hy (clash ▸ mem_map_of_mem mem_cons_self)
      rw [heapOf, heapOf, Slab.get_modify, update_of_ne other]
    · intro _
      refine ⟨by simp, modify_head_segment ok.linked distinct remaining, ?_, ok.priced, ?_, ?_⟩
      · exact forall_mem_cons.2 (forall_mem_cons.1 ok.placed)
      · exact forall_mem_cons.2 ⟨positive, (forall_mem_cons.1 ok.positive).2⟩
      · have fits := ok.fits
        rw [quantity_cons] at fits ⊢
        change remaining.val + quantity r ≤ i64Max
        omega
    · ext1 s
      rw [storedIn, Slab.get_modify]
      by_cases here : s = x.1
      · rw [here, update_self, update_self, live, ← same]
        rfl
      · rw [update_of_ne here, update_of_ne here]
        rfl
  · rw [updated]
    cases side <;> exact ⟨rfl, rfl, rfl⟩

end Represents

end Dexos.Clob
