import Dexos.Clob.Mirror
import Dexos.Clob.PriceTime

/-!
# Layouts

A layout places every resting order of a book: per side and price, the queue of its
orders with their slots. `Represents` says that the concrete book, with all its indexes,
stores a layout; a write that touches one queue keeps that relation.
-/

namespace Dexos.Clob

open Foundations List

variable {q : List Slotted}

/-- The queues of one side, with slots. -/
abbrev Queues := OrdMap Price (List Slotted)

structure Layout where
  bids : Queues
  asks : Queues

namespace Layout

variable (L : Layout)

def side : Side → Queues
  | .bid => L.bids
  | .ask => L.asks

def setSide (side : Side) (m : Queues) : Layout :=
  match side with
  | .bid => { L with bids := m }
  | .ask => { L with asks := m }

/-- Replace one queue; an empty queue leaves no level. -/
def put (side : Side) (price : Price) (q : List Slotted) : Layout :=
  L.setSide side (putQueue (L.side side) price q)

def queue (side : Side) (price : Price) : List Slotted :=
  ((L.side side).get? price).getD []

/-- All live orders, in canonical order: bids before asks, prices ascending, oldest first. -/
def live : List Slotted := flatten L.bids ++ flatten L.asks

@[simp] theorem side_setSide_self (side : Side) (m : Queues) :
    (L.setSide side m).side side = m := by
  cases side <;> rfl

theorem side_setSide_ne {side side' : Side} (m : Queues) (h : side' ≠ side) :
    (L.setSide side m).side side' = L.side side' := by
  cases side <;> cases side' <;> first | rfl | exact absurd rfl h

/-- The live orders, with one queue split off; the rest does not depend on that queue. -/
def others (side : Side) (price : Price) : List Slotted :=
  flatten ((L.side side).erase price) ++ flatten (L.side side.opposite)

theorem live_perm (side : Side) (price : Price) :
    L.live.Perm (L.queue side price ++ L.others side price) := by
  rw [others, ← append_assoc]
  cases side with
  | bid => exact (flatten_perm L.bids price).append_right _
  | ask => exact perm_append_comm.trans ((flatten_perm L.asks price).append_right _)

theorem live_put_perm (side : Side) (price : Price) (q : List Slotted) :
    (L.put side price q).live.Perm (q ++ L.others side price) := by
  rw [others, ← append_assoc]
  cases side with
  | bid => exact (flatten_putQueue_perm L.bids price q).append_right _
  | ask => exact perm_append_comm.trans ((flatten_putQueue_perm L.asks price q).append_right _)

variable {L}

theorem mem_others {L : Layout} {side side' : Side} {p p' : Price}
    (stored : (L.side side').get? p' = some q) (apart : side' ≠ side ∨ p' ≠ p) {x : Slotted}
    (hx : x ∈ q) : x ∈ L.others side p := by
  rw [others, mem_append]
  by_cases same : side' = side
  · subst same
    refine .inl (mem_flatten.2 ⟨p', q, ?_, hx⟩)
    rw [OrdMap.get?_erase, if_neg (apart.resolve_left (not_not.2 rfl)), stored]
  · have opposite : side' = side.opposite := by
      cases side <;> cases side' <;> first | rfl | exact absurd rfl same
    exact .inr (mem_flatten.2 ⟨p', q, opposite ▸ stored, hx⟩)

end Layout

/-! ## The representation relation -/

/-- The orders stored in a slab. -/
def storedIn (slab : Slab Node) : Nat → Option Order := fun s => (slab.get s).map Node.toOrder

/-- A queue is linked through the heap and holds proper orders of its side and price. -/
structure QueueOk (heap : Nat → Option (Cell Order)) (side : Side) (price : Price)
    (q : List Slotted) : Prop where
  nonempty : q ≠ []
  linked : Segment heap nil q nil
  placed : ∀ x ∈ q, x.2.side = side ∧ x.2.price = price
  priced : 0 < price.val
  positive : ∀ x ∈ q, 0 < x.2.remaining.val
  fits : quantity q ≤ i64Max

structure Laid (heap : Nat → Option (Cell Order)) (side : Side) (book : SideBook) (m : Queues) :
    Prop where
  side_eq : book.side = side
  levels_eq : book.levels = m.mapValues levelOf
  queues : ∀ p q, m.get? p = some q → QueueOk heap side p q

structure Represents (sha256 : Sha256) (b : OrderBook) (L : Layout) : Prop where
  sound : b.slab.Sound
  capacity : b.slab.capacity = b.config.capacity
  len : b.slab.len = L.live.length
  laid : ∀ side, Laid (heapOf b.slab) side (b.sideBook side) (L.side side)
  mirror : Mirror sha256 (storedIn b.slab) b.idIndex b.accountOrders b.orderLeafXor L.live

theorem QueueOk.congr {heap heap' : Nat → Option (Cell Order)} {side : Side} {price : Price}
    (same : ∀ x ∈ q, heap' x.1 = heap x.1) (h : QueueOk heap side price q) :
    QueueOk heap' side price q := by
  refine { h with linked := h.linked.congr fun s hs => ?_ }
  obtain ⟨x, hx, rfl⟩ := mem_map.1 hs
  exact same x hx

theorem mapValues_levelOf (m : Queues) (p : Price) (q : List Slotted) :
    (putQueue m p q).mapValues levelOf =
      if q.isEmpty then (m.mapValues levelOf).erase p
      else (m.mapValues levelOf).insert p (levelOf q) := by
  rw [putQueue]
  split_ifs with none
  · exact OrdMap.mapValues_erase m levelOf p
  · exact OrdMap.mapValues_insert m levelOf p q

/-! ## Frames -/

/-- The fields that no write to the resting orders touches. -/
structure Frame (b b' : OrderBook) : Prop where
  config : b'.config = b.config
  positions : b'.positions = b.positions
  dedup : b'.dedup = b.dedup

theorem Frame.refl (b : OrderBook) : Frame b b := ⟨rfl, rfl, rfl⟩

theorem Frame.trans {a b c : OrderBook} (first : Frame a b) (second : Frame b c) : Frame a c where
  config := second.config.trans first.config
  positions := second.positions.trans first.positions
  dedup := second.dedup.trans first.dedup

namespace OrderBook

variable (b : OrderBook) (side : Side) (book : SideBook)

@[simp] theorem sideBook_authToggle (sha256 : Sha256) (o : Order) :
    (b.authToggle sha256 o).sideBook side = b.sideBook side := by
  cases side <;> rfl

/-- The book with the levels of one side and every store of resting orders replaced. -/
def withStores (levels : OrdMap Price Level) (slab : Slab Node) (idIndex : OrdMap OrderId Locator)
    (accountOrders : OrdMap AccountId (List OrderId)) (xor : Digest) : OrderBook :=
  { b.setSide side { b.sideBook side with levels := levels } with
    slab := slab
    idIndex := idIndex
    accountOrders := accountOrders
    orderLeafXor := xor }

section WithStores

variable (levels : OrdMap Price Level) (slab : Slab Node) (idIndex : OrdMap OrderId Locator)
  (accountOrders : OrdMap AccountId (List OrderId)) (xor : Digest)

theorem sideBook_withStores :
    (b.withStores side levels slab idIndex accountOrders xor).sideBook side =
      { b.sideBook side with levels := levels } := by
  cases side <;> rfl

theorem sideBook_withStores_opposite :
    (b.withStores side levels slab idIndex accountOrders xor).sideBook side.opposite =
      b.sideBook side.opposite := by
  cases side <;> rfl

theorem withStores_frame :
    Frame b (b.withStores side levels slab idIndex accountOrders xor) := by
  cases side <;> exact ⟨rfl, rfl, rfl⟩

end WithStores

end OrderBook

namespace Represents

variable {sha256 : Sha256} {b b' : OrderBook} {L : Layout} {side : Side}
  {p : Price}

/-- The levels of a side after a write to one queue. -/
def levelsWith (b : OrderBook) (side : Side) (p : Price) (q : List Slotted) : OrdMap Price Level :=
  if q.isEmpty then (b.sideBook side).levels.erase p
  else (b.sideBook side).levels.insert p (levelOf q)

variable (h : Represents sha256 b L)
include h

/-- The book after a write that touches one queue. -/
theorem rebuild {slab : Slab Node} {idIndex : OrdMap OrderId Locator}
    {accountOrders : OrdMap AccountId (List OrderId)} {xor : Digest} (sound : slab.Sound)
    (capacity : slab.capacity = b.slab.capacity) (len : slab.len = (q ++ L.others side p).length)
    (elsewhere : ∀ x ∈ L.others side p, heapOf slab x.1 = heapOf b.slab x.1)
    (queued : q ≠ [] → QueueOk (heapOf slab) side p q)
    (mirror : Mirror sha256 (storedIn slab) idIndex accountOrders xor (q ++ L.others side p)) :
    Represents sha256
      (b.withStores side (levelsWith b side p q) slab idIndex accountOrders xor)
      (L.put side p q) where
  sound := sound
  capacity := by rwa [(b.withStores_frame side _ _ _ _ _).config, ← h.capacity]
  len := by rwa [(L.live_put_perm side p q).length_eq]
  mirror := mirror.perm (L.live_put_perm side p q).symm
  laid side' := by
    by_cases same : side' = side
    · subst same
      have before := h.laid side'
      rw [OrderBook.sideBook_withStores, Layout.put, Layout.side_setSide_self]
      refine ⟨before.side_eq, ?_, fun p' q' stored => ?_⟩
      · rw [mapValues_levelOf, ← before.levels_eq]
        rfl
      · rw [get?_putQueue] at stored
        split_ifs at stored with here none
        · obtain rfl := Option.some.inj stored
          rw [here]
          exact queued fun empty => none (isEmpty_iff.2 empty)
        · refine (before.queues p' q' stored).congr fun x hx => elsewhere x ?_
          exact Layout.mem_others stored (.inr here) hx
    · have opposite : side' = side.opposite := by
        cases side <;> cases side' <;> first | rfl | exact absurd rfl same
      have before := h.laid side'
      have untouched :
          (b.withStores side (levelsWith b side p q) slab idIndex accountOrders xor).sideBook
            side' =
            b.sideBook side' := by
        rw [opposite]
        exact b.sideBook_withStores_opposite side _ _ _ _ _
      rw [untouched, Layout.put, L.side_setSide_ne _ same]
      refine ⟨before.side_eq, before.levels_eq, fun p' q' stored => ?_⟩
      refine (before.queues p' q' stored).congr fun x hx => elsewhere x ?_
      exact Layout.mem_others stored (.inl same) hx

/-- The slots of a queue are distinct, and distinct from the slots of every other order. -/
theorem slots_split (stored : (L.side side).get? p = some q) :
    (slotsOf q).Nodup ∧ ∀ x ∈ L.others side p, x.1 ∉ slotsOf q := by
  have split := L.live_perm side p
  rw [Layout.queue, stored] at split
  have distinct := (split.map Prod.fst).nodup_iff.1 h.mirror.slots
  rw [map_append] at distinct
  obtain ⟨own, -, apart⟩ := nodup_append.1 distinct
  refine ⟨own, fun x hx listed => ?_⟩
  exact apart _ listed _ (mem_map_of_mem hx) rfl

theorem exists_node (stored : (L.side side).get? p = some q) {x : Slotted} (hx : x ∈ q) :
    ∃ node, b.slab.get x.1 = some node ∧ node.toOrder = x.2 := by
  obtain ⟨c, found, item⟩ := ((h.laid side).queues p q stored).linked.exists_cell hx
  obtain ⟨node, live, rfl⟩ := heapOf_eq_some.1 found
  exact ⟨node, live, item⟩

end Represents

end Dexos.Clob
