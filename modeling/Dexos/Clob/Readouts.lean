import Dexos.Foundations.Attempt
import Dexos.Clob.Session

/-!
# Reading a book

The accessors of the order book, and what they read of the price-time book it stands for.
-/

namespace Dexos.Clob

open Foundations Option PriceTime OrdMap OrderBook

namespace OrderBook

variable (b : OrderBook)

def restingLen : Nat := b.slab.len

def contains (id : OrderId) : Bool := b.idIndex.contains id

def owner (id : OrderId) : Option AccountId :=
  (b.idIndex.get? id).map Locator.account

/-- `OrderBook::resting_order`; the client id is stored too and no caller reads it. -/
def restingOrder (id : OrderId) : Option Order :=
  (b.idIndex.get? id).bind fun loc => (b.slab.get loc.slot).map Node.toOrder

/-- `OrderBook::resting_orders`, in ascending id order. -/
def restingOrders : List Order := b.idIndex.keys.filterMap b.restingOrder

def canRestWithoutMatch (o : NewOrder) : Except OrderError Bool := do
  require (0 < o.quantity.val) .nonPositiveQuantity
  require (0 < o.price.val) .nonPositivePrice
  require (b.idIndex.contains o.orderId = false) .duplicateOrderId
  require (b.slab.len ≠ b.slab.capacity) .capacityExhausted
  require (((b.sideBook o.side).levelTotal o.price).checkedAdd o.quantity ≠ none) .overflow
  return !b.wouldCross o.side o.price

variable {b}

/-- `OrderBook::state_root`: the schema version, then the XOR of the order leaves. -/
def stateRoot (sha256 : Sha256) (b : OrderBook) : Digest :=
  hashDomain sha256 domainExecution (2 :: leBytes 32 b.orderLeafXor.toNat)

end OrderBook

namespace PriceTime.Book

/-- The order book's preflight on a price-time book. -/
def canRest (b : Book) (o : NewOrder) : Except OrderError Bool := do
  require (0 < o.quantity.val) .nonPositiveQuantity
  require (0 < o.price.val) .nonPositivePrice
  require (b.lookup o.orderId = none) .duplicateOrderId
  require (b.count ≠ b.config.capacity) .capacityExhausted
  require (quantityOf (b.queue o.side o.price) + o.quantity.val ≤ i64Max) .overflow
  return !b.wouldCross o.side o.price

def restingOrders (b : Book) : List Order :=
  (b.listing.map fun x => x.2.2.at x.1 x.2.1).insertionSort fun o o' => o.orderId ≤ o'.orderId

def leafXor (sha256 : Sha256) (b : Book) : Digest :=
  (b.listing.map fun x => x.2.2.at x.1 x.2.1).foldr (fun o acc => orderLeaf sha256 o ^^^ acc) 0

end PriceTime.Book

namespace Represents

variable {sha256 : Sha256} {b : OrderBook} {L : Layout}

variable (h : Represents sha256 b L)
include h

theorem listing_eq :
    ((bookOf b L).listing.map fun x => x.2.2.at x.1 x.2.1) = L.live.map Prod.snd := by
  have ladder : ∀ side, ((orders (ladderOf (L.side side))).map fun x => x.2.at side x.1) =
      (flatten (L.side side)).map Prod.snd := by
    intro side
    rw [orders, flatten, ladderOf, mapValues, List.flatMap_map, List.map_flatMap, List.map_flatMap]
    refine List.flatMap_congr fun e he => ?_
    rw [List.map_map, List.map_map]
    refine List.map_congr_left fun x hx => ?_
    obtain ⟨onSide, price⟩ :=
      ((h.laid side).queues e.1 e.2 (mem_entries.1 he)).placed x hx
    rw [← onSide, ← price]
    rfl
  rw [Book.listing, Layout.live, List.map_append, List.map_append, List.map_map, List.map_map]
  exact congrArg₂ (· ++ ·) (ladder .bid) (ladder .ask)

theorem canRest_eq (o : NewOrder) : b.canRestWithoutMatch o = (bookOf b L).canRest o := by
  rw [canRestWithoutMatch, Book.canRest]
  by_cases positive : 0 < o.quantity.val
  · have nonneg : 0 ≤ quantity (L.queue o.side o.price) := h.quantity_queue_nonneg o.side o.price
    have fits : ((b.sideBook o.side).levelTotal o.price).checkedAdd o.quantity ≠ none ↔
        quantityOf ((bookOf b L).queue o.side o.price) + o.quantity.val ≤ i64Max := by
      rw [Ne, Bounded.checkedAdd, Bounded.narrow_eq_none, h.levelTotal_val, bookOf_queue,
        quantityOf_map, i64Max]
      omega
    have fresh : b.idIndex.contains o.orderId = false ↔ (bookOf b L).lookup o.orderId = none := by
      rw [← h.find_isSome, isSome_eq_false_iff, isNone_iff_eq_none, Book.lookup, map_eq_none_iff]
    have room : b.slab.len ≠ b.slab.capacity ↔
        (bookOf b L).count ≠ (bookOf b L).config.capacity := by
      rw [h.len, h.capacity, bookOf_count]
      rfl
    simp only [fits, fresh, room, h.wouldCross_eq]
  · rw [require, if_neg positive]
    rfl

end Represents

/-! ## Books that stand for the same orders -/

section

variable {sha256 : Sha256} {b b' : OrderBook}

variable (h : Sound sha256 b)
include h

theorem Sound.restingOrder (id : OrderId) : b.restingOrder id = b.view.lookup id := by
  obtain ⟨L, stores⟩ := h.stores
  rw [stores.view_eq, OrderBook.restingOrder, Book.lookup]
  cases found : b.idIndex.get? id with
  | none => rw [stores.find_of_absent found, bind_none, map_none]
  | some loc =>
    obtain ⟨x, q, stored, hx, -, rfl, found⟩ := stores.find_of_index found
    have cell := (stores.mirror.cells x).1 (Layout.mem_live stored hx)
    rwa [found]

theorem Sound.owner (id : OrderId) : b.owner id = (b.view.lookup id).map Order.account := by
  obtain ⟨L, stores⟩ := h.stores
  rw [stores.view_eq, OrderBook.owner, Book.lookup]
  cases found : b.idIndex.get? id with
  | none => rw [stores.find_of_absent found]; rfl
  | some loc =>
    obtain ⟨x, q, -, -, -, rfl, found⟩ := stores.find_of_index found
    rw [found]
    rfl

theorem Sound.contains (id : OrderId) : b.contains id = (b.view.lookup id).isSome := by
  obtain ⟨L, stores⟩ := h.stores
  rw [stores.view_eq, OrderBook.contains, ← stores.find_isSome, Book.lookup, isSome_map]

theorem Sound.canRest (o : NewOrder) : b.canRestWithoutMatch o = b.view.canRest o := by
  obtain ⟨L, stores⟩ := h.stores
  rw [stores.view_eq, stores.canRest_eq]

theorem Sound.stateRoot : b.stateRoot sha256 =
      hashDomain sha256 domainExecution (2 :: leBytes 32 (b.view.leafXor sha256).toNat) := by
  obtain ⟨L, stores⟩ := h.stores
  rw [stores.view_eq, OrderBook.stateRoot, stores.mirror.leaves, Book.leafXor, stores.listing_eq,
    leafXor, List.foldr_map]

theorem Sound.restingLen : b.restingLen = b.view.count := by
  obtain ⟨L, stores⟩ := h.stores
  rw [stores.view_eq, bookOf_count]
  exact stores.len

omit h

theorem PriceTime.Book.mem_restingOrders {b : PriceTime.Book} (proper : b.Proper) {o : Order} :
    o ∈ b.restingOrders ↔ b.lookup o.orderId = some o := by
  rw [restingOrders, List.mem_insertionSort, List.mem_map]
  constructor
  · rintro ⟨⟨side, p, r⟩, listed, rfl⟩
    exact lookup_of_holds proper.distinct (mem_listing.1 listed)
  · intro found
    obtain ⟨held, -⟩ := (lookup_eq_some proper.distinct).1 found
    exact ⟨_, mem_listing.2 held, rfl⟩

/-- The orders are listed once each, by ascending id. -/
theorem PriceTime.Book.restingOrders_sorted {b : PriceTime.Book} (proper : b.Proper) :
    b.restingOrders.Pairwise fun o o' => o.orderId < o'.orderId := by
  have ordered : b.restingOrders.Pairwise fun o o' => o.orderId ≤ o'.orderId :=
    List.pairwise_insertionSort (fun o o' : Order => o.orderId ≤ o'.orderId) _
  have distinct : (b.restingOrders.map Order.orderId).Nodup := by
    refine (((List.perm_insertionSort _ _).map Order.orderId).nodup_iff).2 ?_
    have ids := proper.distinct
    rw [DistinctIds, ← listing_resting, List.map_map] at ids
    rwa [List.map_map]
  rw [List.Nodup, List.pairwise_map] at distinct
  exact (ordered.and distinct).imp fun both => lt_of_le_of_ne both.1 both.2

include h

theorem Sound.mem_restingOrders {o : Order} :
    o ∈ b.restingOrders ↔ b.view.lookup o.orderId = some o := by
  rw [restingOrders, List.mem_filterMap]
  constructor
  · rintro ⟨id, -, found⟩
    rw [h.restingOrder] at found
    have same := ((Book.lookup_eq_some h.proper.distinct).1 found).2
    rwa [same]
  · intro found
    have known := h.contains o.orderId
    rw [found, isSome_some, OrderBook.contains, contains_iff] at known
    exact ⟨o.orderId, mem_keys.2 known, by rw [h.restingOrder, found]⟩

theorem Sound.restingOrders_ids : b.restingOrders.map Order.orderId = b.idIndex.keys := by
  have found : ∀ id ∈ b.idIndex.keys, ∃ o, b.restingOrder id = some o ∧ o.orderId = id := by
    intro id listed
    have known : b.contains id = true := contains_iff.2 (mem_keys.1 listed)
    rw [h.contains, isSome_iff_exists] at known
    obtain ⟨o, found⟩ := known
    exact ⟨o, by rw [h.restingOrder, found],
      ((Book.lookup_eq_some h.proper.distinct).1 found).2⟩
  rw [restingOrders]
  revert found
  generalize b.idIndex.keys = ids
  induction ids with
  | nil => intro; rfl
  | cons id rest ih =>
    intro found
    obtain ⟨o, here, rfl⟩ := found id List.mem_cons_self
    rw [List.filterMap_cons_some here, List.map_cons,
      ih fun id later => found id (List.mem_cons_of_mem _ later)]

theorem Sound.restingOrders_sorted :
    b.restingOrders.Pairwise fun o o' => o.orderId < o'.orderId := by
  have sorted := b.idIndex.keys_sorted
  rwa [← h.restingOrders_ids, List.pairwise_map] at sorted

theorem Sound.restingOrders_eq : b.restingOrders = b.view.restingOrders := by
  have sorted := h.restingOrders_sorted
  have sorted' := Book.restingOrders_sorted h.proper
  have once : ∀ {l : List Order}, l.Pairwise (fun o o' => o.orderId < o'.orderId) → l.Nodup :=
    fun ordered => ordered.imp fun lt eq => absurd (congrArg Order.orderId eq) lt.ne
  refine List.Perm.eq_of_pairwise (fun o o' _ _ lt lt' => absurd lt lt'.asymm) sorted sorted' ?_
  refine (List.perm_ext_iff_of_nodup (once sorted) (once sorted')).2 fun o => ?_
  rw [h.mem_restingOrders, Book.mem_restingOrders h.proper]

end

end Dexos.Clob
