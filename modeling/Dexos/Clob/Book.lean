import Mathlib.Data.Prod.Lex
import Dexos.Foundations.SortedList
import Dexos.Clob.Level

/-!
# The order book

The book's state and its operations, with every index the source keeps. An operation
returns `none` when an `expect` or an indexing panic fires or when a loop does not stop;
a failed operation returns its error with the state it leaves.

## Implementation notes

Hash maps are ordered maps: no operation depends on their iteration order. SHA-256 is a
parameter. The backend of the planning arithmetic is left out.
-/

namespace Dexos.Clob

open Foundations

/-- The composite key: account, then client id. -/
abbrev DedupKey := U32 ×ₗ U64

/-- The idempotency cache: a FIFO of recent submission results. The oldest record leaves first. -/
structure DedupCache where
  capacity : Nat
  map : OrdMap DedupKey MatchResult
  order : List DedupKey
deriving DecidableEq

namespace DedupCache

def withCapacity (capacity : Nat) : DedupCache := ⟨capacity, ∅, []⟩

def key (account : AccountId) (clientId : U64) : DedupKey := toLex (account, clientId)

def get (c : DedupCache) (account : AccountId) (clientId : U64) : Option MatchResult :=
  if c.capacity = 0 then none else c.map.get? (key account clientId)

/-- The eviction loop of `DedupCache::insert`. -/
def evict (capacity : Nat) (map : OrdMap DedupKey MatchResult) :
    List DedupKey → OrdMap DedupKey MatchResult × List DedupKey
  | [] => (map, [])
  | old :: rest =>
    if capacity ≤ (old :: rest).length then evict capacity (map.erase old) rest
    else (map, old :: rest)

def insert (c : DedupCache) (account : AccountId) (clientId : U64) (result : MatchResult) :
    DedupCache :=
  if c.capacity = 0 then c
  else if c.map.contains (key account clientId) then
    { c with map := c.map.insert (key account clientId) result }
  else
    let (map, order) := evict c.capacity c.map c.order
    { c with
      map := map.insert (key account clientId) result
      order := order ++ [key account clientId] }

end DedupCache

/-- Where a resting order lives. -/
structure Locator where
  slot : Nat
  side : Side
  account : AccountId
deriving DecidableEq

structure OrderBook where
  config : BookConfig
  slab : Slab Node
  bids : SideBook
  asks : SideBook
  idIndex : OrdMap OrderId Locator
  accountOrders : OrdMap AccountId (List OrderId)
  positions : OrdMap AccountId Quantity
  dedup : DedupCache
  orderLeafXor : Digest
deriving DecidableEq

def sideTag : Side → UInt8
  | .bid => 0
  | .ask => 1

/-- `OrderBook::order_leaf`: a 48-byte preimage whose last eleven bytes are reserved. -/
def orderLeaf (sha256 : Sha256) (o : Order) : Digest :=
  hashDomain sha256 domainExecution
    (leBytes 8 o.orderId ++ leBytes 4 o.account ++ [sideTag o.side] ++ i64Bytes o.price ++
      i64Bytes o.remaining ++ leBytes 8 o.clientId ++ List.replicate 11 0)

def Node.new (o : NewOrder) (remaining : Quantity) : Node where
  orderId := o.orderId
  account := o.account
  side := o.side
  price := o.price
  remaining := remaining
  clientId := o.clientId
  prev := nil
  next := nil

namespace OrderBook

def new (config : BookConfig) : OrderBook where
  config := config
  slab := Slab.withCapacity config.capacity
  bids := SideBook.new .bid
  asks := SideBook.new .ask
  idIndex := ∅
  accountOrders := ∅
  positions := ∅
  dedup := DedupCache.withCapacity config.dedupCapacity
  orderLeafXor := 0

variable (b : OrderBook)

def sideBook : Side → SideBook
  | .bid => b.bids
  | .ask => b.asks

def setSide (side : Side) (book : SideBook) : OrderBook :=
  match side with
  | .bid => { b with bids := book }
  | .ask => { b with asks := book }

def position (account : AccountId) : Quantity :=
  (b.positions.get? account).getD I64.zero

def setPosition (account : AccountId) (position : Quantity) : OrderBook :=
  { b with positions := b.positions.insert account position }

def wouldCross (side : Side) (price : Price) : Bool :=
  match side with
  | .bid => b.asks.bestPrice.any fun a => decide (a.val ≤ price.val)
  | .ask => b.bids.bestPrice.any fun p => decide (price.val ≤ p.val)

variable {b}

section Mutation

variable (sha256 : Sha256)

/-- `OrderBook::auth_insert` and `OrderBook::auth_remove`: both are one XOR. -/
def authToggle (b : OrderBook) (o : Order) : OrderBook :=
  { b with orderLeafXor := b.orderLeafXor ^^^ orderLeaf sha256 o }

def authUpdateRemaining (b : OrderBook) (slot : Nat) (newRemaining : Quantity) : OrderBook :=
  match b.slab.get slot with
  | none => b
  | some n =>
    let b := b.authToggle sha256 n.toOrder
    let b := { b with slab := b.slab.modify slot fun m => { m with remaining := newRemaining } }
    match b.slab.get slot with
    | none => b
    | some n => b.authToggle sha256 n.toOrder

def restOrder (b : OrderBook) (order : NewOrder) (remaining : Quantity) :
    Option (Except OrderError OrderBook) :=
  match ((b.sideBook order.side).levelTotal order.price).checkedAdd remaining with
  | none => some (.error .overflow)
  | some _ =>
    match b.slab.insert (Node.new order remaining) with
    | none => none
    | some (.error _) => some (.error .capacityExhausted)
    | some (.ok (slot, slab)) =>
      match (b.sideBook order.side).pushBack slab slot with
      | none => none
      | some (book, slab) =>
        let b := { b.setSide order.side book with slab := slab }
        let b :=
          match b.slab.get slot with
          | none => b
          | some n => b.authToggle sha256 n.toOrder
        let ids := (b.accountOrders.get? order.account).getD []
        some (.ok { b with
            idIndex := b.idIndex.insert order.orderId ⟨slot, order.side, order.account⟩
            accountOrders := b.accountOrders.insert order.account
              (ids.insertIdx (searchPosition ids order.orderId) order.orderId) })

/-- The update of the account lists in `remove_resting`; an emptied list stays. -/
def delist (accountOrders : OrdMap AccountId (List OrderId)) (account : AccountId)
    (id : OrderId) : OrdMap AccountId (List OrderId) :=
  match accountOrders.get? account with
  | none => accountOrders
  | some ids =>
    match binarySearch ids id with
    | .ok position => accountOrders.insert account (ids.eraseIdx position)
    | .error _ => accountOrders

def removeResting (b : OrderBook) (side : Side) (slot : Nat) : Option OrderBook :=
  match b.slab.get slot with
  | none => some b
  | some n =>
    let b := b.authToggle sha256 n.toOrder
    match (b.sideBook side).unlink b.slab slot with
    | none => none
    | some (book, slab) =>
      let slab :=
        match slab.remove slot with
        | .ok (_, slab) => slab
        | .error _ => slab
      some
        { b.setSide side book with
          slab := slab
          idIndex := b.idIndex.erase n.orderId
          accountOrders := delist b.accountOrders n.account n.orderId }

/-! ## Matching -/

/-- The variables of `run_match`. The cursor is the price of the inner loop, if it runs. -/
structure MatchState where
  book : OrderBook
  remaining : Quantity
  fills : List Fill
  stpCancelled : List StpCancellation
  cursor : Option Price

/-- The report of one self-trade cancellation. -/
def stpCancellation (maker : Order) : StpCancellation :=
  ⟨maker.orderId, maker.account, maker.side, maker.price, maker.remaining⟩

/-- The fill of a maker by a taker. -/
def fillOf (taker : NewOrder) (maker : Order) (quantity : Quantity) : Fill where
  makerOrder := maker.orderId
  takerOrder := taker.orderId
  makerAccount := maker.account
  takerAccount := taker.account
  price := maker.price
  quantity := quantity
  takerSide := taker.side

/-- The self-trade branch of the inner loop of `run_match`. -/
def matchOwn (taker : NewOrder) (s : MatchState) (head : Nat) (maker : Order) :
    Option (Turn MatchState (MatchState × Bool)) :=
  match s.book.config.stp with
  | .cancelTaker => some (.done (s, true))
  | .cancelMaker =>
    (s.book.removeResting sha256 taker.side.opposite head).map fun book =>
      .again { s with book := book, stpCancelled := s.stpCancelled ++ [stpCancellation maker] }
  | .cancelBoth =>
    (s.book.removeResting sha256 taker.side.opposite head).map fun book =>
      .done ({ s with book := book, stpCancelled := s.stpCancelled ++ [stpCancellation maker] },
        true)

/-- The fill branch of the inner loop of `run_match`. -/
def matchFill (taker : NewOrder) (s : MatchState) (oppPrice : Price) (head : Nat)
    (maker : Order) : Option (Turn MatchState (MatchState × Bool)) :=
  let fillQty := if s.remaining.val ≤ maker.remaining.val then s.remaining else maker.remaining
  let newRem := maker.remaining.saturatingSub fillQty
  let s :=
    { s with
      fills := s.fills ++ [fillOf taker maker fillQty]
      remaining := s.remaining.saturatingSub fillQty }
  if newRem.val = 0 then
    (s.book.removeResting sha256 taker.side.opposite head).map fun book =>
      .again { s with book := book }
  else
    let book := s.book.authUpdateRemaining sha256 head newRem
    ((book.sideBook taker.side.opposite).reduceLevelQty oppPrice fillQty).map fun side =>
      .again { s with book := book.setSide taker.side.opposite side }

/-- One turn of the loops of `run_match`; it leaves with the flag `stopped`. -/
def matchTurn (taker : NewOrder) (isMarket : Bool) (s : MatchState) :
    Option (Turn MatchState (MatchState × Bool)) :=
  if s.remaining.val ≤ 0 then some (.done (s, false))
  else
    match s.cursor with
    | none =>
      match (s.book.sideBook taker.side.opposite).bestPrice with
      | none => some (.done (s, false))
      | some oppPrice =>
        if crosses taker.side isMarket taker.price oppPrice then
          some (.again { s with cursor := some oppPrice })
        else some (.done (s, false))
    | some oppPrice =>
      match (s.book.sideBook taker.side.opposite).headAt oppPrice with
      | none => some (.again { s with cursor := none })
      | some head =>
        match s.book.slab.get head with
        | none => some (.again { s with cursor := none })
        | some maker =>
          if maker.account = taker.account then
            matchOwn sha256 taker s head maker.toOrder
          else matchFill sha256 taker s oppPrice head maker.toOrder

/-- More turns than the loops of `run_match` take on any book that is not corrupt. -/
def matchTurns (b : OrderBook) : Nat := 3 * b.slab.len + 4

def runMatch (b : OrderBook) (taker : NewOrder) (isMarket : Bool) (startQty : Quantity) :
    Option (MatchState × Bool) :=
  loop (matchTurn sha256 taker isMarket) b.matchTurns
    { book := b, remaining := startQty, fills := [], stpCancelled := [], cursor := none }

/-- The reduce-only clamp: nothing when there is no position to reduce. -/
def clampReduce (b : OrderBook) (order : NewOrder) : Option Quantity :=
  if order.reduceOnly || order.orderType = .reduceOnly then
    let pos := b.position order.account
    match order.side with
    | .ask =>
      if pos.val ≤ 0 then none
      else some (if pos.val < order.quantity.val then pos else order.quantity)
    | .bid =>
      if 0 ≤ pos.val then none
      else
        let avail := pos.saturatingNeg
        some (if avail.val < order.quantity.val then avail else order.quantity)
  else some order.quantity

/-- The tail of `execute_with_report`: rest, cancel or reject what matching left over. -/
def dispose (order : NewOrder) (isMarket : Bool) (qty : Quantity) (s : MatchState)
    (stopped : Bool) : Option (Except OrderError MatchReport × OrderBook) :=
  let filled := qty.saturatingSub s.remaining
  if s.remaining.val = 0 then
    some (.ok ⟨⟨s.fills, .fullyFilled⟩, s.stpCancelled⟩, s.book)
  else if !isMarket && !stopped && order.tif = .gtc then
    match s.book.restOrder sha256 order s.remaining with
    | none => none
    | some (.ok book) =>
      let outcome :=
        if 0 < filled.val then .partiallyFilledResting s.remaining else .resting s.remaining
      some (.ok ⟨⟨s.fills, outcome⟩, s.stpCancelled⟩, book)
    | some (.error e) =>
      if 0 < filled.val then
        some (.ok ⟨⟨s.fills, .partiallyFilledCancelled filled⟩, s.stpCancelled⟩, s.book)
      else if !s.stpCancelled.isEmpty then
        some (.ok ⟨⟨s.fills, .rejected⟩, s.stpCancelled⟩, s.book)
      else some (.error e, s.book)
  else
    let outcome := if 0 < filled.val then .partiallyFilledCancelled filled else .rejected
    some (.ok ⟨⟨s.fills, outcome⟩, s.stpCancelled⟩, s.book)

def crossableQty (b : OrderBook) (taker : NewOrder) (isMarket : Bool) (need : I64) : Option I64 :=
  (b.sideBook taker.side.opposite).crossableQty b.slab taker.side taker.account taker.price
    isMarket b.config.stp need

def executeWithReport (b : OrderBook) (order : NewOrder) :
    Option (Except OrderError MatchReport × OrderBook) :=
  let isMarket := decide (order.orderType = .market)
  if order.quantity.val ≤ 0 then some (.error .nonPositiveQuantity, b)
  else if !isMarket && decide (order.price.val ≤ 0) then some (.error .nonPositivePrice, b)
  else if b.idIndex.contains order.orderId then some (.error .duplicateOrderId, b)
  else
    match b.clampReduce order with
    | none => some (.ok MatchReport.rejected, b)
    | some qty =>
      if order.orderType = .postOnly then
        if b.wouldCross order.side order.price then some (.ok MatchReport.rejected, b)
        else
          match b.restOrder sha256 order qty with
          | none => none
          | some (.error e) => some (.error e, b)
          | some (.ok book) => some (.ok ⟨⟨[], .resting qty⟩, []⟩, book)
      else if order.tif = .fok then
        match b.crossableQty order isMarket qty with
        | none => none
        | some avail =>
          if avail.val < qty.val then some (.ok MatchReport.rejected, b)
          else
            (b.runMatch sha256 order isMarket qty).bind fun r =>
              dispose sha256 order isMarket qty r.1 r.2
      else
        (b.runMatch sha256 order isMarket qty).bind fun r =>
          dispose sha256 order isMarket qty r.1 r.2

/-! ## Public operations -/

def placeWithReport (b : OrderBook) (order : NewOrder) :
    Option (Except OrderError MatchReport × OrderBook) :=
  b.executeWithReport sha256 order

def place (b : OrderBook) (order : NewOrder) :
    Option (Except OrderError MatchResult × OrderBook) :=
  (b.placeWithReport sha256 order).map fun r => (r.1.map MatchReport.result, r.2)

def submit (b : OrderBook) (order : NewOrder) :
    Option (Except OrderError MatchResult × OrderBook) :=
  match b.dedup.get order.account order.clientId with
  | some cached => some (.ok cached, b)
  | none =>
    match b.executeWithReport sha256 order with
    | none => none
    | some (.error e, b) => some (.error e, b)
    | some (.ok report, b) =>
      some (.ok report.result,
        { b with dedup := b.dedup.insert order.account order.clientId report.result })

def cancel (b : OrderBook) (id : OrderId) : Option (Except OrderError Unit × OrderBook) :=
  match b.idIndex.get? id with
  | none => some (.error .unknownOrder, b)
  | some loc => (b.removeResting sha256 loc.side loc.slot).map fun b => (.ok (), b)

/-- The loop of `OrderBook::cancel_all`. -/
def cancelEach (b : OrderBook) : List OrderId → Option OrderBook
  | [] => some b
  | id :: rest =>
    match b.idIndex.get? id with
    | none => cancelEach b rest
    | some loc =>
      match b.removeResting sha256 loc.side loc.slot with
      | none => none
      | some b => cancelEach b rest

def cancelAll (b : OrderBook) (account : AccountId) : Option (Nat × OrderBook) :=
  let targets := (b.accountOrders.get? account).getD []
  (cancelEach sha256 b targets).map fun b => (min targets.length u32Max, b)

/-- The overflow check of `replace_with_report` on a replacement that does not cross. -/
def replaceFits (b : OrderBook) (node : Order) (price : Price) (quantity : Quantity) : Bool :=
  if b.wouldCross node.side price then true
  else
    let current := (b.sideBook node.side).levelTotal price
    let levelTotal :=
      if node.price = price then current.checkedSub node.remaining else some current
    (levelTotal.bind fun total => total.checkedAdd quantity).isSome

/-- The submission that stands in for a replaced order. -/
def replacement (id : OrderId) (node : Order) (price : Price) (quantity : Quantity) : NewOrder where
  orderId := id
  account := node.account
  side := node.side
  orderType := .limit
  tif := .gtc
  price := price
  quantity := quantity
  clientId := node.clientId
  reduceOnly := false

def replaceWithReport (b : OrderBook) (id : OrderId) (price : Price) (quantity : Quantity) :
    Option (Except OrderError MatchReport × OrderBook) :=
  if quantity.val ≤ 0 then some (.error .nonPositiveQuantity, b)
  else if price.val ≤ 0 then some (.error .nonPositivePrice, b)
  else
    match b.idIndex.get? id with
    | none => some (.error .unknownOrder, b)
    | some loc =>
      match b.slab.get loc.slot with
      | none => some (.error .unknownOrder, b)
      | some node =>
        if b.replaceFits node.toOrder price quantity then
          match b.removeResting sha256 loc.side loc.slot with
          | none => none
          | some b => b.executeWithReport sha256 (replacement id node.toOrder price quantity)
        else some (.error .overflow, b)

def replace (b : OrderBook) (id : OrderId) (price : Price) (quantity : Quantity) :
    Option (Except OrderError MatchResult × OrderBook) :=
  (b.replaceWithReport sha256 id price quantity).map fun r => (r.1.map MatchReport.result, r.2)

/-- The structural checks of `OrderBook::submit_basket`, leg by leg. -/
def checkLegs (b : OrderBook) (seen : List OrderId) : List NewOrder → Except OrderError Unit
  | [] => .ok ()
  | leg :: rest =>
    if leg.quantity.val ≤ 0 then .error .nonPositiveQuantity
    else if leg.orderType ≠ .market ∧ leg.price.val ≤ 0 then .error .nonPositivePrice
    else if leg.orderId ∈ seen then .error .basketDuplicateId
    else if b.idIndex.contains leg.orderId then .error .duplicateOrderId
    else checkLegs b (leg.orderId :: seen) rest

/-- The speculative loop of `OrderBook::submit_basket`. -/
def submitLegs (b : OrderBook) :
    List NewOrder → Option (Except OrderError (List MatchResult) × OrderBook)
  | [] => some (.ok [], b)
  | leg :: rest =>
    match b.submit sha256 leg with
    | none => none
    | some (.error e, b) => some (.error e, b)
    | some (.ok result, b) =>
      (submitLegs b rest).map fun r => (r.1.map fun results => result :: results, r.2)

/-- `OrderBook::submit_basket`: the first failing leg restores the snapshot. -/
def submitBasket (b : OrderBook) (legs : List NewOrder) :
    Option (Except OrderError (List MatchResult) × OrderBook) :=
  if (b.config.maxBasketLegs : Nat) < legs.length then some (.error .basketTooLarge, b)
  else
    match b.checkLegs [] legs with
    | .error e => some (.error e, b)
    | .ok _ =>
      match submitLegs sha256 b legs with
      | none => none
      | some (.error e, _) => some (.error e, b)
      | some (.ok results, b) => some (.ok results, b)

end Mutation

end OrderBook

end Dexos.Clob
