import Dexos.Foundations.QueueMap
import Dexos.Clob.Book

/-!
# Price-time priority

The specification of the book. A side maps each price to the queue of its orders, oldest
first. Matching takes the best crossing price and its oldest order until the taker is
exhausted, nothing crosses or self-trade prevention stops it; the order type and the time
in force then decide whether the rest of the taker rests, is cancelled or is rejected.
-/

namespace Dexos.Clob.PriceTime

open Foundations OrderBook

/-- A resting order; its side and price are where it is stored. -/
structure Resting where
  orderId : OrderId
  account : AccountId
  remaining : Quantity
  clientId : U64
deriving DecidableEq

/-- The stored fields of an order at a side and a price. -/
def Resting.at (r : Resting) (side : Side) (price : Price) : Order :=
  ⟨r.orderId, r.account, side, price, r.remaining, r.clientId⟩

/-- The queues of one side. -/
abbrev Ladder := OrdMap Price (List Resting)

structure Book where
  config : BookConfig
  bids : Ladder
  asks : Ladder
  positions : OrdMap AccountId Quantity
deriving DecidableEq

/-- The total quantity of a queue. -/
def quantityOf (q : List Resting) : Int := (q.map fun r => r.remaining.val).sum

def best {V : Type} (side : Side) (ladder : OrdMap Price V) : Option Price :=
  (bestFirst side ladder).head?.map Prod.fst

def orders (ladder : Ladder) : List (Price × Resting) :=
  ladder.entries.flatMap fun e => e.2.map fun r => (e.1, r)

/-- Keep the orders that satisfy a predicate. -/
def keep (p : Resting → Bool) (ladder : Ladder) : Ladder :=
  (ladder.mapValues fun q => q.filter p).filter fun _ q => !q.isEmpty

namespace Book

variable (b : Book)

def side : Side → Ladder
  | .bid => b.bids
  | .ask => b.asks

def setSide (side : Side) (ladder : Ladder) : Book :=
  match side with
  | .bid => { b with bids := ladder }
  | .ask => { b with asks := ladder }

def queue (side : Side) (price : Price) : List Resting :=
  ((b.side side).get? price).getD []

def count : Nat := (flatten b.bids).length + (flatten b.asks).length

def find (id : OrderId) : Option (Side × Price × Resting) :=
  (((orders b.bids).map fun x => (Side.bid, x)) ++ (orders b.asks).map fun x => (Side.ask, x)).find?
    fun x => x.2.2.orderId = id

/-- The book without the orders that satisfy a predicate. -/
def without (p : Resting → Bool) : Book :=
  { b with bids := keep (fun r => !p r) b.bids, asks := keep (fun r => !p r) b.asks }

/-- Whether a limit at a price would cross the opposite side. -/
def wouldCross (side : Side) (price : Price) : Bool :=
  (best side.opposite (b.side side.opposite)).any fun opp => crosses side false price opp

/-- Append an order to its queue, unless the level's total or the capacity overflows. -/
def rest (o : NewOrder) (remaining : Quantity) : Except OrderError Book :=
  let q := b.queue o.side o.price
  if i64Max < quantityOf q + remaining.val then .error .overflow
  else if (b.config.capacity : Nat) ≤ b.count then .error .capacityExhausted
  else
    .ok (b.setSide o.side ((b.side o.side).insert o.price
      (q ++ [⟨o.orderId, o.account, remaining, o.clientId⟩])))

/-! ## Matching -/

variable {b}

/-- Matching in progress. -/
structure Progress where
  book : Book
  remaining : Quantity
  fills : List Fill
  stpCancelled : List StpCancellation
  stopped : Bool

/-- Replace the queue at a price of the side the taker matches against. -/
def Progress.setQueue (s : Progress) (maker : Side) (price : Price) (q : List Resting) : Progress :=
  { s with book := s.book.setSide maker (putQueue (s.book.side maker) price q) }

/-- One step of matching at a price, on the queue found there. -/
def matchHead (taker : NewOrder) (s : Progress) (price : Price) :
    List Resting → Option Progress
  | [] => none
  | maker :: later =>
    let makerSide := taker.side.opposite
    if maker.account = taker.account then
      let cancelled :=
        { s with stpCancelled := s.stpCancelled ++
            [stpCancellation (maker.at makerSide price)] }
      match s.book.config.stp with
      | .cancelTaker => some { s with stopped := true }
      | .cancelMaker => some (cancelled.setQueue makerSide price later)
      | .cancelBoth => some { cancelled.setQueue makerSide price later with stopped := true }
    else
      let quantity := min s.remaining maker.remaining
      let left := maker.remaining.saturatingSub quantity
      let filled :=
        { s with
          remaining := s.remaining.saturatingSub quantity
          fills := s.fills ++ [fillOf taker (maker.at makerSide price) quantity] }
      some (filled.setQueue makerSide price
        (if left.val = 0 then later else { maker with remaining := left } :: later))

/-- One step of matching: the best crossing price and its oldest order. -/
def matchStep (taker : NewOrder) (isMarket : Bool) (s : Progress) : Option Progress :=
  if s.stopped || decide (s.remaining.val ≤ 0) then none
  else
    match best taker.side.opposite (s.book.side taker.side.opposite) with
    | none => none
    | some price =>
      if crosses taker.side isMarket taker.price price then
        matchHead taker s price (s.book.queue taker.side.opposite price)
      else none

/-- The number of steps that matching can still take. -/
def pending (taker : NewOrder) (s : Progress) : Nat :=
  if s.stopped || decide (s.remaining.val ≤ 0) then 0
  else (flatten (s.book.side taker.side.opposite)).length + 1

/-- Matching, to its end. -/
def matched (taker : NewOrder) (isMarket : Bool) (s : Progress) : Progress :=
  exhaust (matchStep taker isMarket) (pending taker s) s

/-- Matching a quantity against the book. -/
def sweep (b : Book) (taker : NewOrder) (isMarket : Bool) (quantity : Quantity) : Progress :=
  matched taker isMarket ⟨b, quantity, [], [], false⟩

/-! ## Operations -/

/-- The quantity an order may execute: reduce-only orders are clamped to the position. -/
def executable (b : Book) (o : NewOrder) : Option Quantity :=
  if o.reduceOnly || o.orderType = .reduceOnly then
    let held := (b.positions.get? o.account).getD I64.zero
    let reducible := match o.side with
      | .ask => held
      | .bid => held.saturatingNeg
    if reducible.val ≤ 0 then none else some (min o.quantity reducible)
  else some o.quantity

/-- Dispose of what matching left over. -/
def dispose (o : NewOrder) (isMarket : Bool) (quantity : Quantity) (s : Progress) :
    Except OrderError MatchReport × Book :=
  let filled := quantity.saturatingSub s.remaining
  let report (outcome : OrderOutcome) : Except OrderError MatchReport :=
    .ok ⟨⟨s.fills, outcome⟩, s.stpCancelled⟩
  let cancelled : OrderOutcome :=
    if 0 < filled.val then .partiallyFilledCancelled filled else .rejected
  if s.remaining.val = 0 then (report .fullyFilled, s.book)
  else if isMarket || s.stopped || o.tif ≠ .gtc then (report cancelled, s.book)
  else
    match s.book.rest o s.remaining with
    | .ok book =>
      (report (if 0 < filled.val then .partiallyFilledResting s.remaining
        else .resting s.remaining), book)
    | .error e =>
      -- Fills and cancellations cannot be undone: the residual is then cancelled.
      if 0 < filled.val || !s.stpCancelled.isEmpty then (report cancelled, s.book)
      else (.error e, s.book)

/-- Place an order. A fill-or-kill order that matching would not fill changes nothing. -/
def place (b : Book) (o : NewOrder) : Except OrderError MatchReport × Book :=
  let isMarket := decide (o.orderType = .market)
  if o.quantity.val ≤ 0 then (.error .nonPositiveQuantity, b)
  else if !isMarket && decide (o.price.val ≤ 0) then (.error .nonPositivePrice, b)
  else if (b.find o.orderId).isSome then (.error .duplicateOrderId, b)
  else
    match b.executable o with
    | none => (.ok MatchReport.rejected, b)
    | some quantity =>
      if o.orderType = .postOnly then
        if b.wouldCross o.side o.price then (.ok MatchReport.rejected, b)
        else
          match b.rest o quantity with
          | .ok book => (.ok ⟨⟨[], .resting quantity⟩, []⟩, book)
          | .error e => (.error e, b)
      else
        let s := b.sweep o isMarket quantity
        if o.tif = .fok ∧ s.remaining.val ≠ 0 then (.ok MatchReport.rejected, b)
        else dispose o isMarket quantity s

def cancel (b : Book) (id : OrderId) : Except OrderError Unit × Book :=
  match b.find id with
  | none => (.error .unknownOrder, b)
  | some _ => (.ok (), b.without fun r => r.orderId = id)

def cancelAll (b : Book) (account : AccountId) : Nat × Book :=
  let left := b.without fun r => r.account = account
  (min (b.count - left.count) u32Max, left)

/-- Replace an order: cancel it and place a limit order in its stead. A replacement that
would rest in full and does not fit its level changes nothing. -/
def replace (b : Book) (id : OrderId) (price : Price) (quantity : Quantity) :
    Except OrderError MatchReport × Book :=
  if quantity.val ≤ 0 then (.error .nonPositiveQuantity, b)
  else if price.val ≤ 0 then (.error .nonPositivePrice, b)
  else
    match b.find id with
    | none => (.error .unknownOrder, b)
    | some (side, old, r) =>
      let left := b.without fun r => r.orderId = id
      if !b.wouldCross side price &&
          decide (i64Max < quantityOf (left.queue side price) + quantity.val) then
        (.error .overflow, b)
      else left.place (replacement id (r.at side old) price quantity)

end Book

end Dexos.Clob.PriceTime
