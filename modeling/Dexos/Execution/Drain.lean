import Dexos.Execution.Orders

/-!
# Draining a market

Resolution and settlement remove every resting order of a market with its backing. The books,
the sidecars, the escrow columns and the aggregate backing of the owners are reconciled before
anything is released.
-/

namespace Dexos.Execution

open Foundations Clob Risk

namespace Engine

variable {sha256 : Sha256}

/-! ## Reconciliation -/

variable (e : Engine sha256)

variable (market : MarketId)

/-- List the orders of one book under their keys. -/
def collectBook (found : OrdMap OrderKey Order)
    (instrument : U16) : Attempt (OrdMap OrderKey Order) := do
  let book ← orError (e.books.get? ⟨market, instrument⟩)
    (.stateInvariant marketBookShapeMismatch)
  require (book.restingOrders.length = book.restingLen)
    (.stateInvariant marketRestingSidecarMismatch)
  book.restingOrders.foldlM (fun found (o : Order) => do
    require (found.get? ⟨market, instrument, o.orderId⟩ = none)
      (.stateInvariant marketRestingSidecarMismatch)
    return found.insert ⟨market, instrument, o.orderId⟩ o) found

/-- The resting orders of a market. -/
def collectResting (n : U16) : Attempt (OrdMap OrderKey Order) :=
  (instruments n).foldlM (e.collectBook market) ∅

def reserveKeys : List OrderKey :=
  e.orderReserves.keys.filter fun k => k.market = market

def claimKeys : List OrderKey :=
  e.claimEscrows.keys.filter fun k => k.market = market

variable {market}

/-- Every sidecar belongs to a resting order, and to one kind only. -/
def checkSidecar (resting : OrdMap OrderKey Order) (k : OrderKey) : Attempt Unit :=
  require (resting.contains k = true ∧ ¬ (e.orderReserves.contains k = true ∧
    e.claimEscrows.contains k = true)) (.stateInvariant marketRestingSidecarMismatch)

/-- Every resting order has the sidecar that backs it. -/
def checkBacking (marketType : MarketType) (x : OrderKey × Order) : Attempt Unit := do
  let mismatch := .stateInvariant marketRestingSidecarMismatch
  if isClaimMarket marketType then do
    require (e.orderReserves.get? x.1 = none) mismatch
    let escrow ← orError (e.claimEscrows.get? x.1) mismatch
    require (escrow.backs x.2.account x.2.side x.2.price x.2.remaining) mismatch
  else do
    require (e.claimEscrows.get? x.1 = none) mismatch
    require (reserveBacks (e.orderReserves.get? x.1) x.2.account x.2.price x.2.remaining) mismatch

/-- Add one escrow record to the columns it accounts for. -/
def addExpected (s : OrdMap AccountMarket Amount × OrdMap AskKey Amount)
    (k : OrderKey) : Attempt (OrdMap AccountMarket Amount × OrdMap AskKey Amount) := do
  let escrow ← orError (e.claimEscrows.get? k)
    (.stateInvariant marketRestingSidecarMismatch)
  match escrow.side with
  | .bid => do
      let premium ← columnAdd s.1 ⟨escrow.account, k.market⟩ escrow.premium
      return (premium, s.2)
  | .ask => do
      let claims ← columnAdd s.2 ⟨escrow.account, k.market, k.instrument⟩ escrow.claims
      return (s.1, claims)

/-- The escrow columns of a market are what its records account for. -/
def checkColumns (market : MarketId) : Attempt Unit := do
  let expected ← (e.claimKeys market).foldlM e.addExpected (∅, ∅)
  require ((e.bidPremiumEscrow.filter fun k _ => k.market = market) = expected.1 ∧
      (e.askClaimsEscrow.filter fun k _ => k.market = market) = expected.2)
    (.stateInvariant marketEscrowColumnMismatch)

variable {e}

/-- Add an amount of an affected owner. -/
def addOwned (owners : AccountSet) (sums : OrdMap AccountId Amount) (x : AccountId × Amount) :
    Attempt (OrdMap AccountId Amount) :=
  if owners.contains x.1 then
    (columnAdd sums x.1 x.2).mapError fun _ =>
      .stateInvariant marketRestingBackingMismatch
  else .ok sums

/-- An owner's aggregate backing is what its sidecars of all markets account for. -/
def checkOwner (e : Engine sha256) (reserves escrows : OrdMap AccountId Amount)
    (owner : AccountId) : Attempt Unit := do
  let mismatch := .stateInvariant marketRestingBackingMismatch
  let a ← (liftRisk (e.risk.read owner)).mapError fun _ => mismatch
  let q ← (e.ledger.idx owner).mapError fun _ => mismatch
  require (a.reservedResting = (reserves.get? owner).getD I128.zero ∧
    q.escrowed = (escrows.get? owner).getD I128.zero) mismatch

/-- The owners of some resting orders. -/
def ownersOf (resting : OrdMap OrderKey Order) : AccountSet :=
  resting.values.foldl (fun s (o : Order) => s.insert o.account ()) ∅

/-- The aggregate backing of every owner of a resting order. -/
def checkOwners (e : Engine sha256) (resting : OrdMap OrderKey Order) : Attempt Unit := do
  let owners := ownersOf resting
  let reserves ← (e.orderReserves.values.map fun r => (r.account, r.reserved)).foldlM
    (addOwned owners) ∅
  let escrows ← (e.bidPremiumEscrow.entries.map fun x => (x.1.account, x.2)).foldlM
    (addOwned owners) ∅
  owners.keys.forM (e.checkOwner reserves escrows)

/-- Everything that is validated before the first release. -/
def reconcile (e : Engine sha256) (market : MarketId) (info : MarketMeta) :
    Attempt (OrdMap OrderKey Order) := do
  require (∀ k ∈ e.books.keys, k.market = market → k.instrument < info.count)
    (.stateInvariant marketBookShapeMismatch)
  let resting ← e.collectResting market info.count
  (e.reserveKeys market ++ e.claimKeys market).forM (e.checkSidecar resting)
  resting.entries.forM (e.checkBacking info.marketType)
  e.checkColumns market
  e.checkOwners resting
  return resting

/-! ## Release -/

def drainReserve (s : Engine sha256 × AccountSet) (k : OrderKey) :
    Attempt (Engine sha256 × AccountSet) := do
  let reserve ← orError (s.1.orderReserves.get? k)
    (.stateInvariant marketRestingSidecarMismatch)
  let e ← s.1.releaseOrderReserve k reserve.account
  return (e, if reserve.reserved = I128.zero then s.2 else s.2.insert reserve.account ())

def drainEscrow (s : Engine sha256 × AccountSet) (k : OrderKey) :
    Attempt (Engine sha256 × AccountSet) := do
  let escrow ← orError (s.1.claimEscrows.get? k)
    (.stateInvariant marketRestingSidecarMismatch)
  let released ← s.1.releaseClaimEscrow k (some escrow.account)
  require (released.2 = some escrow.account)
    (.stateInvariant marketRestingSidecarMismatch)
  return (released.1, if escrow.premium = I128.zero ∧ escrow.claims = I128.zero then s.2
    else s.2.insert escrow.account ())

def cancelIn (e : Engine sha256) (k : BookKey) (id : OrderId) (absent : ExecutionError) :
    Attempt (Engine sha256) := do
  let book ← orError (e.books.get? k) absent
  liftOrder (book.cancel id).1
  return { e with books := e.books.insert k (book.cancel id).2 }

def drainOrder (e : Engine sha256) (x : OrderKey × Order) : Attempt (Engine sha256) :=
  e.cancelIn x.1.book x.2.orderId (.stateInvariant marketBookShapeMismatch)

/-- Replace a drained book by a new one. -/
def resetBook (market : MarketId) (e : Engine sha256) (instrument : U16) :
    Attempt (Engine sha256) := do
  let book ← orError (e.books.get? ⟨market, instrument⟩)
    (.stateInvariant marketBookShapeMismatch)
  require (book.restingLen = 0) (.stateInvariant marketRestingSidecarMismatch)
  return { e with books := e.books.insert ⟨market, instrument⟩ .new }

/-- `Engine::drain_market_resting_state`: the owners whose state changed. -/
def drainMarketRestingState (e : Engine sha256) (market : MarketId) :
    Attempt (Engine sha256 × AccountSet) := do
  let info ← orError (e.markets.get? market) .unknownMarket
  let resting ← e.reconcile market info
  let reserves := e.reserveKeys market
  let escrows := e.claimKeys market
  let s ← reserves.foldlM drainReserve (e, ∅)
  let s ← escrows.foldlM drainEscrow s
  let e ← resting.entries.foldlM drainOrder s.1
  require (e.reserveKeys market = [] ∧ e.claimKeys market = [] ∧
      (∀ k ∈ e.bidPremiumEscrow.keys, k.market ≠ market) ∧
      ∀ k ∈ e.askClaimsEscrow.keys, k.market ≠ market)
    (.stateInvariant marketEscrowColumnMismatch)
  let e ← (instruments info.count).foldlM (resetBook market) e
  return (e, s.2)

end Engine

end Dexos.Execution
