import Dexos.Execution.Drain

/-!
# Command handlers

One definition for each command of the engine. A handler works on the transaction's copy of
the state and returns the new state with the kind of its receipt.

## Implementation notes

The state of a failed transaction is discarded, except for one book that a plain placement may
have been lent. A failed placement therefore returns the books it leaves.
-/

namespace Dexos.Execution

open Foundations Clob Risk Scalar

abbrev Books := OrdMap BookKey LogicalBook

namespace PlaceOrder

def newOrder (c : PlaceOrder) : NewOrder where
  orderId := c.orderId
  account := c.account
  side := c.side
  orderType := c.orderType
  tif := c.tif
  price := c.price
  quantity := c.quantity
  clientId := c.clientId
  reduceOnly := c.reduceOnly

def bookKey (c : PlaceOrder) : BookKey := ⟨c.market, c.instrument⟩

def orderKey (c : PlaceOrder) : OrderKey := ⟨c.market, c.instrument, c.orderId⟩

end PlaceOrder

/-- What a handler returns. -/
abbrev Handling (sha256 : Sha256) := Attempt (Engine sha256 × ReceiptKind)

namespace Engine

variable {sha256 : Sha256}

/-! ## Accounts and cash -/

variable (e : Engine sha256)

def createAccount (c : CreateAccount) : Handling sha256 := do
  let created ← e.ledger.createAccount c.initialCollateral
  let risk ← liftRisk (e.risk.openAccount created.2 c.initialCollateral)
  let e ← ({ e with ledger := created.1, risk := risk }).commitAccount created.2
  return (e, .accountCreated created.2)

def bindWallet (c : BindWallet) : Handling sha256 := do
  require (e.ledger.contains c.account = true) .unknownAccount
  return ({ e with wallets := e.wallets.insert c.account ⟨c.chainId, c.address⟩ }, .walletBound)

def authorizeSession (c : AuthorizeSession) : Handling sha256 := do
  let sessions ← e.sessions.authorize c
  let ledger ← e.ledger.bumpAuthEpoch c.account
  let e ← ({ e with sessions := sessions, ledger := ledger }).commitAccount c.account
  return (e, .sessionUpdated)

def revokeSession (c : RevokeSession) : Handling sha256 := do
  let revoked := e.sessions.revoke c.account c.sessionKey
  let ledger ← e.ledger.bumpAuthEpoch c.account
  let e ← ({ e with sessions := revoked.2, ledger := ledger }).commitAccount c.account
  return (e, .sessionUpdated)

def depositKey (c : DepositCredit) : DepositKey := ⟨c.sourceChain, c.sourceTx, c.sourceEventIndex⟩

def depositCredit (e : Engine sha256) (c : DepositCredit) :
    Handling sha256 := do
  require (depositKey c ∉ e.depositsSeen) .duplicateDeposit
  let ledger ← e.ledger.credit c.account c.amount
  let risk ← liftRisk (e.risk.creditCollateral c.account c.amount)
  let e ← ({ e with
    depositsSeen := depositKey c :: e.depositsSeen
    ledger := ledger
    risk := risk }).commitAccount c.account
  return (e, .credited c.account c.amount)

def requestWithdrawal (e : Engine sha256) (c : RequestWithdrawal) :
    Handling sha256 := do
  require (c.auth = .master) .sessionCannotWithdraw
  let id := deriveWithdrawalId sha256 c.account c.nonce
  require (e.withdrawals.contains id = false) .withdrawalIdCollision
  let ledger ← e.ledger.reserve c.account c.amount
  let risk ← liftRisk (e.risk.debitCollateral c.account c.amount)
  let e ← ({ e with
    ledger := ledger
    risk := risk
    withdrawals := e.withdrawals.insert id ⟨c.account, c.amount, false⟩ }).commitAccount c.account
  return (e, .withdrawalRequested id)

def finalizeWithdrawal (e : Engine sha256) (c : FinalizeWithdrawal) :
    Handling sha256 := do
  let w ← orError (e.withdrawals.get? c.withdrawalId) .unknownWithdrawal
  require (w.finalized = false) .withdrawalAlreadyFinalized
  let ledger ← e.ledger.settleWithdrawal w.account w.amount
  let e ← ({ e with
    withdrawals := e.withdrawals.insert c.withdrawalId { w with finalized := true }
    ledger := ledger }).commitAccount w.account
  return (e, .withdrawalFinalized c.withdrawalId)

/-! ## Markets -/

def recordedOutcomes (c : CreateMarket) : U16 :=
  if isClaimMarket c.marketType then max c.outcomes 2 else max c.outcomes 1

def newMarket (c : CreateMarket) : MarketMeta where
  marketType := c.marketType
  outcomes := recordedOutcomes c
  markPrice := c.markPrice
  lifecycle := .opened
  oracleHealth := .normal
  makerFeeBps := ⟨0, by decide⟩
  takerFeeBps := ⟨0, by decide⟩
  lastFundingEpoch := 0
  winningOutcome := none

def createMarket (e : Engine sha256) (c : CreateMarket) :
    Handling sha256 := do
  require (e.markets.contains c.market = false) .marketExists
  let books := (instruments (newMarket c).count).foldl
    (fun (books : Books) i => books.insert ⟨c.market, i⟩ .new) e.books
  let risk ← liftRisk (e.risk.setMarkPrice c.market c.markPrice)
  let e ← ({ e with
    markets := e.markets.insert c.market (newMarket c)
    books := books
    risk := risk }).commitMarket c.market
  return (e, .marketUpdated c.market)

/-- The accounts below the account count with a position in a market. -/
def positionHolders (e : Engine sha256) (market : MarketId) : List AccountId :=
  ((List.range e.risk.accountCount).filterMap fun i => (accountOf i).toOption).filter fun a =>
    match e.risk.position a market with
    | .ok q => decide (q.val ≠ 0)
    | .error _ => false

def setMarkPrice (e : Engine sha256) (c : SetMarkPrice) : Handling sha256 := do
  let info ← orError (e.markets.get? c.market) .unknownMarket
  let risk ← liftRisk (e.risk.setMarkPrice c.market c.price)
  let e : Engine sha256 := { e with
    markets := e.markets.insert c.market { info with markPrice := c.price }
    risk := risk }
  let e ← e.commitAccounts (e.positionHolders c.market)
  let e ← e.commitMarket c.market
  return (e, .marketUpdated c.market)

/-- The transitions that governance may command. -/
def lifecycleAllowed (current next : MarketLifecycle) : Bool :=
  match current with
  | .settled => decide (next = .archived)
  | .resolved | .invalid | .archived => false
  | _ => decide (next ≠ .resolved ∧ next ≠ .invalid ∧ next ≠ .settled ∧ next ≠ .archived)

def setMarketLifecycle (e : Engine sha256) (c : SetMarketLifecycle) :
    Handling sha256 := do
  let info ← orError (e.markets.get? c.market) .unknownMarket
  require (lifecycleAllowed info.lifecycle c.lifecycle = true) .lifecycleRejected
  let e ← ({ e with
    markets := e.markets.insert c.market { info with lifecycle := c.lifecycle } }).commitMarket
      c.market
  return (e, .marketUpdated c.market)

def setOracleHealth (e : Engine sha256) (c : SetOracleHealth) :
    Handling sha256 := do
  let info ← orError (e.markets.get? c.market) .unknownMarket
  let e ← ({ e with
    markets := e.markets.insert c.market { info with oracleHealth := c.health } }).commitMarket
      c.market
  return (e, .marketUpdated c.market)

def protocolUpgrade (e : Engine sha256) (c : ProtocolUpgrade) :
    Handling sha256 := do
  require (e.protocolVersion < c.targetVersion)
    (.protocolDowngrade e.protocolVersion c.targetVersion)
  return ({ e with protocolVersion := c.targetVersion }, .protocolUpgraded c.targetVersion)

/-! ## Placement -/

/-- The notional of a market order: its planned depth, within the collar. -/
def collaredNotional (book : LogicalBook) (order : NewOrder) : Attempt Amount := do
  require (0 < order.price.val) .marketOrderCollarRequired
  let plan ← liftOrder (book.planMatchSummary order)
  let collarCap := Price.notionalCeil order.price order.quantity
  let fromDepth := if 0 < plan.filledQuantity.val then plan.notionalCeil else collarCap
  require (fromDepth.val ≤ collarCap.val) .marketOrderDepthExceeded
  return if plan.filledQuantity.val = 0 then collarCap else fromDepth

def pretradeNotional (market : MarketId) (instrument : U16)
    (order : NewOrder) : Attempt Amount := do
  let _ ← e.validateInstrument market instrument
  let book ← orError (e.books.get? ⟨market, instrument⟩) .unknownMarket
  require (0 < order.quantity.val) (.order .nonPositiveQuantity)
  if order.orderType = .market then collaredNotional book order
  else do
    require (0 < order.price.val) (.order .nonPositivePrice)
    return Price.notionalCeil order.price order.quantity

/-- The admission of a claim order: free collateral for a bid, live claims for an ask. -/
def admitClaim (k : OrderKey) (account : AccountId) (side : Side)
    (notional : Amount) (quantity : Quantity) : Attempt Unit :=
  match side with
  | .bid => liftRisk (e.risk.checkOrder account notional false)
  | .ask =>
    require ((Amount.fromQuantity quantity).val ≤
      (e.claimBalance account k.market k.instrument).val) .insufficientClaims

/-- The admission of an order by the type of its market. -/
def admitByType (marketType : MarketType) (c : PlaceOrder) (notional : Amount) : Attempt Unit :=
  if isClaimMarket marketType then e.admitClaim c.orderKey c.account c.side notional c.quantity
  else liftRisk (e.risk.checkOrderInMarket c.account c.market notional c.reduceOnly)

/-- A placement up to its book: the state after its authorization, and the market's type. -/
def admitOrder (c : PlaceOrder) : Attempt (Engine sha256 × MarketType) := do
  e.gateNewRisk c.market
  let _ ← e.validateInstrument c.market c.instrument
  require ((e.resting c.orderKey).isSome = true ∨
      e.orderReserves.contains c.orderKey = false ∧ e.claimEscrows.contains c.orderKey = false)
    (.stateInvariant freshOrderSidecarCollision)
  let notional ← e.pretradeNotional c.market c.instrument c.newOrder
  let e ← e.authorize c.account c.market notional c.auth
  let info ← orError (e.markets.get? c.market) .unknownMarket
  e.admitByType info.marketType c notional
  return (e, info.marketType)

/-- The book of a placement, told the position that a reduce-only order may close. -/
def clampedBook (c : PlaceOrder) (book : LogicalBook) : LogicalBook :=
  if c.reduceOnly = true ∨ c.orderType = .reduceOnly then
    book.setPosition c.account (e.position c.account c.market)
  else book

/-- Back what a placed order left on the book, if anything. -/
def backResidual (c : PlaceOrder) (marketType : MarketType) :
    Option Quantity → Attempt (Engine sha256)
  | none => .ok e
  | some remaining =>
    if isClaimMarket marketType then
      e.escrowClaimResting c.orderKey c.account c.side c.price remaining
    else if c.orderType ≠ .market ∧ 0 < c.price.val then
      e.reserveOrder c.orderKey c.account (Price.notional c.price remaining) remaining
    else e.reserveOrder c.orderKey c.account I128.zero I64.zero

/-- Commit the leaves that a matched order changed. -/
def commitMatched (fills : List Fill) (account : AccountId)
    (market : MarketId) : Attempt (Engine sha256) := do
  let e ← e.commitAccounts (touchedBy fills).keys
  let e ← e.commitAccount account
  e.commitMarket market

/-- A placement after its book: self-trade releases, fills, the residual and the leaves. -/
def settlePlaced (c : PlaceOrder) (marketType : MarketType)
    (report : MatchReport) : Handling sha256 := do
  let fills := report.result.fills
  let rests := PriceTime.Book.restedBy report.result.outcome
  let e ← e.releaseStpCancellations c.market c.instrument c.account marketType report.stpCancelled
  let e ← e.applyFills c.market c.instrument fills
  let e ← e.backResidual c marketType rests
  let e ← e.commitMatched fills c.account c.market
  return (e, .orderApplied (filledQuantity fills) rests.isSome)

/-- A placement, or its error and the books it leaves. -/
def placeOrder (c : PlaceOrder) :
    Except (ExecutionError × Books) (Engine sha256 × ReceiptKind) := do
  let admitted ← (e.admitOrder c).mapError fun err => (err, e.books)
  let e := admitted.1
  let book ← (orError (e.books.get? c.bookKey) .unknownMarket).mapError
    fun err => (err, e.books)
  let placed := (e.clampedBook c book).placeWithReport c.newOrder
  let e : Engine sha256 := { e with books := e.books.insert c.bookKey placed.2 }
  let report ← (liftOrder placed.1).mapError fun err => (err, e.books)
  (e.settlePlaced c admitted.2 report).mapError fun err => (err, e.books)

/-! ## Cancellation -/

/-- The instrument and the owner of an order, in the first book of the market that has it. -/
def findOrder (market : MarketId) (n : U16) (id : OrderId) : Option (U16 × AccountId) :=
  (instruments n).findSome? fun i =>
    (e.books.get? ⟨market, i⟩).bind fun b => (b.owner id).map fun owner => (i, owner)

def cancelOrder (c : CancelOrder) : Handling sha256 := do
  let info ← orError (e.markets.get? c.market) .unknownMarket
  match e.findOrder c.market info.count c.orderId with
  | none => do
      let e ← e.authorize c.account c.market I128.zero c.auth
      return (e, .cancelled 0)
  | some (instrument, owner) => do
      require (owner = c.account) .orderNotOwned
      let e ← e.authorize c.account c.market I128.zero c.auth
      let k : OrderKey := ⟨c.market, instrument, c.orderId⟩
      let e ← e.cancelIn k.book c.orderId .unknownMarket
      let e ← e.releaseOrderReserve k c.account
      let released ← e.releaseClaimEscrow k (some c.account)
      let e ← released.1.commitAccount c.account
      let e ← e.commitMarket c.market
      return (e, .cancelled 1)

/-- Cancel every order of an account in one book: the books, and how many were removed. -/
def cancelAllIn (account : AccountId) (books : Books) (k : BookKey) : Books × Nat :=
  match books.get? k with
  | none => (books, 0)
  | some b => (books.insert k (b.cancelAll account).2, (b.cancelAll account).1)

/-- Release the reserve of a key to its owner. -/
def dropReserve (k : OrderKey) : Attempt (Engine sha256) :=
  match e.orderReserves.get? k with
  | none => .ok e
  | some rec => do
      let risk ← liftRisk (e.risk.releaseResting rec.account rec.reserved)
      return { e with orderReserves := e.orderReserves.erase k, risk := risk }

/-- The keys of the reserves that satisfy a predicate, in ascending order. -/
def reservesOf (p : OrderKey → AccountId → Bool) : List OrderKey :=
  (e.orderReserves.entries.filter fun x => p x.1 x.2.account).map Prod.fst

/-- The keys of the claim escrows that satisfy a predicate, in ascending order. -/
def escrowsOf (p : OrderKey → AccountId → Bool) : List OrderKey :=
  (e.claimEscrows.entries.filter fun x => p x.1 x.2.account).map Prod.fst

def releaseEscrows (account : AccountId) (keys : List OrderKey) : Attempt (Engine sha256) :=
  keys.foldlM (fun (e : Engine sha256) k => do
    let released ← e.releaseClaimEscrow k (some account)
    return released.1) e

def cancelAll (c : CancelAll) : Handling sha256 := do
  let info ← orError (e.markets.get? c.market) .unknownMarket
  let e ← e.authorize c.account c.market I128.zero c.auth
  let cancelled := (instruments info.count).foldl (fun (s : Books × Nat) i =>
    let r := cancelAllIn c.account s.1 ⟨c.market, i⟩
    (r.1, min u32Max (s.2 + r.2))) (e.books, 0)
  let e : Engine sha256 := { e with books := cancelled.1 }
  let mine : OrderKey → AccountId → Bool := fun k owner =>
    decide (k.market = c.market ∧ owner = c.account)
  let e ← (e.reservesOf mine).foldlM dropReserve e
  let e ← e.releaseEscrows c.account (e.escrowsOf mine)
  let e ← e.commitAccount c.account
  let e ← e.commitMarket c.market
  return (e, .cancelled cancelled.2)

/-! ## Replacement -/

/-- The side of a claim order under replacement; its escrow is released before the admission
of the new terms. -/
def readmitClaim (k : OrderKey) (c : ReplaceOrder) (notional : Amount) :
    Attempt (Engine sha256 × Option Side) := do
  let record ← orError (e.claimEscrows.get? k) .escrowInconsistency
  let released ← e.releaseClaimEscrow k (some c.account)
  released.1.admitClaim k c.account record.side notional c.quantity
  return (released.1, some record.side)

def readmit (marketType : MarketType) (k : OrderKey) (c : ReplaceOrder)
    (notional : Amount) : Attempt (Engine sha256 × Option Side) :=
  if isClaimMarket marketType then e.readmitClaim k c notional
  else do
    liftRisk (e.risk.checkOrderInMarket c.account c.market notional false)
    return (e, none)

/-- Back what a replacement left on the book, if anything. -/
def backReplaced (k : OrderKey) (c : ReplaceOrder) (fills : List Fill) :
    Option Side → Option Quantity → Attempt (Engine sha256)
  | _, none => .ok e
  | some side, some remaining => e.escrowClaimResting k c.account side c.price remaining
  | none, some _ =>
    let residual := residualNotional fills c.price c.quantity
    e.reserveOrder k c.account residual.1 residual.2

/-- A replacement after its book. -/
def settleReplaced (k : OrderKey) (c : ReplaceOrder)
    (marketType : MarketType) (claimSide : Option Side) (report : MatchReport) :
    Handling sha256 := do
  let fills := report.result.fills
  let rests := PriceTime.Book.restedBy report.result.outcome
  let e ← e.releaseStpCancellations k.market k.instrument c.account marketType report.stpCancelled
  let e ← e.applyFills k.market k.instrument fills
  let e ← e.backReplaced k c fills claimSide rests
  let e ← e.commitMatched fills c.account c.market
  return (e, .orderApplied (filledQuantity fills) rests.isSome)

def replaceOrder (c : ReplaceOrder) : Handling sha256 := do
  e.gateNewRisk c.market
  let info ← orError (e.markets.get? c.market) .unknownMarket
  let found ← orError (e.findOrder c.market info.count c.orderId)
    (.order .unknownOrder)
  require (found.2 = c.account) .orderNotOwned
  let k : OrderKey := ⟨c.market, found.1, c.orderId⟩
  let notional := Price.notionalCeil c.price c.quantity
  let e ← e.authorize c.account c.market notional c.auth
  let e ← e.releaseOrderReserve k c.account
  let admitted ← e.readmit info.marketType k c notional
  let e := admitted.1
  let book ← orError (e.books.get? k.book) .unknownMarket
  let replaced := book.replaceWithReport c.orderId c.price c.quantity
  let report ← liftOrder replaced.1
  let e : Engine sha256 := { e with books := e.books.insert k.book replaced.2 }
  e.settleReplaced k c info.marketType admitted.2 report

/-! ## Complete sets -/

def mintCompleteSet (c : CompleteSetOp) : Handling sha256 := do
  let info ← orError (e.markets.get? c.market) .unknownMarket
  require (isClaimMarket info.marketType = true) .incompatibleMarketType
  require (info.lifecycle = .opened) .lifecycleRejected
  let ledger ← e.ledger.lock c.account c.count
  let risk ← liftRisk (e.risk.debitCollateral c.account c.count)
  let entry ← (e.claimEntry c.account c.market info.count).mapM fun v =>
    liftArith (checkedAdd v c.count)
  let locked ← liftArith (checkedAdd
    ((e.mintLocked.get? ⟨c.account, c.market⟩).getD I128.zero) c.count)
  let e ← ({ e.setClaims c.account c.market entry with
    ledger := ledger
    risk := risk
    mintLocked := e.mintLocked.insert ⟨c.account, c.market⟩ locked }).commitAccount c.account
  return (e, .completeSet c.count)

def redeemCompleteSet (c : CompleteSetOp) : Handling sha256 := do
  let info ← orError (e.markets.get? c.market) .unknownMarket
  require (isClaimMarket info.marketType = true) .incompatibleMarketType
  require (info.lifecycle = .opened ∨ info.lifecycle = .halted ∨ info.lifecycle = .closed)
    .lifecycleRejected
  let entry ← orError (e.claims.get? ⟨c.account, c.market⟩) .incompleteSet
  require (∀ v ∈ entry, c.count.val ≤ v.val) .incompleteSet
  let burned ← entry.mapM fun v => liftArith (checkedSub v c.count)
  let ledger ← e.ledger.unlock c.account c.count
  let risk ← liftRisk (e.risk.creditCollateral c.account c.count)
  let prev := (e.mintLocked.get? ⟨c.account, c.market⟩).getD I128.zero
  require (c.count.val ≤ prev.val) .incompleteSet
  let next ← liftArith (checkedSub prev c.count)
  let e ← ({ e.setClaims c.account c.market burned with
    ledger := ledger
    risk := risk
    mintLocked :=
      if next.val = 0 then e.mintLocked.erase ⟨c.account, c.market⟩
      else e.mintLocked.insert ⟨c.account, c.market⟩ next }).commitAccount c.account
  return (e, .completeSet c.count)

/-! ## Liquidation -/

/-- Cancel an account's orders in every book: the books, and the markets that changed. -/
def cancelEverywhere (account : AccountId) : Books × OrdMap MarketId Unit :=
  e.books.keys.foldl (fun (s : Books × OrdMap MarketId Unit) k =>
    let r := cancelAllIn account s.1 k
    (r.1, if 0 < r.2 then s.2.insert k.market () else s.2)) (e.books, ∅)

/-- The accounts that a liquidation touched. -/
def affectedBy (account : AccountId) (outcome : LiquidationOutcome) : AccountSet :=
  (outcome.adlFills.map AdlFill.counterparty ++ outcome.haircuts.map Prod.fst).foldl
    (fun (s : AccountSet) a => s.insert a ()) ((∅ : AccountSet).insert account ())

def forgetReserve (e : Engine sha256) (k : OrderKey) : Engine sha256 :=
  match e.orderReserves.get? k with
  | none => e
  | some rec =>
    match e.risk.releaseResting rec.account rec.reserved with
    | .ok risk => { e with orderReserves := e.orderReserves.erase k, risk := risk }
    | .error _ => { e with orderReserves := e.orderReserves.erase k }

def liquidate (e : Engine sha256) (c : Liquidate) : Handling sha256 := do
  require (e.ledger.contains c.account = true) .unknownAccount
  let distressed ← liftRisk (e.risk.isLiquidatable c.account)
  require (distressed = true) .accountNotLiquidatable
  let cancelled := e.cancelEverywhere c.account
  let e : Engine sha256 := { e with books := cancelled.1 }
  let e ← e.releaseEscrows c.account (e.escrowsOf fun _ owner => owner = c.account)
  let settled ← liftRisk (e.risk.liquidate c.account)
  let outcome := settled.2
  let e : Engine sha256 := { e with risk := settled.1 }
  let e := (e.reservesOf fun _ owner => owner = c.account).foldl forgetReserve e
  let e ← e.commitAccounts (affectedBy c.account outcome).keys
  let e ← cancelled.2.keys.foldlM commitMarket e
  return (e, .liquidated c.account outcome.insuranceDrawn outcome.socializedLoss)

/-! ## Funding -/

/-- The variables of the funding loop. -/
structure Funding (sha256 : Sha256) where
  engine : Engine sha256
  collected : Amount
  distributed : Amount

/-- What one holder pays: its change of collateral, what it adds to the collected amount and
what it takes of it. A payer's debit is rounded up, a receiver's credit down. -/
def fundingShare (mark : Price) (rate : Ratio) (qty : Quantity) :
    Attempt (Amount × Amount × Amount) := do
  let notional := Price.notional mark qty
  let pay ← liftArith (Amount.mulRatio notional rate)
  if 0 < pay.val then do
    let debit ← liftArith (Amount.mulRatioCeil notional rate)
    let delta ← liftArith (checkedSub I128.zero debit)
    return (delta, debit, I128.zero)
  else if pay.val < 0 then do
    let credit ← liftArith (checkedSub I128.zero pay)
    return (credit, I128.zero, credit)
  else return (I128.zero, I128.zero, I128.zero)

/-- One turn of the funding loop. -/
def fundHolder (market : MarketId) (mark : Price) (rate : Ratio) (s : Funding sha256)
    (account : AccountId) : Attempt (Funding sha256) := do
  let qty ← liftRisk (s.engine.risk.position account market)
  let share ← fundingShare mark rate qty
  let collected ← liftArith (checkedAdd s.collected share.2.1)
  let distributed ← liftArith (checkedAdd s.distributed share.2.2)
  let risk ← liftRisk (s.engine.risk.applyFunding account share.1)
  let e ← ({ s.engine with risk := risk }).commitAccount account
  return ⟨e, collected, distributed⟩

def fundResidual (risk : RiskEngine) (residual : Amount) : Attempt RiskEngine :=
  if 0 < residual.val then liftRisk (risk.fundInsurance residual) else .ok risk

def applyFundingEpoch (e : Engine sha256) (c : ApplyFundingEpoch) :
    Handling sha256 := do
  let info ← orError (e.markets.get? c.market) .unknownMarket
  require (isClaimMarket info.marketType = false) .incompatibleMarketType
  require (c.epoch.val = min (2 ^ 64 - 1) (info.lastFundingEpoch.val + 1))
    .fundingEpochConflict
  let e : Engine sha256 := { e with
    markets := e.markets.insert c.market { info with lastFundingEpoch := c.epoch } }
  let s ← (e.risk.holders c.market).keys.foldlM (fundHolder c.market info.markPrice c.rate)
    ⟨e, I128.zero, I128.zero⟩
  let residual ← liftArith (checkedSub s.collected s.distributed)
  require (0 ≤ residual.val) .negativeFundingResidual
  let risk ← fundResidual s.engine.risk residual
  let e ← ({ s.engine with risk := risk }).commitMarket c.market
  return (e, .fundingApplied c.market c.epoch)

/-! ## Resolution and settlement -/

def resolveMarket (e : Engine sha256) (c : ResolveMarket) :
    Handling sha256 := do
  let info ← orError (e.markets.get? c.market) .unknownMarket
  require (isClaimMarket info.marketType = true) .incompatibleMarketType
  require (info.lifecycle = .opened ∨ info.lifecycle = .closed ∨
    info.lifecycle = .pendingResolution ∨ info.lifecycle = .disputed)
    .lifecycleRejected
  require (c.winningOutcome < info.count) .invalidInstrument
  let drained ← e.drainMarketRestingState c.market
  let e := drained.1
  let info ← orError (e.markets.get? c.market) .unknownMarket
  let e : Engine sha256 := { e with
    markets := e.markets.insert c.market
      { info with winningOutcome := some c.winningOutcome, lifecycle := .resolved } }
  let e ← e.commitAccounts drained.2.keys
  let e ← e.commitMarket c.market
  return (e, .marketResolved c.market c.winningOutcome)

/-- The variables of the settlement loops. -/
structure Settlement (sha256 : Sha256) where
  engine : Engine sha256
  pool : Amount
  paid : Amount
  touched : AccountSet

/-- Move one minter's locked collateral into the settlement pool. -/
def collectMinter (market : MarketId) (s : Settlement sha256) (x : AccountId × Amount) :
    Attempt (Settlement sha256) := do
  let ledger ← s.engine.ledger.consumeLocked x.1 x.2
  let pool ← liftArith (checkedAdd s.pool x.2)
  return { s with
    engine := { s.engine with
      ledger := ledger
      mintLocked := s.engine.mintLocked.erase ⟨x.1, market⟩ }
    pool := pool
    touched := s.touched.insert x.1 () }

/-- Pay one holder its winning balance out of the pool. -/
def payWinner (s : Settlement sha256) (account : AccountId) (payout : Amount) :
    Attempt (Settlement sha256) :=
  if 0 < payout.val then do
    require (payout.val ≤ s.pool.val) .incompleteSet
    let pool ← liftArith (checkedSub s.pool payout)
    let ledger ← s.engine.ledger.creditAvailable account payout
    let risk ← liftRisk (s.engine.risk.creditCollateral account payout)
    let paid ← liftArith (checkedAdd s.paid payout)
    return { s with
      engine := { s.engine with ledger := ledger, risk := risk }
      pool := pool
      paid := paid }
  else .ok s

/-- Burn one holder's claims and pay it. -/
def payHolder (market : MarketId) (winner : U16) (s : Settlement sha256)
    (x : AccountId × List Amount) : Attempt (Settlement sha256) := do
  let burned : Settlement sha256 := { s with
    engine := { s.engine with claims := s.engine.claims.erase ⟨x.1, market⟩ } }
  let s ← payWinner burned x.1 (x.2[winner.val]?.getD I128.zero)
  return { s with touched := s.touched.insert x.1 () }

/-- The minters of a market and what each has locked, by ascending account. -/
def minters (market : MarketId) : List (AccountId × Amount) :=
  (e.mintLocked.entries.filter fun x => x.1.market = market).map fun x => (x.1.account, x.2)

/-- The claim holders of a market and their balances, by ascending account. -/
def claimHolders (market : MarketId) : List (AccountId × List Amount) :=
  (e.claims.entries.filter fun x => x.1.market = market).map fun x => (x.1.account, x.2)

def settleMarket (c : SettleMarket) : Handling sha256 := do
  let info ← orError (e.markets.get? c.market) .unknownMarket
  require (isClaimMarket info.marketType = true) .incompatibleMarketType
  require (info.lifecycle = .resolved) .marketNotResolved
  let winner ← orError info.winningOutcome .marketNotResolved
  let drained ← e.drainMarketRestingState c.market
  let s ← (drained.1.minters c.market).foldlM (collectMinter c.market)
    ⟨drained.1, I128.zero, I128.zero, drained.2⟩
  let s ← (s.engine.claimHolders c.market).foldlM (payHolder c.market winner) s
  require (s.pool.val = 0) .incompleteSet
  let e : Engine sha256 := { s.engine with
    markets :=
      match s.engine.markets.get? c.market with
      | some info => s.engine.markets.insert c.market { info with lifecycle := .settled }
      | none => s.engine.markets }
  let e ← e.commitAccounts s.touched.keys
  let e ← e.commitMarket c.market
  return (e, .marketSettled c.market s.paid)

end Engine

end Dexos.Execution
