import Dexos.Foundations.OrdMap
import Dexos.Risk.Position

/-!
# The risk engine

Accounts with collateral, positions and cached margin columns, markets with marks and the
index of their position holders. Every mutation recomputes the cached columns of the account
it touches.

## Implementation notes

The parallel columns of the source are lists of records. A slab index is the identifier it
comes from, and the reverse index of a market is a map to units. A failed operation returns
its error alone: the source restores the state it had changed, or its caller discards it.
-/

namespace Dexos.Risk

open Foundations Clob Scalar PerpPosition

inductive MarginMode where
  | isolated
  | cross
deriving DecidableEq

structure RiskConfig where
  initialMargin : Ratio
  maintenanceMargin : Ratio
  maxLeverage : Ratio
  maxAccounts : U64
  maxMarkets : U64
deriving DecidableEq

def maxAccountCapacity : Nat := 2 ^ 24

def maxMarketCapacity : Nat := 2 ^ 20

structure CachedColumns where
  equity : Amount
  exposure : Amount
  scenario : Amount
  im : Amount
  mm : Amount
deriving DecidableEq

def CachedColumns.zero : CachedColumns :=
  ⟨I128.zero, I128.zero, I128.zero, I128.zero, I128.zero⟩

structure Account where
  used : Bool
  isOpen : Bool
  marginMode : MarginMode
  collateral : Amount
  perp : List PerpPosition
  payout : List PayoutPosition
  cached : CachedColumns
  reservedResting : Amount
deriving DecidableEq

/-- A slot that no account has used. -/
def Account.unused : Account :=
  ⟨false, false, .isolated, I128.zero, [], [], CachedColumns.zero, I128.zero⟩

structure MarketSlot where
  mark : Option Price
  riskGroup : Option U32
  marketLimit : Option Amount
  holders : OrdMap AccountId Unit
deriving DecidableEq

/-- A slot that no market has used. -/
def MarketSlot.unused : MarketSlot := ⟨none, none, none, ∅⟩

/-- The liquidation queue: the accounts in order and the set of those queued. -/
structure LiquidationQueue where
  queue : List AccountId
  present : OrdMap AccountId Unit
deriving DecidableEq

namespace LiquidationQueue

def new : LiquidationQueue := ⟨[], ∅⟩

def enqueue (q : LiquidationQueue) (account : AccountId) : LiquidationQueue :=
  if q.present.contains account then q else ⟨q.queue ++ [account], q.present.insert account ()⟩

/-- `LiquidationQueue::pop`: what it leaves. -/
def pop (q : LiquidationQueue) : LiquidationQueue :=
  match q.queue with
  | [] => q
  | account :: rest => ⟨rest, q.present.erase account⟩

def remove (q : LiquidationQueue) (account : AccountId) : LiquidationQueue :=
  if q.present.contains account then ⟨q.queue.erase account, q.present.erase account⟩ else q

end LiquidationQueue

structure RiskEngine where
  config : RiskConfig
  accounts : List Account
  markets : List MarketSlot
  portfolioLimit : Option Amount
  insurance : Amount
  liqQueue : LiquidationQueue
  socializedTotal : Amount
deriving DecidableEq

namespace RiskEngine

def new (config : RiskConfig) : RiskEngine :=
  ⟨config, [], [], none, I128.zero, .new, I128.zero⟩

variable (e : RiskEngine)

def maxAccounts : Nat := max 1 (min maxAccountCapacity e.config.maxAccounts)

def maxMarkets : Nat := max 1 (min maxMarketCapacity e.config.maxMarkets)

variable (account : AccountId)

def slot : Option Account := e.accounts[account.val]?

def setSlot (a : Account) : RiskEngine :=
  { e with accounts := e.accounts.set account.val a }

/-- `RiskEngine::read_index`: the slot of an account that was opened. -/
def read : Except RiskError Account :=
  match e.slot account with
  | some a => if a.used then .ok a else .error .unknownAccount
  | none => .error .unknownAccount

/-- `RiskEngine::active_index`: the slot of an account that is open. -/
def active : Except RiskError Account := do
  let a ← e.read account
  require (a.isOpen = true) .accountClosed
  return a

/-! ## Markets -/

variable (m : MarketId)

def market : Option MarketSlot := e.markets[m.val]?

def markFor : Option Price := (e.market m).bind MarketSlot.mark

def groupOf : U32 :=
  ((e.market m).bind MarketSlot.riskGroup).getD m

def marketLimitFor : Option Amount :=
  (e.market m).bind MarketSlot.marketLimit

def holders : OrdMap AccountId Unit :=
  ((e.market m).map MarketSlot.holders).getD ∅

def growMarket : Except RiskError RiskEngine := do
  require (m.val < e.maxMarkets) (.capacityExceeded m.val e.maxMarkets)
  return { e with
    markets := e.markets ++ List.replicate (m.val + 1 - e.markets.length) MarketSlot.unused }

def modifyMarket (f : MarketSlot → MarketSlot) : RiskEngine :=
  { e with markets := e.markets.modify m.val f }

variable {m}

def syncMarketHolder (account : AccountId) (m : MarketId) (holds : Bool) :
    Except RiskError RiskEngine := do
  let e ← e.growMarket m
  return e.modifyMarket m fun s =>
    { s with holders := if holds then s.holders.insert account () else s.holders.erase account }

/-! ## Cached columns -/

/-- The price a position is valued at: the mark, or its own entry in an unmarked market. -/
def valuation (p : PerpPosition) : Price := (e.markFor p.market).getD p.avgEntry

def computeEquity (a : Account) : Except RiskError Amount :=
  a.perp.foldlM (fun sum p => do
    let u ← p.unrealized (e.valuation p)
    arith (checkedAdd sum u)) a.collateral

def isolatedExposure (a : Account) : Except RiskError Amount :=
  a.perp.foldlM (fun sum p => do
    let x ← p.exposure (e.valuation p)
    arith (checkedAdd sum x)) I128.zero

/-- Add a signed notional to the accumulator of its risk group. -/
def addToGroup (g : U32) (sn : Amount) :
    List (U32 × Amount) → Except RiskError (List (U32 × Amount))
  | [] => .ok [(g, sn)]
  | entry :: rest =>
    if entry.1 = g then do
      let sum ← arith (checkedAdd entry.2 sn)
      return (entry.1, sum) :: rest
    else do
      let rest ← addToGroup g sn rest
      return entry :: rest

def crossExposure (e : RiskEngine) (a : Account) : Except RiskError Amount := do
  let groups ← a.perp.foldlM
    (fun groups p => addToGroup (e.groupOf p.market) (p.signedNotional (e.valuation p)) groups) []
  groups.foldlM (fun sum (g : U32 × Amount) => do
    let x ← absAmount g.2
    arith (checkedAdd sum x)) I128.zero

def computeExposure (e : RiskEngine) (a : Account) : Except RiskError Amount :=
  match a.marginMode with
  | .isolated => e.isolatedExposure a
  | .cross => e.crossExposure a

def computeScenario (a : Account) : Except RiskError Amount := do
  let worst ← a.payout.foldlM (fun sum p => do
    let w ← p.worstCasePnl
    arith (checkedAdd sum w)) I128.zero
  if worst.val < 0 then negAmount worst else return I128.zero

def computeColumns (a : Account) : Except RiskError CachedColumns := do
  let equity ← e.computeEquity a
  let exposure ← e.computeExposure a
  let scenario ← computeScenario a
  let initial ← arith (Amount.mulRatioCeil exposure e.config.initialMargin)
  let im ← arith (checkedAdd initial scenario)
  let maintenance ← arith (Amount.mulRatioCeil exposure e.config.maintenanceMargin)
  let mm ← arith (checkedAdd maintenance scenario)
  return ⟨equity, exposure, scenario, im, mm⟩

/-- Store an account with its columns recomputed: `RiskEngine::recompute`. -/
def store (a : Account) : Except RiskError RiskEngine := do
  let cached ← e.computeColumns a
  return e.setSlot account { a with cached := cached }

def recompute : Except RiskError RiskEngine :=
  match e.slot account with
  | some a => e.store account a
  | none => .ok e

/-! ## Accounts -/

def growAccounts : Except RiskError RiskEngine := do
  require (account.val < e.maxAccounts) (.capacityExceeded account.val e.maxAccounts)
  return { e with
    accounts := e.accounts ++ List.replicate (account.val + 1 - e.accounts.length) Account.unused }

def openAccount (collateral : Amount) : Except RiskError RiskEngine := do
  require (0 ≤ collateral.val) .negativeAmount
  let e ← e.growAccounts account
  let a := (e.slot account).getD Account.unused
  require (a.used = false) .accountExists
  e.store account { a with
    used := true
    isOpen := true
    marginMode := .isolated
    collateral := collateral
    perp := []
    payout := [] }

def setCollateral (a : Account) (collateral : Amount) : Except RiskError RiskEngine :=
  e.store account { a with collateral := collateral }

def creditCollateral (amount : Amount) : Except RiskError RiskEngine := do
  require (0 ≤ amount.val) .negativeAmount
  let a ← e.active account
  let updated ← arith (checkedAdd a.collateral amount)
  e.setCollateral account a updated

def freeCollateral : Except RiskError Amount := do
  let a ← e.read account
  let reservedIm ← arith (Amount.mulRatioCeil a.reservedResting e.config.initialMargin)
  let free ← arith (checkedSub a.cached.equity a.cached.im)
  arith (checkedSub free reservedIm)

def debitCollateral (amount : Amount) : Except RiskError RiskEngine := do
  require (0 ≤ amount.val) .negativeAmount
  let a ← e.active account
  let free ← e.freeCollateral account
  require (amount.val ≤ free.val) .insufficientCollateral
  let updated ← arith (checkedSub a.collateral amount)
  e.setCollateral account a updated

def applyFunding (amount : Amount) : Except RiskError RiskEngine := do
  let a ← e.active account
  let updated ← arith (checkedAdd a.collateral amount)
  e.setCollateral account a updated

def applyFee (fee : Amount) : Except RiskError RiskEngine := do
  require (0 ≤ fee.val) .negativeAmount
  let a ← e.active account
  let updated ← arith (checkedSub a.collateral fee)
  e.setCollateral account a updated

def fundInsurance (amount : Amount) : Except RiskError RiskEngine := do
  require (0 ≤ amount.val) .negativeAmount
  let balance ← arith (checkedAdd e.insurance amount)
  return { e with insurance := balance }

def recomputeHolders (m : MarketId) : Except RiskError RiskEngine :=
  (e.holders m).keys.foldlM recompute e

def setMarkPrice (m : MarketId) (price : Price) : Except RiskError RiskEngine := do
  let e ← e.growMarket m
  (e.modifyMarket m fun s => { s with mark := some price }).recomputeHolders m

/-! ## Fills -/

/-- The position of an account in a market, with where it is stored: the slot after the
last one stands for a market not held yet. -/
def positionSlot (perp : List PerpPosition) (m : MarketId) : Nat × PerpPosition :=
  match perp.findIdx? fun p => p.market = m with
  | some i => (i, (perp[i]?).getD (flat m))
  | none => (perp.length, flat m)

/-- The positions after a fill: a position that became flat is dropped from the end only. -/
def putPosition (perp : List PerpPosition) (i : Nat) (p : PerpPosition) : List PerpPosition :=
  let filled := if i < perp.length then perp.set i p else perp ++ [p]
  if p.isFlat && decide (i + 1 = filled.length) then filled.dropLast else filled

def fillIndex (e : RiskEngine) (account : AccountId) (m : MarketId) (qty : Quantity)
    (price : Price) : Except RiskError RiskEngine := do
  let a ← orError (e.slot account) .unknownAccount
  let found := positionSlot a.perp m
  let filled ← found.2.applyFill qty price
  let collateral ← arith (checkedAdd a.collateral filled.2)
  let e ← e.syncMarketHolder account m (!filled.1.isFlat)
  e.store account { a with
    collateral := collateral
    perp := putPosition a.perp found.1 filled.1 }

def applyFill (e : RiskEngine) (account : AccountId) (m : MarketId) (qty : Quantity)
    (price : Price) : Except RiskError RiskEngine := do
  let _ ← e.active account
  e.fillIndex account m qty price

/-! ## Pre-trade checks and reservations -/

/-- Whether a notional stays within an optional cap. -/
def withinCap (cap : Option Amount) (projected : Amount) : Bool :=
  cap.all fun c => decide (projected.val ≤ c.val)

def marketExposure (a : Account) (m : MarketId) : Except RiskError Amount :=
  match a.perp.find? fun p => p.market = m with
  | some p => p.exposure (e.valuation p)
  | none => .ok I128.zero

def checkOrder (account : AccountId) (notional : Amount) (reduceOnly : Bool) :
    Except RiskError Unit := do
  let a ← e.active account
  require (0 ≤ notional.val) .negativeAmount
  if reduceOnly then require (0 < a.cached.exposure.val) .nothingToReduce
  else do
    let resting ← arith (checkedAdd a.cached.exposure a.reservedResting)
    let projected ← arith (checkedAdd resting notional)
    require (withinCap e.portfolioLimit projected = true) .portfolioLimitExceeded
    let margin ← arith (Amount.mulRatioCeil projected e.config.initialMargin)
    let required ← arith (checkedAdd margin a.cached.scenario)
    require (required.val ≤ a.cached.equity.val)
      (.insufficientMargin required a.cached.equity)
    let maxNotional ← arith (Amount.mulRatio a.cached.equity e.config.maxLeverage)
    require (projected.val ≤ maxNotional.val) .leverageExceeded

/-- The market cap of `RiskEngine::check_order_in_market`. -/
def checkMarketLimit (a : Account) (m : MarketId) (notional : Amount) : Except RiskError Unit :=
  match e.marketLimitFor m with
  | none => .ok ()
  | some cap => do
      let current ← e.marketExposure a m
      let projected ← arith (checkedAdd current notional)
      require (projected.val ≤ cap.val) .marketLimitExceeded

def checkOrderInMarket (m : MarketId) (notional : Amount)
    (reduceOnly : Bool) : Except RiskError Unit := do
  let a ← e.active account
  if reduceOnly then e.checkOrder account notional reduceOnly
  else do
    e.checkMarketLimit a m notional
    e.checkOrder account notional reduceOnly

/-- `RiskEngine::checked_resting_reservation`: the reservation after the order. -/
def checkedRestingReservation (notional : Amount) : Except RiskError Amount := do
  require (0 ≤ notional.val) .negativeAmount
  let a ← e.active account
  if notional.val = 0 then return a.reservedResting
  else do
    let next ← arith (checkedAdd a.reservedResting notional)
    let reservedIm ← arith (Amount.mulRatioCeil next e.config.initialMargin)
    let spare ← arith (checkedSub a.cached.equity a.cached.im)
    let free ← arith (checkedSub spare reservedIm)
    if free.val < 0 then do
      let required ← arith (checkedAdd a.cached.im reservedIm)
      .error (.insufficientMargin required a.cached.equity)
    else do
      let projected ← arith (checkedAdd a.cached.exposure next)
      require (withinCap e.portfolioLimit projected = true) .portfolioLimitExceeded
      let maxNotional ← arith (Amount.mulRatio a.cached.equity e.config.maxLeverage)
      require (projected.val ≤ maxNotional.val) .leverageExceeded
      return next

def checkReserveResting (notional : Amount) : Except RiskError Unit :=
  (e.checkedRestingReservation account notional).map fun _ => ()

def reserveResting (notional : Amount) : Except RiskError RiskEngine := do
  let next ← e.checkedRestingReservation account notional
  let a ← e.active account
  return e.setSlot account { a with reservedResting := next }

def releaseResting (notional : Amount) : Except RiskError RiskEngine := do
  require (0 ≤ notional.val) .negativeAmount
  if notional.val = 0 then return e
  else do
    let a ← e.active account
    require (notional.val ≤ a.reservedResting.val) .insufficientCollateral
    let left ← arith (checkedSub a.reservedResting notional)
    return e.setSlot account { a with reservedResting := left }

/-! ## Readouts -/

def position (m : MarketId) : Except RiskError Quantity := do
  let a ← e.read account
  return ((a.perp.find? fun p => p.market = m).map netQty).getD I64.zero

def isLiquidatable : Except RiskError Bool := do
  let a ← e.active account
  return decide (a.cached.equity.val < a.cached.mm.val)

variable {account}

def accountCount : Nat := (e.accounts.filter Account.used).length

end RiskEngine

end Dexos.Risk
