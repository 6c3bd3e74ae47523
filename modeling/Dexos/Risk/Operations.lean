import Dexos.Risk.Liquidation

/-!
# Operations in place

The public operations of the risk engine as the source runs them: they change the state step by
step, and an operation that fails on the way undoes what it has changed. A result therefore
stands next to the state that the operation leaves.

## Implementation notes

An index that the source takes without a check is an error here when it is out of range.
-/

namespace Dexos.Risk

open Foundations Clob Scalar

namespace RiskEngine

/-- A result, with the state that an operation leaves. -/
abbrev Effect := Except RiskError Unit × RiskEngine

/-- Go on with a checked value, or stop with the state as it is. -/
def after {α : Type} (e : RiskEngine) (x : Except RiskError α) (next : α → Effect) : Effect :=
  match x with
  | .ok a => next a
  | .error err => (.error err, e)

/-- Write a state that was computed first: a failure has written nothing. -/
def commit (e : RiskEngine) (x : Except RiskError RiskEngine) : Effect :=
  e.after x fun e => (.ok (), e)

/-- Undo what a failed step has changed. -/
def orUndo (x : Effect) (undo : RiskEngine → RiskEngine) : Effect :=
  match x with
  | (.ok done, e) => (.ok done, e)
  | (.error err, e) => (.error err, undo e)

def modifySlot (e : RiskEngine) (account : AccountId) (f : Account → Account) : RiskEngine :=
  { e with accounts := e.accounts.modify account.val f }

namespace InPlace

/-! ## Columns -/

variable (e : RiskEngine)

def recompute (account : AccountId) : Effect := e.commit (e.recompute account)

/-- The columns of a holder. -/
def columnsOf (holder : AccountId) : Except RiskError (AccountId × CachedColumns) := do
  let a ← orError (e.slot holder) .unknownAccount
  let columns ← e.computeColumns a
  return (holder, columns)

def writeColumns (x : AccountId × CachedColumns) : RiskEngine :=
  e.modifySlot x.1 fun a => { a with cached := x.2 }

/-- `RiskEngine::recompute_holders`: all columns are computed before one is written. -/
def recomputeHolders (m : MarketId) : Effect :=
  e.commit do
    let computed ← (e.holders m).keys.mapM (columnsOf e)
    return computed.foldl writeColumns e

def recomputeAll : Effect :=
  e.commit do
    let computed ← e.accounts.mapM e.computeColumns
    return { e with
      accounts := e.accounts.zipWith (fun a cached => { a with cached := cached }) computed }

/-! ## Accounts -/

variable (account : AccountId)

def openAccount (collateral : Amount) : Effect :=
  e.after (require (0 ≤ collateral.val) .negativeAmount) fun _ =>
    e.after (e.growAccounts account) fun e =>
      e.after (require (((e.slot account).any Account.used) = false) .accountExists) fun _ =>
        recompute (e.modifySlot account fun a => { a with
          used := true
          isOpen := true
          marginMode := .isolated
          collateral := collateral
          perp := []
          payout := [] }) account

def setMarginMode (mode : MarginMode) : Effect :=
  e.after (e.active account) fun a =>
    orUndo (recompute (e.modifySlot account fun b => { b with marginMode := mode }) account)
      fun e => e.modifySlot account fun b => { b with marginMode := a.marginMode }

def setCollateral (x : Account × Amount) : Effect :=
  orUndo (recompute (e.modifySlot account fun b => { b with collateral := x.2 }) account)
    fun e => e.modifySlot account fun b => { b with collateral := x.1.collateral }

def creditCollateral (amount : Amount) : Effect :=
  e.after (do
    require (0 ≤ amount.val) .negativeAmount
    let a ← e.active account
    let updated ← arith (checkedAdd a.collateral amount)
    return (a, updated)) (setCollateral e account)

def debitCollateral (amount : Amount) : Effect :=
  e.after (do
    require (0 ≤ amount.val) .negativeAmount
    let a ← e.active account
    let free ← e.freeCollateral account
    require (amount.val ≤ free.val) .insufficientCollateral
    let updated ← arith (checkedSub a.collateral amount)
    return (a, updated)) (setCollateral e account)

def applyFunding (amount : Amount) : Effect :=
  e.after (do
    let a ← e.active account
    let updated ← arith (checkedAdd a.collateral amount)
    return (a, updated)) (setCollateral e account)

def applyFee (fee : Amount) : Effect :=
  e.after (do
    require (0 ≤ fee.val) .negativeAmount
    let a ← e.active account
    let updated ← arith (checkedSub a.collateral fee)
    return (a, updated)) (setCollateral e account)

/-! ## Markets -/

variable {account}

def setMarkPrice (m : MarketId) (price : Price) : Effect :=
  e.after (e.growMarket m) fun e =>
    orUndo (recomputeHolders (e.modifyMarket m fun s => { s with mark := some price }) m)
      fun e' => e'.modifyMarket m fun s => { s with mark := e.markFor m }

def setRiskGroup (m : MarketId) (group : U32) : Effect :=
  e.after (e.growMarket m) fun e =>
    orUndo (recomputeAll (e.modifyMarket m fun s => { s with riskGroup := some group }))
      fun e' => e'.modifyMarket m fun s =>
        { s with riskGroup := (e.market m).bind MarketSlot.riskGroup }

def setMarketLimit (m : MarketId) (cap : Amount) : Effect :=
  e.after (require (0 ≤ cap.val) .negativeAmount) fun _ =>
    e.after (e.growMarket m) fun e =>
      (.ok (), e.modifyMarket m fun s => { s with marketLimit := some cap })

def setPortfolioLimit (cap : Amount) : Effect :=
  e.after (require (0 ≤ cap.val) .negativeAmount) fun _ =>
    (.ok (), { e with portfolioLimit := some cap })

/-! ## Fills -/

/-- `RiskEngine::fill_apply`: every step may fail with the earlier ones done. -/
def fillApply (account : AccountId) (i : Nat) (qty : Quantity) (price : Price) : Effect :=
  e.after (orError (e.slot account) .unknownAccount) fun a =>
    e.after (orError a.perp[i]? .unknownAccount) fun p =>
      e.after (p.applyFill qty price) fun filled =>
        let e := e.modifySlot account fun b => { b with perp := b.perp.set i filled.1 }
        e.after (arith (checkedAdd a.collateral filled.2)) fun collateral =>
          let e := e.modifySlot account fun b => { b with
            collateral := collateral
            perp := if filled.1.isFlat &&
              decide (i + 1 = b.perp.length) then b.perp.dropLast else b.perp }
          e.after (e.syncMarketHolder account p.market (!filled.1.isFlat)) fun e =>
            recompute e account

/-- The rollback of `RiskEngine::fill_index`: the collateral and the positions of the account, the
length of the market columns and the membership in the index of holders. -/
def undoFill (account : AccountId) (m : MarketId) (a : Account) (i : Nat) (p : PerpPosition)
    (slots : Nat) (held : Bool) (e : RiskEngine) : RiskEngine :=
  let e := e.modifySlot account fun b => { b with
    collateral := a.collateral
    perp :=
      if i = a.perp.length then b.perp.take a.perp.length
      else if b.perp.length = i then b.perp ++ [p]
      else b.perp.set i p }
  let e := { e with markets := e.markets.take slots }
  e.modifyMarket m fun s =>
    { s with holders := if held then s.holders.insert account () else s.holders.erase account }

def fillIndex (account : AccountId) (m : MarketId) (qty : Quantity) (price : Price) : Effect :=
  e.after (orError (e.slot account) .unknownAccount) fun a =>
    let found := positionSlot a.perp m
    -- A market not held yet gets a flat position at the end first.
    let pushed := e.modifySlot account fun b =>
      { b with perp := if found.1 = a.perp.length then b.perp ++ [found.2] else b.perp }
    orUndo (fillApply pushed account found.1 qty price)
      (undoFill account m a found.1 found.2 e.markets.length ((e.holders m).contains account))

def applyFill (account : AccountId) (m : MarketId) (qty : Quantity) (price : Price) : Effect :=
  e.after (e.active account) fun _ => fillIndex e account m qty price

def openPayoutPosition (account : AccountId) (payout : List Amount) (qty : Quantity) : Effect :=
  e.after (e.active account) fun a =>
    let pushed := e.modifySlot account fun b => { b with payout := b.payout ++ [⟨payout, qty⟩] }
    let truncate :=
        pushed.modifySlot account fun b => { b with payout := b.payout.take a.payout.length }
    truncate.after (do
      let b ← orError (pushed.slot account) .unknownAccount
      let computed ← pushed.computeColumns b
      require (computed.im.val ≤ computed.equity.val)
        (.insufficientMargin computed.im computed.equity)
      return computed) fun computed =>
        (.ok (), pushed.modifySlot account fun b => { b with cached := computed })

/-! ## Liquidation -/

def liquidationCandidates : List AccountId :=
  e.accounts.zipIdx.filterMap fun x =>
    if x.1.isOpen = true ∧ x.1.cached.equity.val < x.1.cached.mm.val then (accountOf x.2).toOption
    else none

def enqueueLiquidations : Effect :=
  (.ok (), { e with
    liqQueue := (liquidationCandidates e).foldl LiquidationQueue.enqueue e.liqQueue })

def nextLiquidation : Effect := (.ok (), { e with liqQueue := e.liqQueue.pop })

/-- `RiskEngine::liquidate`: a working copy replaces the state at the end. -/
def liquidate (account : AccountId) : Effect :=
  e.commit ((e.liquidate account).map Prod.fst)

end InPlace

/-! ## The public interface -/

/-- The public operations that change a risk engine. -/
inductive RiskOp where
  | openAccount (account : AccountId) (collateral : Amount)
  | setMarginMode (account : AccountId) (mode : MarginMode)
  | creditCollateral (account : AccountId) (amount : Amount)
  | debitCollateral (account : AccountId) (amount : Amount)
  | applyFunding (account : AccountId) (amount : Amount)
  | applyFee (account : AccountId) (fee : Amount)
  | setMarkPrice (market : MarketId) (price : Price)
  | setRiskGroup (market : MarketId) (group : U32)
  | setMarketLimit (market : MarketId) (cap : Amount)
  | setPortfolioLimit (cap : Amount)
  | applyFill (account : AccountId) (market : MarketId) (qty : Quantity) (price : Price)
  | openPayoutPosition (account : AccountId) (payout : List Amount) (qty : Quantity)
  | reserveResting (account : AccountId) (notional : Amount)
  | releaseResting (account : AccountId) (notional : Amount)
  | liquidate (account : AccountId)
  | enqueueLiquidations
  | nextLiquidation
  | fundInsurance (amount : Amount)
  | recomputeAll

def perform (e : RiskEngine) : RiskOp → Effect
  | .openAccount account collateral => InPlace.openAccount e account collateral
  | .setMarginMode account mode => InPlace.setMarginMode e account mode
  | .creditCollateral account amount => InPlace.creditCollateral e account amount
  | .debitCollateral account amount => InPlace.debitCollateral e account amount
  | .applyFunding account amount => InPlace.applyFunding e account amount
  | .applyFee account fee => InPlace.applyFee e account fee
  | .setMarkPrice market price => InPlace.setMarkPrice e market price
  | .setRiskGroup market group => InPlace.setRiskGroup e market group
  | .setMarketLimit market cap => InPlace.setMarketLimit e market cap
  | .setPortfolioLimit cap => InPlace.setPortfolioLimit e cap
  | .applyFill account market qty price => InPlace.applyFill e account market qty price
  | .openPayoutPosition account payout qty => InPlace.openPayoutPosition e account payout qty
  | .reserveResting account notional => e.commit (e.reserveResting account notional)
  | .releaseResting account notional => e.commit (e.releaseResting account notional)
  | .liquidate account => InPlace.liquidate e account
  | .enqueueLiquidations => InPlace.enqueueLiquidations e
  | .nextLiquidation => InPlace.nextLiquidation e
  | .fundInsurance amount => e.commit (e.fundInsurance amount)
  | .recomputeAll => InPlace.recomputeAll e

/-- The states that operations reach, succeeding or failing. -/
inductive Performed (config : RiskConfig) : RiskEngine → Prop
  | new : Performed config (.new config)
  | step {r : RiskEngine} (op : RiskOp) (before : Performed config r) :
      Performed config (r.perform op).2

end RiskEngine

end Dexos.Risk
