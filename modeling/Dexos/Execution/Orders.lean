import Dexos.Execution.State

/-!
# The backing of resting orders

A resting perpetual order reserves its notional in the risk engine. A resting claim order
moves its premium or its claims into escrow. Fills, cancellations and replacements release
what they consume.

## Implementation notes

A fill is settled leg by leg. Each step says whose leg it belongs to, so that a failure can
be traced to the taker or to the resting maker; the engine itself keeps the error alone.
-/

namespace Dexos.Execution

open Foundations Clob Risk Scalar

/-! ## Messages -/

def freshOrderSidecarCollision : String := "fresh order key already has a committed sidecar"

def stpCancellationAccountMismatch : String :=
  "STP cancellation account does not match incoming account"

def stpCancellationSidecarMismatch : String :=
  "STP cancellation does not match its committed sidecar"

def marketBookShapeMismatch : String := "market books do not match the configured instrument set"

def marketRestingSidecarMismatch : String :=
  "market resting orders do not match their committed sidecars"

def marketEscrowColumnMismatch : String := "market escrow columns do not match their order sidecars"

def marketRestingBackingMismatch : String :=
  "market resting sidecars do not match their aggregate backing"

/-! ## Exact backing -/

/-- Whether an escrow record backs a resting order: exactly the claims of an ask, at least the
notional of a bid. -/
def ClaimOrderEscrow.backs (record : ClaimOrderEscrow) (account : AccountId) (side : Side)
    (price : Price) (remaining : Quantity) : Prop :=
  record.account = account ∧ record.side = side ∧
    (side = .ask → record.claims = Amount.fromQuantity remaining ∧ record.premium = I128.zero) ∧
    (side = .bid → record.claims = I128.zero ∧
      (Price.notional price remaining).val ≤ record.premium.val)

instance (record : ClaimOrderEscrow) (account : AccountId) (side : Side) (price : Price)
    (remaining : Quantity) : Decidable (record.backs account side price remaining) :=
  inferInstanceAs (Decidable (_ ∧ _ ∧ (_ → _) ∧ (_ → _)))

/-- Whether a reserve, or its absence, backs a resting order exactly. -/
def reserveBacks (record : Option OrderReserve) (account : AccountId) (price : Price)
    (remaining : Quantity) : Prop :=
  record = some ⟨account, Price.notional price remaining, remaining⟩ ∨
    record = none ∧ Price.notional price remaining = I128.zero

instance (record : Option OrderReserve) (account : AccountId) (price : Price)
    (remaining : Quantity) : Decidable (reserveBacks record account price remaining) :=
  inferInstanceAs (Decidable (_ ∨ _ ∧ _))

/-- The side of a fill that a step settles. -/
inductive Leg where
  | taker
  | maker
deriving DecidableEq

/-- A computation whose error names the leg it comes from. -/
abbrev LegAttempt (α : Type) := Except (Leg × ExecutionError) α

/-- A step of one leg. -/
def Leg.run {α : Type} (leg : Leg) (x : Attempt α) : LegAttempt α := x.mapError fun e => (leg, e)

@[simp] theorem Leg.run_eq_ok {α : Type} {leg : Leg} {x : Attempt α} {a : α} :
    leg.run x = .ok a ↔ x = .ok a :=
  mapError_eq_ok

namespace Engine

variable {sha256 : Sha256}

/-! ## Perpetual orders -/

variable (e : Engine sha256)

def releaseOrderReserve (k : OrderKey) (account : AccountId) : Attempt (Engine sha256) :=
  match e.orderReserves.get? k with
  | none => .ok e
  | some rec => do
      require (rec.account = account) .orderNotOwned
      let risk ← liftRisk (e.risk.releaseResting account rec.reserved)
      return { e with orderReserves := e.orderReserves.erase k, risk := risk }

def reserveOrder (k : OrderKey) (account : AccountId) (notional : Amount)
    (qtyRemaining : Quantity) : Attempt (Engine sha256) :=
  if notional.val = 0 then .ok e
  else do
    let risk ← liftRisk (e.risk.reserveResting account notional)
    return { e with
      risk := risk
      orderReserves := e.orderReserves.insert k ⟨account, notional, qtyRemaining⟩ }

/-- Release the part of a maker's reserve that a fill consumed, down to the notional of what
is left. -/
def telescopeReserve (k : OrderKey) (fill : Fill) : Attempt (Engine sha256) :=
  match e.orderReserves.get? k with
  | none => .ok e
  | some rec => do
      let newQty := rec.qtyRemaining.saturatingSub fill.quantity
      let newReserve := Price.notional fill.price newQty
      let release ← liftArith (checkedSub rec.reserved newReserve)
      let risk ← liftRisk (e.risk.releaseResting rec.account release)
      return { e with
        risk := risk
        orderReserves :=
          if newQty.val = 0 then e.orderReserves.erase k
          else e.orderReserves.insert k ⟨rec.account, newReserve, newQty⟩ }

/-! ## Claim orders -/

section

variable (account : AccountId) (market : MarketId)

/-- The claim set of an account in a market, padded to the number of outcomes. -/
def claimEntry (outcomes : Nat) : List Amount :=
  let entry := (e.claims.get? ⟨account, market⟩).getD (List.replicate outcomes I128.zero)
  entry ++ List.replicate (outcomes - entry.length) I128.zero

def setClaims (entry : List Amount) : Engine sha256 :=
  { e with claims := e.claims.insert ⟨account, market⟩ entry }

def creditClaims (instrument : U16)
    (outcomes : U16) (amount : Amount) : Attempt (Engine sha256) := do
  let entry := e.claimEntry account market outcomes
  let held ← orError entry[instrument.val]? .escrowInconsistency
  let sum ← liftArith (checkedAdd held amount)
  return e.setClaims account market (entry.set instrument.val sum)

def debitClaims (instrument : U16)
    (outcomes : U16) (amount : Amount) : Attempt (Engine sha256) := do
  let entry := e.claimEntry account market outcomes
  let held ← orError entry[instrument.val]? .insufficientClaims
  require (amount.val ≤ held.val) .insufficientClaims
  let left ← liftArith (checkedSub held amount)
  return e.setClaims account market (entry.set instrument.val left)

/-- Move the premium of a resting bid into escrow. -/
def escrowPremium (premium : Amount) : Attempt (Engine sha256) :=
  if 0 < premium.val then do
    let ledger ← e.ledger.escrow account premium
    let risk ← liftRisk (e.risk.debitCollateral account premium)
    let column ← columnAdd e.bidPremiumEscrow ⟨account, market⟩ premium
    return { e with ledger := ledger, risk := risk, bidPremiumEscrow := column }
  else .ok e

/-- Move the claims of a resting ask into escrow. -/
def escrowClaims (instrument : U16) (need : Amount) : Attempt (Engine sha256) := do
  let entry ← orError (e.claims.get? ⟨account, market⟩) .insufficientClaims
  let held := entry[instrument.val]?.getD I128.zero
  require (need.val ≤ held.val) .insufficientClaims
  let left ← liftArith (checkedSub held need)
  let column ← columnAdd e.askClaimsEscrow ⟨account, market, instrument⟩ need
  return { e.setClaims account market (entry.set instrument.val left) with
    askClaimsEscrow := column }

end

section

variable (k : OrderKey)

def escrowClaimResting (account : AccountId) (side : Side)
    (price : Price) (remaining : Quantity) : Attempt (Engine sha256) :=
  if remaining.val ≤ 0 then .ok e
  else
    match side with
    | .bid => do
        let premium := Price.notional price remaining
        let e ← e.escrowPremium account k.market premium
        return { e with
          claimEscrows := e.claimEscrows.insert k ⟨account, .bid, premium, I128.zero⟩ }
    | .ask => do
        let need := Amount.fromQuantity remaining
        let e ← e.escrowClaims account k.market k.instrument need
        return { e with
          claimEscrows := e.claimEscrows.insert k ⟨account, .ask, I128.zero, need⟩ }

/-- Return the premium left in a bid's escrow. -/
def returnPremium (record : ClaimOrderEscrow) : Attempt (Engine sha256) :=
  if 0 < record.premium.val then do
    let column ← columnSub e.bidPremiumEscrow ⟨record.account, k.market⟩ record.premium
    let ledger ← e.ledger.releaseEscrow record.account record.premium
    let risk ← liftRisk (e.risk.creditCollateral record.account record.premium)
    return { e with bidPremiumEscrow := column, ledger := ledger, risk := risk }
  else .ok e

/-- Return the claims left in an ask's escrow. -/
def returnClaims (record : ClaimOrderEscrow) : Attempt (Engine sha256) :=
  if 0 < record.claims.val then do
    let column ← columnSub e.askClaimsEscrow ⟨record.account, k.market, k.instrument⟩ record.claims
    let info ← orError (e.markets.get? k.market) .unknownMarket
    ({ e with askClaimsEscrow := column }).creditClaims record.account k.market k.instrument
      info.count record.claims
  else .ok e

/-- Return what is left in an escrow record. -/
def returnEscrow (record : ClaimOrderEscrow) : Attempt (Engine sha256) :=
  match record.side with
  | .bid => e.returnPremium k record
  | .ask => e.returnClaims k record

/-- `Engine::release_claim_escrow`: the owner released, if there was a record. -/
def releaseClaimEscrow (expected : Option AccountId) : Attempt (Engine sha256 × Option AccountId) :=
  match e.claimEscrows.get? k with
  | none => .ok (e, none)
  | some record => do
      require (∀ owner ∈ expected, record.account = owner) .orderNotOwned
      let e ← e.returnEscrow k record
      return ({ e with claimEscrows := e.claimEscrows.erase k }, some record.account)

def drawBidEscrow (buyer : AccountId) (premium : Amount) : Attempt (Engine sha256) :=
  if premium.val = 0 then .ok e
  else do
    let record ← orError (e.claimEscrows.get? k) .escrowInconsistency
    require (record.account = buyer ∧ record.side = .bid ∧ premium.val ≤ record.premium.val)
      .escrowInconsistency
    let left ← liftArith (checkedSub record.premium premium)
    let column ← columnSub e.bidPremiumEscrow ⟨buyer, k.market⟩ premium
    return { e with
      claimEscrows := e.claimEscrows.insert k { record with premium := left }
      bidPremiumEscrow := column }

def drawAskEscrow (seller : AccountId) (qty : Amount) : Attempt (Engine sha256) :=
  if qty.val = 0 then .ok e
  else do
    let record ← orError (e.claimEscrows.get? k) .escrowInconsistency
    require (record.account = seller ∧ record.side = .ask ∧ qty.val ≤ record.claims.val)
      .escrowInconsistency
    let left ← liftArith (checkedSub record.claims qty)
    let column ← columnSub e.askClaimsEscrow ⟨seller, k.market, k.instrument⟩ qty
    return { e with
      claimEscrows := e.claimEscrows.insert k { record with claims := left }
      askClaimsEscrow := column }

end

/-! ## Self-trade prevention -/

/-- Release what backed one resting order that self-trade prevention removed. -/
def releaseStpCancellation (market : MarketId) (instrument : U16) (incoming : AccountId)
    (marketType : MarketType) (e : Engine sha256) (c : StpCancellation) :
    Attempt (Engine sha256) := do
  require (c.account = incoming) (.stateInvariant stpCancellationAccountMismatch)
  let k : OrderKey := ⟨market, instrument, c.orderId⟩
  let mismatch := .stateInvariant stpCancellationSidecarMismatch
  if isClaimMarket marketType then do
    require (e.orderReserves.get? k = none) mismatch
    let record ← orError (e.claimEscrows.get? k) mismatch
    require (record.backs c.account c.side c.price c.remaining) mismatch
    let released ← e.releaseClaimEscrow k (some incoming)
    require (released.2 ≠ none) mismatch
    return released.1
  else do
    require (e.claimEscrows.get? k = none) mismatch
    require (reserveBacks (e.orderReserves.get? k) c.account c.price c.remaining) mismatch
    match e.orderReserves.get? k with
    | none => return e
    | some record => do
        let risk ← liftRisk (e.risk.releaseResting record.account record.reserved)
        return { e with risk := risk, orderReserves := e.orderReserves.erase k }

def releaseStpCancellations (e : Engine sha256) (market : MarketId) (instrument : U16)
    (incoming : AccountId) (marketType : MarketType) (cancellations : List StpCancellation) :
    Attempt (Engine sha256) :=
  cancellations.foldlM (releaseStpCancellation market instrument incoming marketType) e

/-! ## Fills -/

def signed (side : Side) (qty : Quantity) : Attempt Quantity :=
  match side with
  | .bid => .ok qty
  | .ask => liftArith (checkedSub I64.zero qty)

/-- The claim and cash legs of a fill whose taker buys from a resting ask. -/
def settleTakerBid (k : OrderKey) (outcomes : U16) (fill : Fill) : LegAttempt (Engine sha256) := do
  let qty := Amount.fromQuantity fill.quantity
  let seller := fill.makerAccount
  let buyer := fill.takerAccount
  let e ← Leg.maker.run (e.drawAskEscrow k seller qty)
  let e ← Leg.taker.run (e.creditClaims buyer k.market k.instrument outcomes qty)
  let premium := Price.notional fill.price fill.quantity
  if 0 < premium.val then do
    let ledger ← Leg.taker.run (e.ledger.transferAvailable buyer seller premium)
    let risk ← Leg.taker.run (liftRisk (e.risk.debitCollateral buyer premium))
    let risk ← Leg.maker.run (liftRisk (risk.creditCollateral seller premium))
    return { e with ledger := ledger, risk := risk }
  else return e

/-- The claim and cash legs of a fill whose taker sells to a resting bid. -/
def settleTakerAsk (k : OrderKey) (outcomes : U16) (fill : Fill) : LegAttempt (Engine sha256) := do
  let qty := Amount.fromQuantity fill.quantity
  let seller := fill.takerAccount
  let buyer := fill.makerAccount
  let e ← Leg.taker.run (e.debitClaims seller k.market k.instrument outcomes qty)
  let e ← Leg.maker.run (e.creditClaims buyer k.market k.instrument outcomes qty)
  let premium := Price.notional fill.price fill.quantity
  if 0 < premium.val then do
    let e ← Leg.maker.run (e.drawBidEscrow k buyer premium)
    let ledger ← Leg.maker.run (e.ledger.settleEscrow buyer seller premium)
    let risk ← Leg.taker.run (liftRisk (e.risk.creditCollateral seller premium))
    return { e with ledger := ledger, risk := risk }
  else return e

def applyClaimFill (k : OrderKey) (fill : Fill) : LegAttempt (Engine sha256) := do
  let info ← Leg.taker.run (orError (e.markets.get? k.market) .unknownMarket)
  Leg.taker.run (require (k.instrument < info.count) .invalidInstrument)
  Leg.taker.run (require (0 < fill.quantity.val) .negativeAmount)
  match fill.takerSide with
  | .bid => e.settleTakerBid k info.count fill
  | .ask => e.settleTakerAsk k info.count fill

/-- The position legs of a perpetual fill. -/
def applyPerpFill (market : MarketId) (fill : Fill) : LegAttempt (Engine sha256) := do
  let takerSigned ← Leg.taker.run (signed fill.takerSide fill.quantity)
  let makerSigned ← Leg.maker.run (signed fill.takerSide.opposite fill.quantity)
  let risk ← Leg.taker.run
    (liftRisk (e.risk.applyFill fill.takerAccount market takerSigned fill.price))
  let risk ← Leg.maker.run
    (liftRisk (risk.applyFill fill.makerAccount market makerSigned fill.price))
  return { e with risk := risk }

/-- The absolute value of a notional. -/
def magnitude (notional : Amount) : Except ArithError Amount :=
  if notional.val < 0 then checkedSub I128.zero notional else .ok notional

/-- `Engine::markets_fill_fee`: a fee is rounded up, a rebate down. -/
def marketsFillFee (notional : Amount) (bps : Int) : Attempt Amount :=
  if bps = 0 ∨ notional.val = 0 then .ok I128.zero
  else do
    require (bps.natAbs ≤ 10000) (.notImplemented "fee bps out of range")
    let mag ← liftArith (magnitude notional)
    let ratio ← liftArith (ratioFromBps bps.natAbs)
    if 0 < bps then liftArith (Amount.mulRatioCeil mag ratio)
    else do
      let rebate ← liftArith (Amount.mulRatio mag ratio)
      liftArith (checkedSub I128.zero rebate)

/-- Charge an account its fee, or credit its rebate. -/
def chargeFee (e : Engine sha256) (account : AccountId) (notional : Amount) (bps : Int) :
    Attempt (Engine sha256) :=
  if bps = 0 then .ok e
  else do
    let fee ← marketsFillFee notional bps
    if 0 < fee.val then do
      let risk ← liftRisk (e.risk.applyFee account fee)
      return { e with risk := risk }
    else if fee.val < 0 then do
      let rebate ← liftArith (checkedSub I128.zero fee)
      let risk ← liftRisk (e.risk.applyFunding account rebate)
      return { e with risk := risk }
    else return e

/-- The claim or position legs of a fill. -/
def applyLegs (info : MarketMeta) (k : OrderKey) (e : Engine sha256) (fill : Fill) :
    LegAttempt (Engine sha256) :=
  if isClaimMarket info.marketType then e.applyClaimFill k fill
  else e.applyPerpFill k.market fill

/-- Release the rest of an escrow once its order has left the book. -/
def releaseConsumed (e : Engine sha256) (k : OrderKey) : Attempt (Engine sha256) :=
  if (e.resting k).isNone then (e.releaseClaimEscrow k none).map Prod.fst else .ok e

/-- One turn of `Engine::apply_fills`. -/
def applyFill (info : MarketMeta) (market : MarketId) (instrument : U16) (e : Engine sha256)
    (fill : Fill) : LegAttempt (Engine sha256) := do
  let k : OrderKey := ⟨market, instrument, fill.makerOrder⟩
  let e ← applyLegs info k e fill
  let notional := Price.notional fill.price fill.quantity
  let e ← Leg.maker.run (e.telescopeReserve k fill)
  let e ← Leg.maker.run (e.releaseConsumed k)
  let e ← Leg.taker.run (e.chargeFee fill.takerAccount notional info.takerFeeBps.val)
  Leg.maker.run (e.chargeFee fill.makerAccount notional info.makerFeeBps.val)

/-- `Engine::apply_fills`, with the leg of a failure. -/
def applyFillLegs (e : Engine sha256) (market : MarketId) (instrument : U16) (fills : List Fill) :
    LegAttempt (Engine sha256) := do
  let info ← Leg.taker.run (orError (e.markets.get? market) .unknownMarket)
  fills.foldlM (applyFill info market instrument) e

def applyFills (e : Engine sha256) (market : MarketId) (instrument : U16) (fills : List Fill) :
    Attempt (Engine sha256) :=
  (e.applyFillLegs market instrument fills).mapError Prod.snd

variable (fills : List Fill)

/-- The accounts of some fills, sorted and without repetition. -/
def touchedBy : AccountSet :=
  fills.foldl (fun s f => (s.insert f.takerAccount ()).insert f.makerAccount ()) ∅

def filledQuantity : Quantity :=
  fills.foldl (fun total f => total.saturatingAdd f.quantity) I64.zero

/-- `Engine::residual_notional`: the notional and the quantity left of a request. -/
def residualNotional (price : Price) (requested : Quantity) : Amount × Quantity :=
  let remaining := requested.saturatingSub (filledQuantity fills)
  if remaining.val ≤ 0 then (I128.zero, I64.zero) else (Price.notional price remaining, remaining)

end Engine

end Dexos.Execution
