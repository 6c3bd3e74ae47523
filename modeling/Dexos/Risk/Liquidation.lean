import Dexos.Risk.Engine

/-!
# Liquidation

Auto-deleveraging at the mark, the draw on the insurance fund and the pro-rata haircut of
solvent collateral. A liquidated account is closed for good.
-/

namespace Dexos.Risk

open Foundations Clob Scalar Bounded

/-- A transfer of exposure to a counterparty. -/
structure AdlFill where
  counterparty : AccountId
  market : MarketId
  quantity : Quantity
  price : Price
deriving DecidableEq

structure LiquidationOutcome where
  account : AccountId
  finalEquity : Amount
  insuranceDrawn : Amount
  socializedLoss : Amount
  socializedCharged : Amount
  returnedCollateral : Amount
  adlFills : List AdlFill
  haircuts : List (AccountId × Amount)
deriving DecidableEq

/-- A ranked counterparty: its unrealized profit, its account and its signed quantity. -/
structure Candidate where
  profit : Amount
  account : AccountId
  quantity : Quantity
deriving DecidableEq

/-- The deleveraging order: most profitable first, ties by account. -/
def Candidate.before (a b : Candidate) : Prop :=
  b.profit.val < a.profit.val ∨ (a.profit.val = b.profit.val ∧ a.account ≤ b.account)

instance : DecidableRel Candidate.before := fun a b =>
  inferInstanceAs (Decidable (b.profit.val < a.profit.val ∨
    (a.profit.val = b.profit.val ∧ a.account ≤ b.account)))

def accountOf (i : Nat) : Except RiskError AccountId :=
  if h : i < 2 ^ 32 then .ok ⟨i, h⟩ else .error .id

/-- A signed quantity in the range of `i64`. -/
def signed (v : Int) : Except RiskError Quantity := arith (orError (narrow v) .outOfRange)

namespace RiskEngine

/-! ## Auto-deleveraging -/

def marketLeg (a : Account) (m : MarketId) (mark : Price) :
    Except RiskError (Option (Quantity × Amount)) :=
  match a.perp.find? fun p => p.market = m with
  | some p => do
      let profit ← p.unrealized mark
      return some (p.netQty, profit)
  | none => .ok none

/-- The candidate that one holder contributes to the ranking. -/
def candidateOf (e : RiskEngine) (victim : AccountId) (victimQty : Quantity) (m : MarketId)
    (mark : Price) (holder : AccountId) : Except RiskError (Option Candidate) :=
  match e.slot holder with
  | none => .ok none
  | some a =>
    if holder = victim ∨ a.isOpen = false then .ok none
    else do
      let leg ← marketLeg a m mark
      return leg.bind fun l =>
        if 0 < l.1.val ↔ 0 < victimQty.val then none else some ⟨l.2, holder, l.1⟩

/-- The counterparties of a leg, in deleveraging order. -/
def ranked (e : RiskEngine) (victim : AccountId) (victimQty : Quantity) (m : MarketId)
    (mark : Price) : Except RiskError (List Candidate) := do
  let found ← (e.holders m).keys.mapM (e.candidateOf victim victimQty m mark)
  return (found.filterMap id).insertionSort Candidate.before

/-- The variables of the transfer loop. -/
structure Deleveraging where
  engine : RiskEngine
  remaining : Int
  fills : List AdlFill

/-- One turn of the transfer loop; a closed leg leaves the other counterparties alone. -/
def transferTo (victim : AccountId) (victimQty : Quantity) (m : MarketId) (mark : Price)
    (s : Deleveraging) (c : Candidate) : Except RiskError Deleveraging := do
  if s.remaining = 0 then return s
  else do
    let transfer ← signed (min |s.remaining| |c.quantity.val|)
    if transfer.val = 0 then return s
    else do
      let counterFill ← signed (if 0 < c.quantity.val then -transfer.val else transfer.val)
      let victimFill ← signed (if 0 < victimQty.val then -transfer.val else transfer.val)
      let e ← s.engine.fillIndex c.account m counterFill mark
      let e ← e.fillIndex victim m victimFill mark
      return ⟨e, s.remaining + victimFill.val, s.fills ++ [⟨c.account, m, transfer, mark⟩]⟩

/-- The close of one leg of `RiskEngine::auto_deleverage`. -/
def closeLeg (victim : AccountId) (s : RiskEngine × List AdlFill) (leg : PerpPosition) :
    Except RiskError (RiskEngine × List AdlFill) :=
  match s.1.markFor leg.market with
  | none => do
      -- Without a reference price the leg closes at its own entry.
      let close ← arith (orError (narrow (-leg.netQty.val)) .overflow)
      let e ← s.1.fillIndex victim leg.market close leg.avgEntry
      return (e, s.2)
  | some mark => do
      let candidates ← s.1.ranked victim leg.netQty leg.market mark
      let after ← candidates.foldlM (transferTo victim leg.netQty leg.market mark)
        ⟨s.1, leg.netQty.val, s.2⟩
      if after.remaining = 0 then return (after.engine, after.fills)
      else do
        let close ← signed (-after.remaining)
        let e ← after.engine.fillIndex victim leg.market close mark
        return (e, after.fills)

def autoDeleverage (e : RiskEngine) (victim : AccountId) :
    Except RiskError (RiskEngine × List AdlFill) := do
  let a ← orError (e.slot victim) .unknownAccount
  (a.perp.filter fun p => !p.isFlat).foldlM (closeLeg victim) (e, [])

/-! ## Socialized losses -/

/-- The solvent accounts with positive collateral, in slab order. -/
def solvent (e : RiskEngine) (exclude : AccountId) : List (Nat × Int) :=
  e.accounts.zipIdx.filterMap fun x =>
    if x.2 = exclude.val ∨ x.1.isOpen = false ∨ x.1.collateral.val ≤ 0 then none
    else some (x.2, x.1.collateral.val)

/-- A sum or a product in the range of `i128`. -/
def inI128 (v : Int) : Except RiskError Int :=
  (arith (orError (narrow v : Option I128) .overflow)).map Subtype.val

/-- Hand out the remainder of the floor shares, each account up to its collateral. -/
def handOut : Int → List (Int × Int) → List Int
  | _, [] => []
  | remainder, (collateral, share) :: rest =>
    let give := if remainder = 0 then 0 else min remainder (collateral - share)
    (share + give) :: handOut (remainder - give) rest

/-- Charge one account of the pool its share. -/
def chargeShare (s : RiskEngine × Amount × List (AccountId × Amount)) (x : Nat × Int) :
    Except RiskError (RiskEngine × Amount × List (AccountId × Amount)) :=
  if x.2 ≤ 0 then .ok s
  else do
    let account ← accountOf x.1
    let debit ← arith (orError (narrow x.2) .overflow)
    let a ← orError (s.1.slot account) .unknownAccount
    let collateral ← arith (checkedSub a.collateral debit)
    let e ← s.1.setCollateral account a collateral
    let charged ← arith (checkedAdd s.2.1 debit)
    return (e, charged, s.2.2 ++ [(account, debit)])

variable (e : RiskEngine)

def socialize (exclude : AccountId) (amount : Amount) :
    Except RiskError (RiskEngine × Amount × List (AccountId × Amount)) :=
  if amount.val ≤ 0 then .ok (e, I128.zero, [])
  else do
    let pool := e.solvent exclude
    let totalBase ← pool.foldlM (fun sum x => inI128 (sum + x.2)) 0
    if totalBase ≤ 0 then return (e, I128.zero, [])
    else do
      let toDistribute := min amount.val totalBase
      let shares ← pool.mapM fun x => do
        let product ← inI128 (toDistribute * x.2)
        return product.tdiv totalBase
      let handed := handOut (toDistribute - shares.sum) ((pool.map Prod.snd).zip shares)
      ((pool.map Prod.fst).zip handed).foldlM chargeShare (e, I128.zero, [])

/-! ## The pipeline -/

variable (account : AccountId)

/-- What a shortfall draws from the fund and from solvent accounts. -/
def coverShortfall (finalEquity : Amount) :
    Except RiskError (RiskEngine × Amount × Amount × Amount × List (AccountId × Amount)) := do
  let shortfall ← negAmount finalEquity
  let drawn := min e.insurance shortfall
  let balance ← arith (checkedSub e.insurance drawn)
  let uncovered ← arith (checkedSub shortfall drawn)
  let total ← arith (checkedAdd e.socializedTotal uncovered)
  let s ← ({ e with insurance := balance, socializedTotal := total }).socialize account uncovered
  return (s.1, drawn, uncovered, s.2.1, s.2.2)

/-- Drop an account from the holders of every market. -/
def leaveMarkets : RiskEngine :=
  { e with markets := e.markets.map fun s : MarketSlot =>
      { s with holders := s.holders.erase account } }

/-- The close of a liquidated account. -/
def closeAccount : Except RiskError RiskEngine := do
  let a ← orError (e.slot account) .unknownAccount
  let e ← (e.leaveMarkets account).store account { a with
    perp := []
    payout := []
    collateral := I128.zero
    reservedResting := I128.zero
    isOpen := false }
  return { e with liqQueue := e.liqQueue.remove account }

def liquidate : Except RiskError (RiskEngine × LiquidationOutcome) := do
  let _ ← e.active account
  let deleveraged ← e.autoDeleverage account
  let a ← orError (deleveraged.1.slot account) .unknownAccount
  let e ← deleveraged.1.store account { a with payout := [] }
  let a ← orError (e.slot account) .unknownAccount
  let finalEquity := a.cached.equity
  if finalEquity.val < 0 then do
    let covered ← e.coverShortfall account finalEquity
    let e ← covered.1.closeAccount account
    return (e, ⟨account, finalEquity, covered.2.1, covered.2.2.1, covered.2.2.2.1, I128.zero,
      deleveraged.2, covered.2.2.2.2⟩)
  else do
    let e ← e.closeAccount account
    return (e, ⟨account, finalEquity, I128.zero, I128.zero, I128.zero, finalEquity,
      deleveraged.2, []⟩)

end RiskEngine

end Dexos.Risk
