import Dexos.Clob.Fixed

/-!
# Perpetual positions

A position is a signed net quantity with the volume-weighted average of its entry prices.
A fill that increases it re-weights the average, a fill that reduces it realizes profit on
the closed part, and a fill that flips it opens the rest at the fill price.
-/

namespace Dexos.Risk

open Foundations Clob Scalar

abbrev MarketId := U32

/-- The errors that the modelled operations of the risk engine return. -/
inductive RiskError where
  | unknownAccount
  | accountExists
  | accountClosed
  | insufficientMargin (required available : Amount)
  | leverageExceeded
  | portfolioLimitExceeded
  | marketLimitExceeded
  | nothingToReduce
  | insufficientCollateral
  | negativeAmount
  | capacityExceeded (index capacity : Nat)
  | arith (error : ArithError)
  | id
  | payoutEmpty
  | stateInvariant (reason : String)
deriving DecidableEq

def arith {α : Type} (x : Except ArithError α) : Except RiskError α := x.mapError .arith

@[simp] theorem arith_eq_ok {α : Type} {x : Except ArithError α} {a : α} :
    arith x = .ok a ↔ x = .ok a :=
  mapError_eq_ok

def absAmount (a : Amount) : Except RiskError Amount :=
  if a.val < 0 then arith (checkedSub I128.zero a) else .ok a

def negAmount (a : Amount) : Except RiskError Amount := arith (checkedSub I128.zero a)

structure PerpPosition where
  market : MarketId
  netQty : Quantity
  avgEntry : Price
deriving DecidableEq

/-- `weighted_avg`: the products of two `i64` fit, so only the sum is checked. -/
def weightedAvg (q0 : Quantity) (p0 : Price) (q1 : Quantity) (p1 : Price) :
    Except RiskError Price := do
  require (-2 ^ 63 < q0.val ∧ -2 ^ 63 < q1.val) (.arith .overflow)
  let num : I128 ←
    arith (orError (Bounded.narrow (|q0.val| * p0.val + |q1.val| * p1.val)) .overflow)
  let den := |q0.val| + |q1.val|
  require (den ≠ 0) (.arith .divByZero)
  arith (orError (Bounded.narrow (num.val.tdiv den)) .outOfRange)

/-- `min_abs`, with its clamp to `i64::MAX`. -/
def minAbs (a b : I64) : I64 :=
  ⟨min (2 ^ 63 - 1) (min |a.val| |b.val|), by
    have := abs_nonneg a.val
    have := abs_nonneg b.val
    constructor
    · exact le_min (by decide) (le_min (by omega) (by omega))
    · exact min_le_left _ _⟩

namespace PerpPosition

def flat (market : MarketId) : PerpPosition := ⟨market, I64.zero, I64.zero⟩

variable (p : PerpPosition)

def isFlat : Bool := decide (p.netQty.val = 0)

/-- The average entry after a fill against the position's direction. -/
def reducedEntry (price : Price) (newNet : Quantity) : Price :=
  if newNet.val = 0 then I64.zero
  else if 0 < newNet.val ↔ 0 < p.netQty.val then p.avgEntry
  else price

/-- The profit of a close: its gross value for a long, the opposite for a short. -/
def realizedOf (gross : Amount) : Except RiskError Amount :=
  if 0 < p.netQty.val then .ok gross else arith (checkedSub I128.zero gross)

/-- `PerpPosition::apply_fill`: the new position and the realized profit. -/
def applyFill (dq : Quantity) (price : Price) : Except RiskError (PerpPosition × Amount) :=
  if dq.val = 0 then .ok (p, I128.zero)
  else if p.netQty.val = 0 then .ok ({ p with netQty := dq, avgEntry := price }, I128.zero)
  else if 0 < p.netQty.val ↔ 0 < dq.val then do
    let newNet ← arith (checkedAdd p.netQty dq)
    let avg ← weightedAvg p.netQty p.avgEntry dq price
    return ({ p with netQty := newNet, avgEntry := avg }, I128.zero)
  else do
    let diff ← arith (checkedSub price p.avgEntry)
    let realized ← p.realizedOf (Price.notional diff (minAbs p.netQty dq))
    let newNet ← arith (checkedAdd p.netQty dq)
    return ({ p with netQty := newNet, avgEntry := p.reducedEntry price newNet }, realized)

def signedNotional (mark : Price) : Amount := Price.notional mark p.netQty

def exposure (mark : Price) : Except RiskError Amount :=
  absAmount (p.signedNotional mark)

def unrealized (mark : Price) : Except RiskError Amount := do
  let diff ← arith (checkedSub mark p.avgEntry)
  return Price.notional diff p.netQty

variable {p} {realized : Amount} {price : Price} {dq : Quantity} {p p' : PerpPosition}

theorem applyFill_market (filled : p.applyFill dq price = .ok (p', realized)) :
    p'.market = p.market := by
  rw [applyFill] at filled
  split_ifs at filled with still empty same
  · cases filled
    rfl
  · cases filled
    rfl
  · simp only [ok_iff] at filled
    obtain ⟨net, -, avg, -, rfl, -⟩ := filled
    rfl
  · simp only [ok_iff] at filled
    obtain ⟨diff, -, profit, -, net, -, rfl, -⟩ := filled
    rfl

/-- A fill moves the net quantity by exactly the filled quantity. -/
theorem applyFill_netQty (filled : p.applyFill dq price = .ok (p', realized)) :
    p'.netQty.val = p.netQty.val + dq.val := by
  rw [applyFill] at filled
  split_ifs at filled with still empty same
  · cases filled
    omega
  · cases filled
    dsimp only
    omega
  · simp only [ok_iff, arith_eq_ok, checkedAdd_eq_ok] at filled
    obtain ⟨net, sum, avg, -, rfl, -⟩ := filled
    exact sum
  · simp only [ok_iff, arith_eq_ok, checkedAdd_eq_ok] at filled
    obtain ⟨diff, -, profit, -, net, sum, rfl, -⟩ := filled
    exact sum

end PerpPosition

/-! ## Payout-vector positions -/

/-- A multi-outcome position: the payouts of its outcomes and a signed quantity. -/
structure PayoutPosition where
  payout : List Amount
  signedQty : Quantity
deriving DecidableEq

/-- `worst_case_scenario_pnl`: the least payout of the position over the outcomes. -/
def PayoutPosition.worstCasePnl (p : PayoutPosition) : Except RiskError Amount := do
  let values ← p.payout.mapM fun v => arith (Amount.mulRatio v p.signedQty)
  match values with
  | [] => .error .payoutEmpty
  | v :: rest => .ok (rest.foldl min v)

end Dexos.Risk
