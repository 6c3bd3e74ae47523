import Mathlib.Algebra.Order.Ring.Abs
import Dexos.Foundations.Attempt
import Dexos.Clob.Types

/-!
# Fixed-point arithmetic

Prices, quantities, amounts and ratios are integers scaled by one million. Every fallible
operation returns an error instead of a truncated value. A notional is rounded toward zero,
or upwards where it is an obligation.
-/

namespace Dexos.Clob

open Foundations Bounded

inductive ArithError where
  | overflow
  | divByZero
  | outOfRange
deriving DecidableEq, Repr

abbrev Ratio := I64

/-- `RATIO_SCALE`, and the divisor of a notional. -/
def scale : Int := 1000000

/-- An amount, for concrete states. -/
def micros (v : Int) : I128 := (narrow v).getD I128.zero

/-- A price, a quantity or a ratio, for concrete states. -/
def units (v : Int) : I64 := (narrow v).getD I64.zero

/-! ## Scalars -/

namespace Scalar

variable {lo hi : Int}

def checkedAdd (a b : Bounded lo hi) : Except ArithError (Bounded lo hi) :=
  orError (a.checkedAdd b) .overflow

def checkedSub (a b : Bounded lo hi) : Except ArithError (Bounded lo hi) :=
  orError (a.checkedSub b) .overflow

@[simp] theorem checkedAdd_eq_ok {a b c : Bounded lo hi} :
    checkedAdd a b = .ok c ↔ c.val = a.val + b.val := by
  rw [checkedAdd, orError_eq_ok, checkedAdd_eq_some]

@[simp] theorem checkedSub_eq_ok {a b c : Bounded lo hi} :
    checkedSub a b = .ok c ↔ c.val = a.val - b.val := by
  rw [checkedSub, orError_eq_ok, checkedSub_eq_some]

theorem exists_checkedSub {a b : Bounded lo hi} (lower : lo ≤ a.val - b.val)
    (upper : a.val - b.val ≤ hi) : ∃ c : Bounded lo hi, checkedSub a b = .ok c :=
  ⟨⟨_, lower, upper⟩, checkedSub_eq_ok.2 rfl⟩

end Scalar

/-! ## Products -/

/-- Division by the scale, rounded toward zero, with the remainder of the dividend's sign. -/
theorem tdiv_scale (v : Int) :
    v = scale * v.tdiv scale + v.tmod scale ∧ -scale < v.tmod scale ∧ v.tmod scale < scale ∧
      (0 ≤ v → 0 ≤ v.tmod scale) ∧ (v ≤ 0 → v.tmod scale ≤ 0) := by
  have positive : 0 < scale := by decide
  refine ⟨(Int.mul_tdiv_add_tmod v scale).symm, Int.lt_tmod_of_pos v positive,
    Int.tmod_lt_of_pos v positive, Int.tmod_nonneg scale, fun below => ?_⟩
  have opposite := Int.tmod_nonneg scale (Int.neg_nonneg_of_nonpos below)
  rw [Int.neg_tmod] at opposite
  exact Int.nonpos_of_neg_nonneg opposite

/-- The product scaled back, rounded toward zero. -/
def I128.scaled (v : I128) : I128 :=
  ⟨v.val.tdiv scale, by
    have range := v.property
    have whole := tdiv_scale v.val
    generalize v.val.tdiv scale = quotient at *
    generalize v.val.tmod scale = remainder at *
    rw [scale] at *
    omega⟩

/-- The product scaled back, rounded toward positive infinity. -/
def I128.scaledCeil (v : I128) : I128 :=
  ⟨v.val.tdiv scale + (if 0 < v.val.tmod scale then 1 else 0), by
    have range := v.property
    have whole := tdiv_scale v.val
    generalize v.val.tdiv scale = quotient at *
    generalize v.val.tmod scale = remainder at *
    rw [scale] at *
    split_ifs <;> omega⟩

def Amount.mulRatio (a : Amount) (ratio : Ratio) : Except ArithError Amount :=
  (orError (narrow (a.val * ratio.val)) .overflow).map I128.scaled

def Amount.mulRatioCeil (a : Amount) (ratio : Ratio) : Except ArithError Amount :=
  (orError (narrow (a.val * ratio.val)) .overflow).map I128.scaledCeil

def ratioFromBps (bps : Nat) : Except ArithError Ratio :=
  orError (narrow (bps * 100)) .overflow

def Amount.fromQuantity (q : Quantity) : Amount :=
  ⟨q.val, by
    have range := q.property
    omega⟩

@[simp] theorem Amount.fromQuantity_val (q : Quantity) : (Amount.fromQuantity q).val = q.val := by
  rw [Amount.fromQuantity]

/-- The exact product of a price and a quantity; it always fits. -/
def exactNotional (price : Price) (qty : Quantity) : I128 :=
  ⟨price.val * qty.val, by
    obtain ⟨p, p_low, p_high⟩ := price
    obtain ⟨q, q_low, q_high⟩ := qty
    have bound : |p * q| ≤ 2 ^ 63 * 2 ^ 63 := by
      rw [abs_mul]
      exact mul_le_mul (abs_le.2 ⟨p_low, by omega⟩) (abs_le.2 ⟨q_low, by omega⟩)
        (abs_nonneg q) (by decide)
    have := abs_le.1 bound
    dsimp only
    omega⟩

/-- `Price::notional`: the `i128` product of two `i64` never overflows. -/
def Price.notional (price : Price) (qty : Quantity) : Amount := (exactNotional price qty).scaled

def Price.notionalCeil (price : Price) (qty : Quantity) : Amount :=
  (exactNotional price qty).scaledCeil

theorem Price.notional_val (price : Price) (qty : Quantity) :
    (price.notional qty).val = (price.val * qty.val).tdiv scale := rfl

/-- A non-negative notional is the integer part of the exact product. -/
theorem Price.notional_floor {price : Price} {qty : Quantity} (p : 0 ≤ price.val)
    (q : 0 ≤ qty.val) : (price.notional qty).val = price.val * qty.val / scale := by
  rw [Price.notional_val, Int.tdiv_eq_ediv_of_nonneg (mul_nonneg p q)]

theorem Price.notional_nonneg {price : Price} {qty : Quantity} (p : 0 ≤ price.val)
    (q : 0 ≤ qty.val) : 0 ≤ (price.notional qty).val := by
  rw [Price.notional_floor p q]
  exact Int.ediv_nonneg (mul_nonneg p q) (by decide)

/-- Splitting a quantity can only lose notional to rounding. -/
theorem Price.notional_add_le {price : Price} {a b c : Quantity} (p : 0 ≤ price.val)
    (ha : 0 ≤ a.val) (hb : 0 ≤ b.val) (sum : c.val = a.val + b.val) :
    (price.notional a).val + (price.notional b).val ≤ (price.notional c).val := by
  rw [Price.notional_floor p ha, Price.notional_floor p hb, Price.notional_floor p (by omega),
    sum, mul_add]
  rw [scale]
  omega

end Dexos.Clob
