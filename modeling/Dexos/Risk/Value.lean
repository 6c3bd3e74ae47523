import Mathlib.Tactic.FieldSimp
import Mathlib.Tactic.LinearCombination
import Dexos.Risk.Exact

/-!
# The value of positions

The exact value of an engine is its collateral with the unrounded profit of its positions. A
fill changes it by the distance of its price from the mark, and by a rounding: the remainder of
the average entry, or of the realized profit. In a pair of opposite fills the distances cancel
and the roundings do not.
-/

namespace Dexos.Risk

open Foundations Clob List PerpPosition

/-! ## One position -/

/-- The profit that a fill of `d` at a price realizes on a position of `n` with an entry price. -/
def fillRealized (n entry d price : Int) : Int :=
  if d = 0 ∨ n = 0 ∨ (0 < n ↔ 0 < d) then 0
  else n.sign * ((price - entry) * min |n| |d|).tdiv scale

/-- What rounding adds to the value of a position in a fill, in millionths of a micro-unit. -/
def fillRounding (n entry d price : Int) : Int :=
  if d = 0 ∨ n = 0 then 0
  else if 0 < n ↔ 0 < d then n.sign * (|n| * entry + |d| * price).tmod (|n| + |d|)
  else -n.sign * ((price - entry) * min |n| |d|).tmod scale

section Position

variable {p p' : PerpPosition} {dq : Quantity} {price : Price} {realized : Amount}

theorem weightedAvg_ok {q0 q1 : Quantity} {p0 p1 avg : Price}
    (done : weightedAvg q0 p0 q1 p1 = .ok avg) :
    avg.val = (|q0.val| * p0.val + |q1.val| * p1.val).tdiv (|q0.val| + |q1.val|) := by
  simp only [weightedAvg, ok_iff, arith_eq_ok, Bounded.narrow_eq_some] at done
  obtain ⟨-, -, num, sum, -, -, quotient⟩ := done
  rw [quotient, sum]

/-- Against a position, a fill closes at most one of the two quantities. -/
theorem minAbs_val {a b : I64} (opposite : ¬ (0 < a.val ↔ 0 < b.val)) (a_ne : a.val ≠ 0)
    (b_ne : b.val ≠ 0) : (minAbs a b).val = min |a.val| |b.val| := by
  change min (2 ^ 63 - 1) (min |a.val| |b.val|) = _
  rcases abs_cases a.val with ⟨ha, -⟩ | ⟨ha, -⟩ <;>
    rcases abs_cases b.val with ⟨hb, -⟩ | ⟨hb, -⟩ <;>
    rw [ha] <;> omega

/-- The four ways of a fill. -/
theorem applyFill_cases (filled : p.applyFill dq price = .ok (p', realized)) :
    (dq.val = 0 ∧ p' = p ∧ realized.val = 0) ∨
      (dq.val ≠ 0 ∧ p.netQty.val = 0 ∧ p' = { p with netQty := dq, avgEntry := price } ∧
        realized.val = 0) ∨
      (dq.val ≠ 0 ∧ p.netQty.val ≠ 0 ∧ (0 < p.netQty.val ↔ 0 < dq.val) ∧
        p'.avgEntry.val = (|p.netQty.val| * p.avgEntry.val + |dq.val| * price.val).tdiv
          (|p.netQty.val| + |dq.val|) ∧ realized.val = 0) ∨
      dq.val ≠ 0 ∧ p.netQty.val ≠ 0 ∧ ¬ (0 < p.netQty.val ↔ 0 < dq.val) ∧
        (p'.avgEntry.val = if p'.netQty.val = 0 then 0
          else if 0 < p'.netQty.val ↔ 0 < p.netQty.val then p.avgEntry.val else price.val) ∧
        realized.val = p.netQty.val.sign *
          ((price.val - p.avgEntry.val) * min |p.netQty.val| |dq.val|).tdiv scale := by
  rw [applyFill] at filled
  split_ifs at filled with still empty same
  · cases filled
    exact .inl ⟨still, rfl, rfl⟩
  · cases filled
    exact .inr (.inl ⟨still, empty, rfl, rfl⟩)
  · simp only [ok_iff] at filled
    obtain ⟨net, -, avg, averaged, rfl, rfl⟩ := filled
    exact .inr (.inr (.inl ⟨still, empty, same, weightedAvg_ok averaged, rfl⟩))
  · simp only [ok_iff, arith_eq_ok, Scalar.checkedSub_eq_ok] at filled
    obtain ⟨diff, difference, profit, closed, net, -, rfl, rfl⟩ := filled
    refine .inr (.inr (.inr ⟨still, empty, same, ?_, ?_⟩))
    · dsimp only [reducedEntry]
      split_ifs <;> rfl
    · have gross : (Price.notional diff (minAbs p.netQty dq)).val =
          ((price.val - p.avgEntry.val) * min |p.netQty.val| |dq.val|).tdiv scale := by
        rw [Price.notional_val, difference, minAbs_val same empty still]
      rw [realizedOf] at closed
      rw [← gross]
      rcases lt_or_gt_of_ne empty with short | long
      · rw [if_neg short.not_gt, arith_eq_ok, Scalar.checkedSub_eq_ok] at closed
        rw [closed, Int.sign_eq_neg_one_of_neg short, neg_one_mul]
        exact zero_sub _
      · rw [if_pos long] at closed
        cases closed
        rw [Int.sign_eq_one_of_pos long, one_mul]

theorem applyFill_realized (filled : p.applyFill dq price = .ok (p', realized)) :
    realized.val = fillRealized p.netQty.val p.avgEntry.val dq.val price.val := by
  rw [fillRealized]
  obtain ⟨still, -, none⟩ | ⟨-, empty, -, none⟩ | ⟨-, -, same, -, none⟩ | ⟨still, empty, opposite,
    -, profit⟩ :=
    applyFill_cases filled
  · rw [none, if_pos (.inl still)]
  · rw [none, if_pos (.inr (.inl empty))]
  · rw [none, if_pos (.inr (.inr same))]
  · rw [profit, if_neg (by tauto)]

/-- The part of a position that an opposite fill closes: all of it, or what is filled. -/
theorem closed_cases {n d : Int} (n_ne : n ≠ 0) (d_ne : d ≠ 0) (opposite : ¬ (0 < n ↔ 0 < d)) :
    n.sign * min |n| |d| = if n + d = 0 then n else if 0 < n + d ↔ 0 < n then -d else n := by
  rcases lt_or_gt_of_ne n_ne with short | long
  · have bought : 0 < d := by omega
    rw [Int.sign_eq_neg_one_of_neg short, abs_of_neg short, abs_of_pos bought]
    split_ifs <;> omega
  · have sold : d < 0 := by omega
    rw [Int.sign_eq_one_of_pos long, abs_of_pos long, abs_of_neg sold]
    split_ifs <;> omega

/-- A fill moves its cost into the position, up to the rounding. -/
theorem applyFill_basis (filled : p.applyFill dq price = .ok (p', realized)) :
    scale * realized.val - p'.avgEntry.val * p'.netQty.val =
      -(p.avgEntry.val * p.netQty.val) - price.val * dq.val +
        fillRounding p.netQty.val p.avgEntry.val dq.val price.val := by
  have sum := applyFill_netQty filled
  rw [fillRounding]
  obtain ⟨still, rfl, none⟩ | ⟨-, empty, rfl, none⟩ | ⟨still, empty, same, avg, none⟩ |
    ⟨still, empty, opposite, entry, profit⟩ := applyFill_cases filled
  · rw [none, if_pos (.inl still), still]
    ring
  · rw [none, if_pos (.inr empty), empty]
    ring
  · rw [if_neg (by tauto), if_pos same, none, sum, avg]
    have whole := Int.mul_tdiv_add_tmod (|p.netQty.val| * p.avgEntry.val + |dq.val| * price.val)
      (|p.netQty.val| + |dq.val|)
    rcases lt_or_gt_of_ne empty with short | long
    · have sold : dq.val < 0 := by omega
      rw [abs_of_neg short, abs_of_neg sold] at *
      rw [Int.sign_eq_neg_one_of_neg short]
      linear_combination whole
    · have bought : 0 < dq.val := same.1 long
      rw [abs_of_pos long, abs_of_pos bought] at *
      rw [Int.sign_eq_one_of_pos long]
      linear_combination -whole
  · have closes := closed_cases empty still opposite
    have whole :=
        Int.mul_tdiv_add_tmod ((price.val - p.avgEntry.val) * min |p.netQty.val| |dq.val|) scale
    rw [if_neg (by tauto), if_neg opposite, profit, entry, sum]
    generalize p.netQty.val.sign = side at *
    split_ifs with gone kept
    · rw [if_pos gone] at closes
      linear_combination side * whole + (price.val - p.avgEntry.val) * closes + price.val * gone
    · rw [if_neg gone, if_pos kept] at closes
      linear_combination side * whole + (price.val - p.avgEntry.val) * closes
    · rw [if_neg gone, if_neg kept] at closes
      linear_combination side * whole + (price.val - p.avgEntry.val) * closes

end Position

namespace RiskEngine

variable {r r' : RiskEngine} {account b : AccountId} {a x : Account} {m : MarketId} {qty : Quantity}
  {price : Price} {d p : Int}

/-! ## One account -/

/-- The position that a fill of an account in a market applies to. -/
def positionIn (r : RiskEngine) (b : AccountId) (m : MarketId) : PerpPosition :=
  (positionSlot (r.perpOf b) m).2

/-- What rounding adds in a fill of an account. -/
def legRounding (r : RiskEngine) (b : AccountId) (m : MarketId) (d price : Int) : Int :=
  fillRounding (r.positionIn b m).netQty.val (r.positionIn b m).avgEntry.val d price

/-- The profit that a fill of an account realizes. -/
def legRealized (r : RiskEngine) (b : AccountId) (m : MarketId) (d price : Int) : Int :=
  fillRealized (r.positionIn b m).netQty.val (r.positionIn b m).avgEntry.val d price

/-- A sum over the positions of an account after a fill: flat positions count nothing. -/
theorem sum_putPosition (u : PerpPosition → Int) (flat : ∀ p, p.netQty.val = 0 → u p = 0)
    (perp : List PerpPosition) (m : MarketId) (p : PerpPosition) :
    ((putPosition perp (positionSlot perp m).1 p).map u).sum =
      (perp.map u).sum - u (positionSlot perp m).2 + u p := by
  have filled : ((filledIn perp (positionSlot perp m).1 p).map u).sum =
      (perp.map u).sum - u (positionSlot perp m).2 + u p := by
    rw [filledIn]
    obtain ⟨-, stored | ⟨beyond, absent⟩⟩ := positionSlot_spec perp m
    · obtain ⟨inside, here⟩ := List.getElem?_eq_some_iff.1 stored
      rw [if_pos inside, map_set, sum_set', dif_pos (by rwa [length_map]), getElem_map, here]
      ring
    · have none : u (positionSlot perp m).2 = 0 := by
        apply flat
        rw [positionSlot_absent absent]
        rfl
      rw [beyond, if_neg (lt_irrefl _), map_append, sum_append, none, map_singleton,
        sum_singleton, sub_zero]
  obtain kept | ⟨closed, dropped⟩ := putPosition_cases perp _ p (positionSlot_place perp m).le
  · rw [kept, filled]
  · rw [dropped, map_append, sum_append, map_singleton, sum_singleton, flat p closed] at filled
    rw [flat p closed, ← filled, add_zero]

/-- Collateral less the cost of the positions, in millionths of a micro-unit. -/
def costBasis (a : Account) : Int :=
  scale * a.collateral.val - (a.perp.map fun p => p.avgEntry.val * p.netQty.val).sum

/-- Collateral with the exact profit of the positions, in millionths of a micro-unit. -/
def valueIn (r : RiskEngine) (a : Account) : Int :=
  scale * a.collateral.val +
    (a.perp.map fun p => ((r.valuation p).val - p.avgEntry.val) * p.netQty.val).sum

/-- What a fill does to its account. -/
structure Filled (r r' : RiskEngine) (account : AccountId) (m : MarketId) (d price : Int)
    (x a : Account) : Prop where
  found : r.slot account = some x
  stored : r'.accounts = r.accounts.set account.val a
  view : r.SameView r'
  basis : costBasis a = costBasis x - price * d + r.legRounding account m d price
  marked : ∀ mark, r.markFor m = some mark →
    r.valueIn a = r.valueIn x + (mark.val - price) * d + r.legRounding account m d price
  unmarked : r.markFor m = none →
    r.valueIn a = r.valueIn x + scale * r.legRealized account m d price

theorem fillIndex_filled (done : r.fillIndex account m qty price = .ok r') :
    ∃ x a, r.Filled r' account m qty.val price.val x a := by
  obtain ⟨x, ⟨p, profit⟩, collateral, synced, cached, found, applied, settled, sync, -, rfl⟩ :=
    fillIndex_cases done
  obtain ⟨accounts, -⟩ := syncMarketHolder_ok sync
  have held : r.positionIn account m =
      (positionSlot x.perp m).2 := by rw [positionIn, perpOf_eq found]
  have market : p.market = m :=
    (applyFill_market applied).trans (positionSlot_spec x.perp m).1
  have cost := applyFill_basis applied
  have sum := applyFill_netQty applied
  have realized := applyFill_realized applied
  have before : (positionSlot x.perp m).2.market = m := (positionSlot_spec x.perp m).1
  refine ⟨x, _, found, congrArg (set · account.val _) accounts,
    (SameView.syncMarketHolder sync).trans (.setSlot _ _ _), ?_, fun mark marked => ?_,
      fun unmarked => ?_⟩ <;>
  simp only [legRounding, legRealized, held]
  · rw [costBasis, costBasis]
    rw [sum_putPosition (fun q => q.avgEntry.val * q.netQty.val)
      (fun q flat => by rw [flat, mul_zero])]
    linear_combination cost + scale * settled
  · have value : ∀ q : PerpPosition, q.market = m → r.valuation q = mark := by
      rintro q rfl
      rw [valuation, marked, Option.getD_some]
    rw [valueIn, valueIn]
    rw [sum_putPosition (fun q => ((r.valuation q).val - q.avgEntry.val) * q.netQty.val)
      (fun q flat => by rw [flat, mul_zero]), value _ market, value _ before]
    linear_combination cost + scale * settled + mark.val * sum
  · have value : ∀ q : PerpPosition, q.market = m → r.valuation q = q.avgEntry := by
      rintro q rfl
      rw [valuation, unmarked, Option.getD_none]
    rw [valueIn, valueIn]
    rw [sum_putPosition (fun q => ((r.valuation q).val - q.avgEntry.val) * q.netQty.val)
      (fun q flat => by rw [flat, mul_zero]), value _ market, value _ before]
    linear_combination scale * settled + scale * realized

theorem Filled.slot (filled : r.Filled r' account m d p x a) (b : AccountId) :
    r'.slot b = if b = account then some a else r.slot b := by
  rw [← slot_setSlot filled.found, RiskEngine.slot, filled.stored]
  rfl

theorem SameView.valueIn (same : SameView r r') (a : Account) : r'.valueIn a = r.valueIn a := by
  have values : ∀ p, r'.valuation p = r.valuation p := by
    intro p
    rw [valuation, same.marks]
    rfl
  rw [RiskEngine.valueIn, RiskEngine.valueIn]
  simp only [values]

/-- The value of all accounts, in millionths of a micro-unit. -/
def valueTotal (r : RiskEngine) : Int := (r.accounts.map r.valueIn).sum

theorem Filled.total (filled : r.Filled r' account m d p x a) :
    r'.valueTotal = r.valueTotal - r.valueIn x + r.valueIn a := by
  have same : r'.valueIn = r.valueIn := funext filled.view.valueIn
  obtain ⟨inside, here⟩ := List.getElem?_eq_some_iff.1 filled.found
  rw [valueTotal, valueTotal, same, filled.stored, map_set, sum_set',
    dif_pos (by rwa [length_map]), getElem_map, here]
  ring

/-! ## Pairs -/

/-- Opposite fills of two accounts at one price. -/
structure PairedFill where
  first : AccountId
  second : AccountId
  market : MarketId
  quantity : Quantity
  opposite : Quantity
  price : Price
  apart : second ≠ first
  nets : opposite.val = -quantity.val

/-- Apply both fills of a pair. -/
def pairFill (r : RiskEngine) (t : PairedFill) : Except RiskError RiskEngine := do
  let r ← r.applyFill t.first t.market t.quantity t.price
  r.applyFill t.second t.market t.opposite t.price

/-- What rounding adds in a pair. -/
def pairRounding (r : RiskEngine) (t : PairedFill) : Int :=
  r.legRounding t.first t.market t.quantity.val t.price.val +
    r.legRounding t.second t.market t.opposite.val t.price.val

/-- The profit that a pair realizes. -/
def pairRealized (r : RiskEngine) (t : PairedFill) : Int :=
  r.legRealized t.first t.market t.quantity.val t.price.val +
    r.legRealized t.second t.market t.opposite.val t.price.val

variable {t : PairedFill} {owned : Finset AccountId}

/-- Both fills of a pair apply to the positions before it. -/
theorem pairFill_filled (done : r.pairFill t = .ok r') :
    ∃ r₁ x a y c, r.Filled r₁ t.first t.market t.quantity.val t.price.val x a ∧
      r₁.Filled r' t.second t.market t.opposite.val t.price.val y c ∧
      r₁.legRounding t.second t.market t.opposite.val t.price.val =
        r.legRounding t.second t.market t.opposite.val t.price.val ∧
      r₁.legRealized t.second t.market t.opposite.val t.price.val =
        r.legRealized t.second t.market t.opposite.val t.price.val := by
  simp only [pairFill, applyFill, bind_eq_ok] at done
  obtain ⟨r₁, ⟨-, -, bought⟩, -, -, sold⟩ := done
  obtain ⟨x, a, first⟩ := fillIndex_filled bought
  obtain ⟨y, c, second⟩ := fillIndex_filled sold
  have untouched : r₁.positionIn t.second t.market = r.positionIn t.second t.market := by
    rw [positionIn, perpOf, first.slot, if_neg t.apart]
    rfl
  refine ⟨r₁, x, a, y, c, first, second, ?_, ?_⟩
  · rw [legRounding, untouched]
    rfl
  · rw [legRealized, untouched]
    rfl

theorem pairFill_valueTotal (done : r.pairFill t = .ok r') :
    r'.valueTotal = r.valueTotal +
      if (r.markFor t.market).isSome then r.pairRounding t else scale * r.pairRealized t := by
  obtain ⟨r₁, x, a, y, c, first, second, rounding, realized⟩ := pairFill_filled done
  have total := first.total
  have total' := second.total
  cases marked : r.markFor t.market with
  | some mark =>
    have here := first.marked mark marked
    have here' := second.marked mark ((first.view.marks _).trans marked)
    rw [rounding] at here'
    rw [Option.isSome_some, if_pos rfl, pairRounding]
    linear_combination total + total' + here + here' + (mark.val - t.price.val) * t.nets
  | none =>
    have here := first.unmarked marked
    have here' := second.unmarked ((first.view.marks _).trans marked)
    rw [realized] at here'
    rw [Option.isSome_none, if_neg Bool.false_ne_true, pairRealized]
    linear_combination total + total' + here + here'

/-- The total of collateral and exact profit. -/
def exactValue (r : RiskEngine) : ℚ :=
  (r.accounts.map fun a => (a.collateral.val : ℚ) +
    (a.perp.map fun p => (((r.valuation p).val : ℚ) - p.avgEntry.val) *
      p.netQty.val / scale).sum).sum

theorem exactValue_eq (r : RiskEngine) : r.exactValue = (r.valueTotal : ℚ) / scale := by
  have positive : (scale : ℚ) ≠ 0 := by
    rw [scale]
    norm_num
  have each : ∀ a : Account, (a.collateral.val : ℚ) +
      (a.perp.map fun p => (((r.valuation p).val : ℚ) - p.avgEntry.val) *
        p.netQty.val / scale).sum =
        (r.valueIn a : ℚ) * (scale : ℚ)⁻¹ := by
    intro a
    simp only [div_eq_mul_inv]
    rw [sum_map_mul_right, valueIn, Int.cast_add, Int.cast_list_sum, map_map, add_mul]
    congr 1
    · push_cast
      field_simp
    · congr 3
      funext p
      simp
  simp only [exactValue, each]
  rw [sum_map_mul_right, valueTotal, Int.cast_list_sum, map_map]
  rfl

/-- A pair creates no value exactly when its roundings do not add up to a gain; in a market without
a mark, where positions count at their entry, when it realizes no profit. -/
theorem pairFill_exactValue (done : r.pairFill t = .ok r') :
    r'.exactValue ≤ r.exactValue ↔
      if (r.markFor t.market).isSome then r.pairRounding t ≤ 0 else r.pairRealized t ≤ 0 := by
  have positive : (0 : ℚ) < scale := by
    rw [scale]
    norm_num
  rw [exactValue_eq, exactValue_eq, div_le_div_iff_of_pos_right positive, Int.cast_le,
    pairFill_valueTotal done]
  have unit : 0 < scale := by decide
  split_ifs
  · omega
  · rw [add_le_iff_nonpos_right]
    exact ⟨fun h => nonpos_of_mul_nonpos_right h unit,
      fun h => mul_nonpos_of_nonneg_of_nonpos unit.le h⟩

/-! ## Dealing within a group -/

/-- Collateral less the cost of the positions of an account. -/
def basisAt (r : RiskEngine) (b : AccountId) : Int := weightOf costBasis (r.slot b)

/-- An account without a position. -/
def FlatAt (r : RiskEngine) (b : AccountId) : Prop := ∀ p ∈ r.perpOf b, p.netQty.val = 0

/-- Pairs between the accounts of a group, none of which gains by rounding, and changes of marks. -/
inductive Dealing (owned : Finset AccountId) (r : RiskEngine) : RiskEngine → Prop
  | refl : Dealing owned r r
  | fill {r₁ r₂ : RiskEngine} {t : PairedFill} (before : Dealing owned r r₁)
      (mine : t.first ∈ owned)
      (mine' : t.second ∈ owned) (tame : r₁.pairRounding t ≤ 0) (done : r₁.pairFill t = .ok r₂) :
      Dealing owned r r₂
  | mark {r₁ r₂ : RiskEngine} {m : MarketId} {price : Price} (before : Dealing owned r r₁)
      (done : r₁.setMarkPrice m price = .ok r₂) : Dealing owned r r₂

theorem Filled.basisAt (filled : r.Filled r' account m d p x a) (b : AccountId) :
    r'.basisAt b = r.basisAt b + if b = account then r.legRounding account m d p -
      p * d else 0 := by
  rw [RiskEngine.basisAt, RiskEngine.basisAt, filled.slot]
  split_ifs with same
  · rw [same, filled.found, weightOf_some, weightOf_some, filled.basis]
    ring
  · rw [add_zero]

/-- A pair within a group changes its basis by the rounding alone. -/
theorem pairFill_basis (mine : t.first ∈ owned) (mine' : t.second ∈ owned)
    (done : r.pairFill t = .ok r') :
    ∑ b ∈ owned, r'.basisAt b = (∑ b ∈ owned, r.basisAt b) + r.pairRounding t := by
  obtain ⟨r₁, x, a, y, c, first, second, rounding, -⟩ := pairFill_filled done
  have bump : ∀ (f : AccountId → Int) (k : AccountId) (v : Int), k ∈ owned →
      ∑ b ∈ owned, (f b + if b = k then v else 0) = (∑ b ∈ owned, f b) + v := by
    intro f k v here
    rw [Finset.sum_add_distrib, Finset.sum_ite_eq', if_pos here]
  rw [Finset.sum_congr rfl fun b _ => second.basisAt b, bump _ _ _ mine',
    Finset.sum_congr rfl fun b _ => first.basisAt b, bump _ _ _ mine, rounding, pairRounding]
  linear_combination -t.price.val * t.nets

theorem setMarkPrice_basis (done : r.setMarkPrice m price = .ok r') (b : AccountId) :
    r'.basisAt b = r.basisAt b := by
  simp only [setMarkPrice, bind_eq_ok] at done
  obtain ⟨grown, grew, refreshed⟩ := done
  obtain ⟨accounts, -, -⟩ := growMarket_ok grew
  have start : (grown.modifyMarket m fun s => { s with mark := some price }).basisAt
      b = r.basisAt b :=
    congrArg (fun l : List Account => weightOf costBasis l[b.val]?) accounts
  refine foldlM_keeps (P := fun s => s.basisAt b = r.basisAt b) start ?_ refreshed
  intro k _ s s' so_far step
  rw [← so_far]
  rw [recompute] at step
  cases found : s.slot k with
  | none =>
    rw [found] at step
    cases step
    rfl
  | some x =>
    rw [found] at step
    obtain ⟨cached, -, rfl⟩ := store_eq_ok.1 step
    rw [basisAt, slot_setSlot found]
    split_ifs with same
    · rw [same, basisAt, found]
      rfl
    · rfl

theorem Dealing.basis (dealing : Dealing owned r r') :
    ∑ b ∈ owned, r'.basisAt b ≤ ∑ b ∈ owned, r.basisAt b := by
  induction dealing with
  | refl => exact le_rfl
  | fill before mine mine' tame done ih =>
    rw [pairFill_basis mine mine' done]
    omega
  | mark before done ih => rwa [Finset.sum_congr rfl fun b _ => setMarkPrice_basis done b]

theorem basisAt_of_flat (flat : r.FlatAt b) : r.basisAt b = scale * r.collateralOf b := by
  rw [basisAt, collateralOf]
  cases found : r.slot b with
  | none => rfl
  | some x =>
    rw [FlatAt, perpOf_eq found] at flat
    have none : (x.perp.map fun p => p.avgEntry.val * p.netQty.val).sum = 0 := by
      apply sum_eq_zero
      intro v listed
      obtain ⟨p, held, rfl⟩ := mem_map.1 listed
      rw [flat p held, mul_zero]
    rw [weightOf_some, weightOf_some, costBasis, none, sub_zero]

/-- Pairs create no value as long as no pair gains by rounding, and a group of accounts that deals
among itself from flat to flat ends with no more collateral. -/
theorem pairs_create_no_value (r r' : RiskEngine) :
    (∀ t : PairedFill, r.pairFill t = .ok r' → (r'.exactValue ≤ r.exactValue ↔
        if (r.markFor t.market).isSome then r.pairRounding t ≤ 0 else r.pairRealized t ≤ 0)) ∧
      ∀ owned : Finset AccountId, Dealing owned r r' →
        (∀ b ∈ owned, r.FlatAt b) → (∀ b ∈ owned, r'.FlatAt b) →
        ∑ b ∈ owned, r'.collateralOf b ≤ ∑ b ∈ owned, r.collateralOf b := by
  refine ⟨fun t done => pairFill_exactValue done, fun owned dealing flat flat' => ?_⟩
  have unit : 0 < scale := by decide
  have basis := dealing.basis
  rw [Finset.sum_congr rfl fun b mine => basisAt_of_flat (flat b mine),
    Finset.sum_congr rfl fun b mine => basisAt_of_flat (flat' b mine), ← Finset.mul_sum,
    ← Finset.mul_sum] at basis
  exact le_of_mul_le_mul_left basis unit

/-! ## A run that creates value -/

/-- Three accounts with 1000 each and a market marked at 10. -/
def threeAccounts : Except RiskError RiskEngine := do
  let r := new ⟨units 100000, units 50000, units 10000000, 4, 2⟩
  let r ← r.openAccount 0 (micros 1000000000)
  let r ← r.openAccount 1 (micros 1000000000)
  let r ← r.openAccount 2 (micros 1000000000)
  r.setMarkPrice 0 (units 10000000)

/-- Account 0 buys one unit from account 1 at 10. -/
def buysOne : PairedFill :=
  ⟨0, 1, 0, units 1000000, units (-1000000), units 10000000, by decide, by decide⟩

/-- Account 0 buys two units from account 2, one tick higher. -/
def buysTwo : PairedFill :=
  ⟨0, 2, 0, units 2000000, units (-2000000), units 10000001, by decide, by decide⟩

def sellsOne : PairedFill :=
  ⟨0, 1, 0, units (-1000000), units 1000000, units 10000001, by decide, by decide⟩

def sellsTwo : PairedFill :=
  ⟨0, 2, 0, units (-2000000), units 2000000, units 10000001, by decide, by decide⟩

/-- A computation returns a value that shows something. -/
def returnsWith {α : Type} (x : Except RiskError α) (shows : α → Bool) : Bool :=
  match x with
  | .ok v => shows v
  | .error _ => false

theorem returnsWith_eq_true {α : Type} {x : Except RiskError α} {shows : α → Bool}
    (shown : returnsWith x shows = true) : ∃ v, x = .ok v ∧ shows v = true := by
  cases x with
  | error err => cases shown
  | ok v => exact ⟨v, rfl, shown⟩

instance (r : RiskEngine) (b : AccountId) : Decidable (r.FlatAt b) :=
  inferInstanceAs (Decidable (∀ p ∈ r.perpOf b, p.netQty.val = 0))

/-- The three accounts. -/
def threeIds : Finset AccountId := [0, 1, 2].toFinset

theorem flat_of_all
    (shown : ([0, 1, 2] : List AccountId).all (fun b => decide (r.FlatAt b)) = true) :
    ∀ b ∈ threeIds, r.FlatAt b := by
  intro b mine
  rw [all_eq_true] at shown
  exact of_decide_eq_true (shown b (mem_toFinset.1 mine))

/-- The average entry of account 0 drops its remainder, so the second purchase creates two
micro-units, and all three accounts end flat with two micro-units more. -/
theorem value_created : ∃ r₀ r₁ r₂ r₃ r₄ : RiskEngine,
    threeAccounts = .ok r₀ ∧ (∀ b ∈ threeIds, r₀.FlatAt b) ∧
    r₀.pairFill buysOne = .ok r₁ ∧ r₁.pairFill buysTwo = .ok r₂ ∧
    r₂.exactValue = r₁.exactValue + 2 ∧
    r₂.pairFill sellsOne = .ok r₃ ∧ r₃.pairFill sellsTwo = .ok r₄ ∧ (∀ b ∈ threeIds, r₄.FlatAt b) ∧
    ∑ b ∈ threeIds, r₄.collateralOf b = (∑ b ∈ threeIds, r₀.collateralOf b) + 2 := by
  have ran : returnsWith threeAccounts (fun r₀ => returnsWith (r₀.pairFill buysOne) fun r₁ =>
      returnsWith (r₁.pairFill buysTwo) fun r₂ => returnsWith (r₂.pairFill sellsOne) fun r₃ =>
      returnsWith (r₃.pairFill sellsTwo) fun r₄ =>
        decide (([0, 1, 2].all fun b => decide (r₀.FlatAt b)) = true ∧
          r₂.exactValue = r₁.exactValue + 2 ∧
          ([0, 1, 2].all fun b => decide (r₄.FlatAt b)) = true ∧
          ∑ b ∈ threeIds, r₄.collateralOf b = (∑ b ∈ threeIds, r₀.collateralOf b) + 2)) = true := by
    decide +kernel
  obtain ⟨r₀, start, ran⟩ := returnsWith_eq_true ran
  obtain ⟨r₁, first, ran⟩ := returnsWith_eq_true ran
  obtain ⟨r₂, second, ran⟩ := returnsWith_eq_true ran
  obtain ⟨r₃, third, ran⟩ := returnsWith_eq_true ran
  obtain ⟨r₄, fourth, ran⟩ := returnsWith_eq_true ran
  obtain ⟨flat, gained, flat', richer⟩ := of_decide_eq_true ran
  exact ⟨r₀, r₁, r₂, r₃, r₄, start, flat_of_all flat, first, second, gained, third, fourth,
    flat_of_all flat', richer⟩

/-- Buying and selling one unit at one tick more is exact. -/
theorem pairs_create_no_value_threeAccounts : ∃ r₀ r₁ r₂ : RiskEngine,
    threeAccounts = .ok r₀ ∧ r₀.pairFill buysOne = .ok r₁ ∧ r₁.pairFill sellsOne = .ok r₂ ∧
    r₂.exactValue ≤ r₁.exactValue ∧
    ∑ b ∈ threeIds, r₂.collateralOf b ≤ ∑ b ∈ threeIds, r₀.collateralOf b := by
  have ran : returnsWith threeAccounts (fun r₀ => returnsWith (r₀.pairFill buysOne) fun r₁ =>
      returnsWith (r₁.pairFill sellsOne) fun r₂ =>
        decide (([0, 1, 2].all fun b => decide (r₀.FlatAt b)) = true ∧
          ([0, 1, 2].all fun b => decide (r₂.FlatAt b)) = true ∧
          r₀.pairRounding buysOne ≤ 0 ∧ r₁.pairRounding sellsOne ≤ 0 ∧
          (r₁.markFor sellsOne.market).isSome = true)) = true := by
    decide +kernel
  obtain ⟨r₀, start, ran⟩ := returnsWith_eq_true ran
  obtain ⟨r₁, first, ran⟩ := returnsWith_eq_true ran
  obtain ⟨r₂, second, ran⟩ := returnsWith_eq_true ran
  obtain ⟨flat, flat', tame, tame', marked⟩ := of_decide_eq_true ran
  have dealing : Dealing threeIds r₀ r₂ :=
    .fill (.fill .refl (by decide) (by decide) tame first) (by decide) (by decide) tame' second
  refine ⟨r₀, r₁, r₂, start, first, second, ((pairs_create_no_value r₁ r₂).1 sellsOne second).2 ?_,
    (pairs_create_no_value r₀ r₂).2 threeIds dealing (flat_of_all flat) (flat_of_all flat')⟩
  rwa [if_pos marked]

end RiskEngine

end Dexos.Risk
