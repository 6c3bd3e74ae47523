import Dexos.Clob.Fixed
import Dexos.Clob.Readouts

/-!
# Planning a match

The dry run of a taker against the book: the quantity it would fill, its worst price, and the
notional of its fills rounded down and up. The scan of the linked levels is one pass over the
makers in priority order.
-/

namespace Dexos.Clob

open Foundations List
open PriceTime (Resting)

/-- The variables of `scan_match`. -/
structure Scan where
  remaining : I64
  summary : MatchSummary

/-- The less favourable of two prices for a taker. -/
def worsePrice (side : Side) (price : Price) : Option Price → Price
  | none => price
  | some w =>
    match side with
    | .bid => if w.val < price.val then price else w
    | .ask => if price.val < w.val then price else w

/-- One planned fill of `scan_match`. -/
def Scan.push (s : Scan) (side : Side) (price : Price) (maker : Quantity) :
    Except OrderError Scan := do
  let quantity := min s.remaining maker
  let notional ← orError (s.summary.notional.checkedAdd (price.notional quantity)) .overflow
  let notionalCeil ←
    orError (s.summary.notionalCeil.checkedAdd (price.notionalCeil quantity)) .overflow
  return {
    remaining := s.remaining.saturatingSub quantity
    summary := {
      filledQuantity := s.summary.filledQuantity.saturatingAdd quantity
      worstPrice := some (worsePrice side price s.summary.worstPrice)
      notional
      notionalCeil } }

/-- What `scan_match` does at one maker. -/
def scanMaker (taker : NewOrder) (stp : StpPolicy) (price : Price) (s : Scan) (maker : Order) :
    Turn Scan (Bool × Except OrderError Scan) :=
  if s.remaining.val ≤ 0 then .done (false, .ok s)
  else if maker.account = taker.account then
    match stp with
    | .cancelMaker => .again s
    | .cancelTaker | .cancelBoth => .done (false, .ok s)
  else
    match s.push taker.side price maker.remaining with
    | .error e => .done (false, .error e)
    | .ok s => .again s

/-- The queue loop of `scan_match`. -/
def scanLevel (slab : Slab Node) (taker : NewOrder) (stp : StpPolicy) (price : Price) (head : Nat)
    (s : Scan) : Option (Bool × Except OrderError Scan) :=
  follow slab (fun s _ node => scanMaker taker stp price s node.toOrder)
    (fun s => (decide (0 < s.remaining.val), .ok s)) (fun s => (false, .ok s)) slab.turns head s

/-- The level loop of `scan_match`. -/
def scanLevels (slab : Slab Node) (taker : NewOrder) (isMarket : Bool) (stp : StpPolicy) :
    List (Price × Level) → Scan → Option (Except OrderError Scan)
  | [], s => some (.ok s)
  | (price, level) :: rest, s =>
    if s.remaining.val ≤ 0 ∨ crosses taker.side isMarket taker.price price = false then
      some (.ok s)
    else
      match scanLevel slab taker stp price level.head s with
      | none => none
      | some (true, .ok s) => scanLevels slab taker isMarket stp rest s
      | some (_, r) => some r

/-- The scan before the first maker. -/
def Scan.start (quantity : Quantity) : Scan where
  remaining := quantity
  summary := ⟨I64.zero, none, I128.zero, I128.zero⟩

def NewOrder.isMarket (o : NewOrder) : Bool := decide (o.orderType = .market)

/-- `OrderBook::plan_match_summary` (`scan_match` with no consumer of the planned fills). -/
def OrderBook.planMatchSummary (b : OrderBook) (o : NewOrder) :
    Option (Except OrderError MatchSummary) :=
  if o.quantity.val ≤ 0 then some (.error .nonPositiveQuantity)
  else if o.isMarket = false ∧ o.price.val ≤ 0 then some (.error .nonPositivePrice)
  else
    (scanLevels b.slab o o.isMarket b.config.stp
      (bestFirst (b.sideBook o.side.opposite).side (b.sideBook o.side.opposite).levels)
      (.start o.quantity)).map fun r => r.map Scan.summary

namespace PriceTime.Book

/-- The dry run over makers in priority order. -/
def scan (o : NewOrder) (isMarket : Bool) (stp : StpPolicy) :
    List (Price × Resting) → Scan → Except OrderError Scan
  | [], s => .ok s
  | (p, r) :: rest, s =>
    if s.remaining.val ≤ 0 ∨ crosses o.side isMarket o.price p = false then .ok s
    else if r.account = o.account then
      if stp = .cancelMaker then scan o isMarket stp rest s else .ok s
    else
      match s.push o.side p r.remaining with
      | .error e => .error e
      | .ok s => scan o isMarket stp rest s

/-- The dry run of a taker on a price-time book. -/
def plan (b : Book) (o : NewOrder) : Except OrderError MatchSummary :=
  if o.quantity.val ≤ 0 then .error .nonPositiveQuantity
  else if o.isMarket = false ∧ o.price.val ≤ 0 then .error .nonPositivePrice
  else
    (scan o o.isMarket b.config.stp (priority o.side.opposite (b.side o.side.opposite))
      (.start o.quantity)).map Scan.summary

end PriceTime.Book

section Levels

open PriceTime.Book (scan)

variable {o : NewOrder} {isMarket : Bool} {stp : StpPolicy}

theorem scan_of_full (s : Scan) (full : s.remaining.val ≤ 0) (makers : List (Price × Resting)) :
    scan o isMarket stp makers s = .ok s := by
  cases makers with
  | nil => rfl
  | cons x rest => rw [scan, if_pos (.inl full)]

theorem scanQueue_scan {p : Price} (crossing : crosses o.side isMarket o.price p = true)
    (before : Nat) (q : List Slotted) (tail : List (Price × Resting)) (s : Scan) :
    scan o isMarket stp (q.map (fun x => (p, x.2.resting)) ++ tail) s =
      match scanQueue (fun s _ node => scanMaker o stp p s node.toOrder)
        (fun s => (decide (0 < s.remaining.val), .ok s)) before q s with
      | (true, .ok s) => scan o isMarket stp tail s
      | (_, r) => r := by
  induction q generalizing before s with
  | nil =>
    rw [map_nil, nil_append, scanQueue]
    by_cases left : 0 < s.remaining.val
    · simp only [left, decide_true]
    · simp only [left, decide_false]
      exact scan_of_full s (not_lt.1 left) tail
  | cons x rest ih =>
    have node : (x.2.node before (firstAddress nil rest)).toOrder = x.2 := rfl
    have account : x.2.resting.account = x.2.account := rfl
    have remaining : x.2.resting.remaining = x.2.remaining := rfl
    rw [map_cons, cons_append, scanQueue, node]
    by_cases full : s.remaining.val ≤ 0
    · rw [scan_of_full s full, scanMaker.eq_def, if_pos full]
    · rw [scan, if_neg (by simp [full, crossing]), scanMaker.eq_def, if_neg full, account,
        remaining]
      by_cases own : x.2.account = o.account
      · rw [if_pos own, if_pos own]
        cases stp with
        | cancelMaker => exact ih x.1 s
        | cancelTaker => rfl
        | cancelBoth => rfl
      · rw [if_neg own, if_neg own]
        cases pushed : s.push o.side p x.2.remaining with
        | error e => rfl
        | ok => exact ih x.1 ..

variable {sha256 : Sha256} {b : OrderBook} {L : Layout}

theorem scanLevels_scan (h : Represents sha256 b L) {side : Side}
    (levels : List (Price × List Slotted))
    (stored : ∀ e ∈ levels, (L.side side).get? e.1 = some e.2) (s : Scan) :
    scanLevels b.slab o isMarket stp (levels.map fun e => (e.1, levelOf e.2)) s =
      some (scan o isMarket stp
        (levels.flatMap fun e => e.2.map fun x => (e.1, x.2.resting)) s) := by
  induction levels generalizing s with
  | nil => rfl
  | cons e rest ih =>
    have here := stored e mem_cons_self
    have later := ih fun e' he' => stored e' (mem_cons_of_mem _ he')
    rw [map_cons, scanLevels, flatMap_cons]
    by_cases ends : s.remaining.val ≤ 0 ∨ crosses o.side isMarket o.price e.1 = false
    · obtain ⟨x, q, shape⟩ :=
        exists_cons_of_ne_nil ((h.laid side).queues _ _ here).nonempty
      rw [if_pos ends, shape, map_cons, cons_append, scan, if_pos ends]
    · have crossing : crosses o.side isMarket o.price e.1 = true := by
        simpa using fun apart => ends (.inr apart)
      rw [if_neg ends, scanLevel, h.follow_level here, scanQueue_scan crossing nil]
      rcases scanQueue _ _ _ _ _ with ⟨goes, result⟩
      cases goes with
      | false => rfl
      | true =>
        cases result with
        | error e => rfl
        | ok => exact later ..

theorem Represents.planMatchSummary_eq (h : Represents sha256 b L) (o : NewOrder) :
    b.planMatchSummary o = some ((bookOf b L).plan o) := by
  have scanned := @scanLevels_scan o o.isMarket b.config.stp sha256 b L h o.side.opposite
    (bestFirst o.side.opposite (L.side o.side.opposite))
    (fun e he => PriceTime.mem_bestFirst.1 he) (.start o.quantity)
  rw [OrderBook.planMatchSummary, PriceTime.Book.plan]
  split_ifs
  · rfl
  · rfl
  · rw [(h.laid _).side_eq, (h.laid _).levels_eq, bestFirst_mapValues, scanned, bookOf_side,
      priority_ladderOf]
    rfl

end Levels

theorem Sound.planMatchSummary {sha256 : Sha256} {b : OrderBook}
    (h : Sound sha256 b) (o : NewOrder) : b.planMatchSummary o = some (b.view.plan o) := by
  obtain ⟨L, stores⟩ := h.stores
  rw [stores.view_eq, stores.planMatchSummary_eq]

end Dexos.Clob
