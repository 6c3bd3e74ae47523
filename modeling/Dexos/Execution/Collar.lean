import Dexos.Execution.InPlace

/-!
# The collar of a market order

A market order is admitted when the notional of its planned trades, each rounded up, is within the
notional of the whole order at its collar. The collar of a sale bounds its price from below: a sale
is rejected when better prices outweigh what stays unfilled.
-/

namespace Dexos.Execution

open Foundations Clob Risk List PriceTime

/-- The notional of a market order's trades with makers in priority order, each rounded up. -/
def tradedCeil (o : NewOrder) (stp : StpPolicy) : List (Price × Resting) → Quantity → Int
  | [], _ => 0
  | (p, r) :: rest, left =>
    if left.val ≤ 0 ∨ crosses o.side true o.price p = false then 0
    else if r.account = o.account then
      if stp = .cancelMaker then tradedCeil o stp rest left else 0
    else
      let quantity := min left r.remaining
      (p.notionalCeil quantity).val + tradedCeil o stp rest (left.saturatingSub quantity)

/-- The notional of a market order's trades with a book. -/
def plannedCeil (b : LogicalBook) (o : NewOrder) : Int :=
  tradedCeil o b.book.config.stp (priority o.side.opposite (b.book.side o.side.opposite)) o.quantity

theorem scan_notionalCeil {o : NewOrder} {stp : StpPolicy} {makers : List (Price × Resting)}
    {s s' : Scan} (done : Book.scan o true stp makers s = .ok s') :
    s'.summary.notionalCeil.val =
      s.summary.notionalCeil.val + tradedCeil o stp makers s.remaining := by
  induction makers generalizing s with
  | nil =>
    cases done
    exact (add_zero _).symm
  | cons x rest ih =>
    rw [Book.scan] at done
    rw [tradedCeil]
    split_ifs at done ⊢
    · cases done
      exact (add_zero _).symm
    · exact ih done
    · cases done
      exact (add_zero _).symm
    · cases pushed : s.push o.side x.1 x.2.remaining with
      | error err =>
        rw [pushed] at done
        cases done
      | ok next =>
        rw [pushed] at done
        simp only [Scan.push, ok_iff] at pushed
        obtain ⟨notional, -, ceil, added, rfl⟩ := pushed
        rw [ih done, ← add_assoc, ← Bounded.checkedAdd_eq_some.1 added]

namespace Engine

variable {sha256 : Sha256} {config : EngineConfig} {e : Engine sha256}
  {market : Risk.MarketId} {instrument : U16} {book : LogicalBook} {order : NewOrder}
  {plan : MatchSummary}

/-- A market order that would trade is not rejected for its depth exactly when its trades, each
rounded up, cost no more than the whole order at its collar. -/
theorem collar_admits_iff (reached : Reachable sha256 config e)
    (stored : e.books.get? ⟨market, instrument⟩ = some book) (kind : order.orderType = .market)
    (quantity : 0 < order.quantity.val) (collar : 0 < order.price.val)
    (planned : book.planMatchSummary order = .ok plan) (fills : 0 < plan.filledQuantity.val) :
    e.pretradeNotional market instrument order ≠ .error .marketOrderDepthExceeded ↔
      plannedCeil book order ≤ (order.price.notionalCeil order.quantity).val := by
  obtain ⟨info, listed, inside⟩ :=
    (reached.healthy.shaped.books _).1 (Option.isSome_of_eq_some stored)
  have total := planned
  rw [LogicalBook.planMatchSummary, Book.plan, if_neg (not_le.2 quantity), NewOrder.isMarket,
    decide_eq_true kind, if_neg (fun h => Bool.false_ne_true h.1.symm)] at total
  obtain ⟨s, scanned, rfl⟩ := map_eq_ok.1 total
  have ceil : s.summary.notionalCeil.val = plannedCeil book order :=
    (scan_notionalCeil scanned).trans (zero_add _)
  have ends : e.pretradeNotional market instrument order =
      if plannedCeil book order ≤ (order.price.notionalCeil order.quantity).val then
        .ok s.summary.notionalCeil else .error .marketOrderDepthExceeded := by
    have lifted : liftOrder (book.planMatchSummary order) = .ok s.summary :=
        mapError_eq_ok.2 planned
    simp only [pretradeNotional, validateInstrument, orError_eq_ok.2 listed, orError_eq_ok.2 stored,
      ok_bind, require_of inside, require_of quantity, if_pos kind, collaredNotional,
      require_of collar, lifted, if_pos fills, if_neg fills.ne', pure_bind, ceil]
    rw [require]
    split_ifs <;> rfl
  rw [ends]
  split_ifs with within
  · exact iff_of_true (by rintro ⟨⟩) within
  · exact iff_of_false (fun h => h rfl) within

/-! ## A sale -/

/-- An account bids a hundred for one unit. -/
def bidRun : List (U64 × Command) :=
  openedRun ++ [(4, .placeOrder (limitOrder 1 0 1 .bid 100000000 1000000))]

/-- The sale of one unit, not below a collar. -/
def sale (collar : Int) : NewOrder :=
  ⟨2, 0, .ask, .market, .ioc, units collar, units 1000000, 2, false⟩

/-- What a sale of one unit at a hundred fills. -/
def sold : MatchSummary :=
  ⟨units 1000000, some (units 100000000), micros 100000000, micros 100000000⟩

/-- The unit would be sold at either collar, but at a collar of fifty the sale is rejected. -/
abbrev Offered (e : Engine flatHash) (book : LogicalBook) : Prop :=
  (book.planMatchSummary (sale 50000000) = .ok sold ∧
    e.pretradeNotional 0 0 (sale 50000000) = .error .marketOrderDepthExceeded) ∧
  book.planMatchSummary (sale 100000000) = .ok sold ∧
    e.pretradeNotional 0 0 (sale 100000000) = .ok (micros 100000000)

theorem exists_bid : ∃ e book, Reachable flatHash smallConfig e ∧ e.books.get? ⟨0, 0⟩ = some book ∧
    Offered e book := by
  obtain ⟨results, e, -, reached, shown⟩ := exists_run flatHash smallConfig bidRun
    (fun _ e => (e.books.get? ⟨0, 0⟩).any fun book => decide (Offered e book)) (by decide +kernel)
  obtain ⟨book, stored, offered⟩ := (Option.any_eq_true _ _).1 shown
  exact ⟨e, book, reached, stored, of_decide_eq_true offered⟩

theorem collar_admits_iff_sale : ∃ e book, Reachable flatHash smallConfig e ∧
    e.books.get? ⟨0, 0⟩ = some book ∧ book.planMatchSummary (sale 100000000) = .ok sold ∧
    plannedCeil book (sale 100000000) ≤ 100000000 := by
  obtain ⟨e, book, reached, stored, -, planned, admitted⟩ := exists_bid
  refine ⟨e, book, reached, stored, planned, (collar_admits_iff reached stored rfl (by decide)
    (by decide) planned (by decide)).1 ?_⟩
  rw [admitted]
  rintro ⟨⟩

/-- A sale at twice its collar is rejected. -/
theorem better_sale_rejected : ∃ e book, Reachable flatHash smallConfig e ∧
    e.books.get? ⟨0, 0⟩ = some book ∧ book.planMatchSummary (sale 50000000) = .ok sold ∧
    e.pretradeNotional 0 0 (sale 50000000) = .error .marketOrderDepthExceeded := by
  obtain ⟨e, book, reached, stored, rejected, -⟩ := exists_bid
  exact ⟨e, book, reached, stored, rejected⟩

end Engine

end Dexos.Execution
