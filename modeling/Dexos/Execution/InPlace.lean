import Dexos.Execution.Runs

/-!
# The in-place path and the general transaction

The in-place path admits an order at its notional rounded down and always records a reserve. The
handler admits it at its notional rounded up and records no reserve of nothing. On orders where
neither shows, the two end alike.
-/

namespace Dexos.Execution.Engine

open Foundations Clob Risk

variable {sha256 : Sha256} {config : EngineConfig} {e e' txn : Engine sha256}
  {seq : U64} {c : PlaceOrder} {b : KeyBinding}

/-- The end of the handler for an order that rests whole. -/
def reserveAndCommit (e : Engine sha256) (c : PlaceOrder) : Handling sha256 := do
  let e ← e.reserveOrder c.orderKey c.account (Price.notional c.price c.quantity) c.quantity
  let e ← e.commitMatched [] c.account c.market
  return (e, .orderApplied I64.zero true)

theorem settlePlaced_whole {info : MarketMeta} (found : e.markets.get? c.market = some info)
    (limit : c.orderType ≠ .market) (priced : 0 < c.price.val) :
    e.settlePlaced c .perpetual ⟨⟨[], .resting c.quantity⟩, []⟩ = e.reserveAndCommit c := by
  have applied : e.applyFills c.market c.instrument [] = .ok e := by
    rw [applyFills, applyFillLegs, found]
    rfl
  have backed : e.backResidual c .perpetual (some c.quantity) =
      e.reserveOrder c.orderKey c.account (Price.notional c.price c.quantity) c.quantity :=
    if_pos ⟨limit, priced⟩
  change (e.applyFills c.market c.instrument [] >>= fun e =>
    e.backResidual c .perpetual (some c.quantity) >>= _) = _
  rw [applied, ok_bind, backed]
  rfl

namespace RestsInPlace

variable (rests : RestsInPlace e c txn)
include rests

/-- The handler admits an order that rests in place when the risk engine admits its notional
rounded up. -/
theorem admitOrder (healthy : Healthy e) :
    e.admitOrder c = (liftRisk (e.risk.checkOrderInMarket c.account c.market
      (Price.notionalCeil c.price c.quantity) false)).map fun _ => (e, MarketType.perpetual) := by
  have vacant : e.orderReserves.contains c.orderKey = false ∧
      e.claimEscrows.contains c.orderKey = false := by
    rw [OrdMap.contains, OrdMap.contains, (rests.bare healthy).1, (rests.bare healthy).2]
    exact ⟨rfl, rfl⟩
  obtain ⟨info, found, perpetual, opened, oracle⟩ := rests.market
  obtain ⟨book, placed, risk, e₁, stored, fits, -⟩ := rests.rests
  obtain ⟨positive, priced, -⟩ := LogicalBook.canRest_admits fits
  have gated : e.gateNewRisk c.market = .ok () := by
    rw [gateNewRisk, found, orError, ok_bind, require_of opened, ok_bind, require_of oracle]
  have valid : e.validateInstrument c.market c.instrument = .ok info := by
    have below : c.instrument < info.count := by
      rw [rests.instrument, MarketMeta.count, perpetual]
      exact (by decide : (0 : U16) < 1)
    rw [validateInstrument, found, orError, ok_bind, require_of below]
    rfl
  have notional : e.pretradeNotional c.market c.instrument c.newOrder =
      .ok (Price.notionalCeil c.price c.quantity) := by
    have limit : c.newOrder.orderType ≠ .market := by
      change c.orderType ≠ .market
      rw [rests.plain.2.1]
      decide
    rw [pretradeNotional, valid]
    change (orError (e.books.get? c.bookKey) _ >>= _) = _
    rw [stored, orError, ok_bind, require_of (c := 0 < c.newOrder.quantity.val) positive,
      if_neg limit, require_of (c := 0 < c.newOrder.price.val) priced]
    rfl
  have authorized :
      e.authorize c.account c.market (Price.notionalCeil c.price c.quantity) c.auth = .ok e := by
    rw [rests.master]
    rfl
  rw [Engine.admitOrder, gated, ok_bind, valid, ok_bind, require_of (.inr vacant), ok_bind,
    notional,
    ok_bind, authorized, ok_bind, found, orError, ok_bind, admitByType, perpetual, rests.plain.1]
  cases e.risk.checkOrderInMarket c.account c.market
    (Price.notionalCeil c.price c.quantity) false <;> rfl

theorem placeOrder (healthy : Healthy e)
    (admitted : e.risk.checkOrderInMarket c.account c.market
      (Price.notionalCeil c.price c.quantity) false = .ok ()) :
    ∃ books, e.placeOrder c =
      (Engine.reserveAndCommit { e with books := books } c).mapError (·, books) ∧
      ((Price.notional c.price c.quantity).val ≠ 0 →
        Engine.reserveAndCommit { e with books := books } c =
          .ok (txn, .orderApplied I64.zero true)) := by
  have passed := rests.admitOrder healthy
  obtain ⟨info, found, -⟩ := rests.market
  obtain ⟨book, placed, risk, e₁, stored, fits, report, -, reserved, first, last⟩ := rests.rests
  have limit : c.orderType ≠ .market := by
    rw [rests.plain.2.1]
    decide
  have unclamped : e.clampedBook c book = book := if_neg (by simp [rests.plain.1, rests.plain.2.1])
  refine ⟨e.books.insert c.bookKey placed, ?_, fun notional => ?_⟩
  · rw [Engine.placeOrder, passed, admitted]
    change ((orError (e.books.get? c.bookKey) _).mapError _ >>= _) = _
    rw [stored]
    change ((liftOrder ((e.clampedBook c book).placeWithReport c.newOrder).1).mapError _ >>= _) = _
    rw [unclamped, rests.plain.newOrder, report]
    change (Engine.settlePlaced { e with books := e.books.insert c.bookKey placed } c .perpetual
      _).mapError _ = _
    exact congrArg _ (settlePlaced_whole found limit (LogicalBook.canRest_admits fits).2.1)
  · rw [reserveAndCommit, reserveOrder, if_neg notional]
    rw [reserved]
    change ((Engine.commitAccount _ c.account >>= _) >>= _) = _
    rw [first, ok_bind, last]
    rfl

theorem admitted {kind : ReceiptKind} (healthy : Healthy e)
    (ran : e.placeOrder c = .ok (e', kind)) :
    e.risk.checkOrderInMarket c.account c.market (Price.notionalCeil c.price c.quantity)
      false = .ok () := by
  simp only [Engine.placeOrder, bind_eq_ok, mapError_eq_ok] at ran
  obtain ⟨r, passed, -⟩ := ran
  obtain ⟨⟨⟩, passed, -⟩ := map_eq_ok.1 ((rests.admitOrder healthy).symm.trans passed)
  exact liftRisk_eq_ok.1 passed

/-- The in-place path records a reserve, if only of nothing. -/
theorem reserve : txn.orderReserves.get? c.orderKey =
    some ⟨c.account, Price.notional c.price c.quantity, c.quantity⟩ := by
  obtain ⟨book, placed, risk, e₁, -, -, -, -, -, first, last⟩ := rests.rests
  obtain ⟨tree, -, rfl, -⟩ := commitAccount_ok first
  obtain ⟨tree', -, rfl, -⟩ := commitMarket_ok last
  exact OrdMap.get?_insert_self _ _ _

end RestsInPlace

theorem transact_ok {command : Command} {binding : Option KeyBinding} {receipt : ExecutionReceipt}
    (done : e.transact seq command binding = some (.ok receipt, e')) :
    ∃ txn kind, (e.opened seq binding).apply command = .ok (txn, kind) ∧
      receipt = txn.receipt seq kind ∧ e' = txn.sealed binding receipt := by
  rw [transact] at done
  split at done
  · cases done
    exact ⟨_, _, ‹_›, rfl, rfl⟩
  · split at done <;> simp at done

theorem reserveAndCommit_ok {kind : ReceiptKind}
    (nothing : (Price.notional c.price c.quantity).val = 0)
    (done : e.reserveAndCommit c = .ok (e', kind)) : e'.orderReserves = e.orderReserves := by
  rw [reserveAndCommit, reserveOrder, if_pos nothing, ok_bind] at done
  simp only [commitMatched, ok_iff] at done
  obtain ⟨e₂, ⟨e₀, ⟨⟩, e₁, first, last⟩, rfl, -⟩ := done
  obtain ⟨tree, -, rfl, -⟩ := commitAccount_ok first
  obtain ⟨tree', -, rfl, -⟩ := commitMarket_ok last
  rfl

/-- An order that the in-place path takes ends alike in the general transaction, for a root that
tells the reserves apart, when the risk engine also admits its notional rounded up and its notional
rounded down is not zero. -/
theorem inPlace_agrees_iff {ρ : Type} (root : Engine sha256 → ρ)
    (tells : ∀ x y, root x = root y → x.orderReserves = y.orderReserves)
    (reached : Reachable sha256 config e) {result : Except ExecutionError ExecutionReceipt}
    (taken : e.tryExecuteRestingInPlace seq c b = some (result, e')) :
    (∃ e'', e.transact seq (.placeOrder c) (some b) = some (result, e'') ∧ root e'' = root e') ↔
      e.risk.checkOrderInMarket c.account c.market (Price.notionalCeil c.price c.quantity)
        false = .ok () ∧ (Price.notional c.price c.quantity).val ≠ 0 := by
  have healthy := reached.healthy.opened seq (some b)
  obtain ⟨txn, rests, same⟩ := tryExecuteRestingInPlace_some reached.healthy taken
  obtain ⟨rfl, rfl⟩ := Prod.mk.inj same
  constructor
  · rintro ⟨e'', general, alike⟩
    obtain ⟨txn', kind, ran, -, rfl⟩ := transact_ok general
    have admitted := rests.admitted healthy ran
    refine ⟨admitted, fun nothing => ?_⟩
    obtain ⟨books, equal, -⟩ := rests.placeOrder healthy admitted
    have settled := mapError_eq_ok.1 (equal.symm.trans ran)
    have reserves : e.orderReserves = txn.orderReserves :=
      (reserveAndCommit_ok nothing settled).symm.trans
        (tells (txn'.sealed _ _) (txn.sealed _ _) alike)
    have absent := (rests.bare healthy).1
    simp [show (e.opened seq (some b)).orderReserves = txn.orderReserves from reserves,
      rests.reserve] at absent
  · rintro ⟨admitted, notional⟩
    obtain ⟨books, ran, ends⟩ := rests.placeOrder healthy admitted
    rw [ends notional] at ran
    refine ⟨_, ?_, rfl⟩
    rw [transact]
    dsimp only [apply]
    rw [ran]
    rfl

/-- An account without collateral, an account with a thousand units and a perpetual market. -/
def openedRun : List (U64 × Command) :=
  [(1, .createAccount ⟨micros 0⟩), (2, .createAccount ⟨micros 1000000000⟩),
    (3, .createMarket ⟨0, .perpetual, 0, units 100000000⟩)]

/-- What a run shows of an order that goes in place. -/
theorem exists_taken (c : PlaceOrder) (shows : Engine flatHash → KeyBinding → Bool)
    (shown : ((Engine.new flatHash smallConfig).run openedRun).any (fun r =>
      (commandBinding flatHash (.placeOrder c)).any fun b =>
        (r.2.tryExecuteRestingInPlace 4 c b).any (fun r => returned r.1) && shows r.2 b) = true) :
    ∃ e b receipt e', Reachable flatHash smallConfig e ∧
      commandBinding flatHash (.placeOrder c) = some b ∧
      e.tryExecuteRestingInPlace 4 c b = some (.ok receipt, e') ∧ shows e b = true := by
  obtain ⟨results, e, -, reached, holds⟩ := exists_run flatHash smallConfig openedRun
    (fun _ e => (commandBinding flatHash (.placeOrder c)).any fun b =>
      (e.tryExecuteRestingInPlace 4 c b).any (fun r => returned r.1) && shows e b) shown
  simp only [Option.any_eq_true, Bool.and_eq_true] at holds
  obtain ⟨b, bound, ⟨⟨result, e'⟩, taken, ok⟩, holds⟩ := holds
  obtain ⟨receipt, rfl⟩ := returned_eq_true.1 ok
  exact ⟨e, b, receipt, e', reached, bound, taken, holds⟩

/-- One micro-unit at a micro-price, for the account without collateral. -/
def dustOrder : PlaceOrder := limitOrder 0 0 1 .ask 1 1

/-- Twenty units at a hundred, for the other account. -/
def largeOrder : PlaceOrder := limitOrder 1 0 1 .ask 100000000 20000000

/-- An order rests in place although the handler rejects it. -/
theorem inPlace_takes_rejected : ∃ e b receipt e' err e'', Reachable flatHash smallConfig e ∧
    commandBinding flatHash (.placeOrder dustOrder) = some b ∧
    e.tryExecuteRestingInPlace 4 dustOrder b = some (.ok receipt, e') ∧
    e.transact 4 (.placeOrder dustOrder) (some b) = some (.error err, e'') := by
  obtain ⟨e, b, receipt, e', reached, bound, taken, shown⟩ := exists_taken dustOrder
    (fun e b => (e.transact 4 (.placeOrder dustOrder) (some b)).any fun r => !returned r.1)
    (by decide +kernel)
  obtain ⟨⟨result, e''⟩, ran, failed⟩ := (Option.any_eq_true _ _).1 shown
  cases result with
  | ok receipt => cases failed
  | error err => exact ⟨e, b, receipt, e', err, e'', reached, bound, taken, ran⟩

theorem inPlace_agrees_iff_secondAccount : ∃ e b receipt e', Reachable flatHash smallConfig e ∧
    commandBinding flatHash (.placeOrder largeOrder) = some b ∧
    e.tryExecuteRestingInPlace 4 largeOrder b = some (.ok receipt, e') ∧
    e.transact 4 (.placeOrder largeOrder) (some b) = some (.ok receipt, e') := by
  obtain ⟨e, b, receipt, e', reached, bound, taken, shown⟩ :=
    exists_taken largeOrder (fun e _ => returned
      (e.risk.checkOrderInMarket 1 0 (Price.notionalCeil (units 100000000) (units 20000000)) false))
      (by decide +kernel)
  obtain ⟨⟨⟩, admitted⟩ := returned_eq_true.1 shown
  obtain ⟨e'', ran, rfl⟩ := (inPlace_agrees_iff id (fun _ _ same => congrArg orderReserves same)
    reached taken).2 ⟨admitted, by decide⟩
  exact ⟨e, b, receipt, _, reached, bound, taken, ran⟩

end Dexos.Execution.Engine
