import Dexos.Execution.Execute
import Dexos.Execution.Settlement

/-!
# Transactions

Executing a command on a healthy state has three endings: an error that leaves the state alone,
a recorded receipt, or a handled command with its receipt. There is no panic.
-/

namespace Dexos.Execution

open Foundations Clob Risk Option OrdMap RiskEngine

namespace Engine

variable {sha256 : Sha256} {e e' : Engine sha256} {kind : ReceiptKind} {seq : U64}
  {command : Command} {binding : Option KeyBinding} {books : Books} {txn : Engine sha256}
  {book : LogicalBook} {c : PlaceOrder} {m : MarketId} {a : AccountId} {id : OrderId} {k : BookKey}
  {err : ExecutionError}

/-! ## Handlers -/

theorem apply_handled (healthy : Healthy e) (done : e.apply command = .ok (e', kind)) :
    Handled command e e' := by
  cases command with
  | placeOrder c => exact placeOrder_handled healthy done
  | createAccount c => exact createAccount_handled healthy (leaving_eq_ok.1 done)
  | bindWallet c => exact bindWallet_handled healthy (leaving_eq_ok.1 done)
  | authorizeSession c => exact authorizeSession_handled healthy (leaving_eq_ok.1 done)
  | revokeSession c => exact revokeSession_handled healthy (leaving_eq_ok.1 done)
  | depositCredit c => exact depositCredit_handled healthy (leaving_eq_ok.1 done)
  | requestWithdrawal c => exact requestWithdrawal_handled healthy (leaving_eq_ok.1 done)
  | finalizeWithdrawal c => exact finalizeWithdrawal_handled healthy (leaving_eq_ok.1 done)
  | createMarket c => exact createMarket_handled healthy (leaving_eq_ok.1 done)
  | setMarkPrice c => exact setMarkPrice_handled healthy (leaving_eq_ok.1 done)
  | cancelOrder c => exact cancelOrder_handled healthy (leaving_eq_ok.1 done)
  | cancelAll c => exact cancelAll_handled healthy (leaving_eq_ok.1 done)
  | replaceOrder c => exact replaceOrder_handled healthy (leaving_eq_ok.1 done)
  | mintCompleteSet c => exact mintCompleteSet_handled healthy (leaving_eq_ok.1 done)
  | redeemCompleteSet c => exact redeemCompleteSet_handled healthy (leaving_eq_ok.1 done)
  | protocolUpgrade c => exact protocolUpgrade_handled healthy (leaving_eq_ok.1 done)
  | liquidate c => exact liquidate_handled healthy (leaving_eq_ok.1 done)
  | setMarketLifecycle c => exact setMarketLifecycle_handled healthy (leaving_eq_ok.1 done)
  | setOracleHealth c => exact setOracleHealth_handled healthy (leaving_eq_ok.1 done)
  | applyFundingEpoch c => exact applyFundingEpoch_handled healthy (leaving_eq_ok.1 done)
  | resolveMarket c => exact resolveMarket_handled healthy (leaving_eq_ok.1 done)
  | settleMarket c => exact settleMarket_handled healthy (leaving_eq_ok.1 done)

theorem Healthy.opened (healthy : Healthy e) (seq : U64) (binding : Option KeyBinding) :
    Healthy (e.opened seq binding) :=
  ⟨{ healthy.matched with }, healthy.backed, { healthy.shaped with }, { healthy.rooted with }⟩

theorem Healthy.sealed (healthy : Healthy e) (binding : Option KeyBinding)
    (receipt : ExecutionReceipt) : Healthy (e.sealed binding receipt) :=
  ⟨{ healthy.matched with }, healthy.backed, { healthy.shaped with }, { healthy.rooted with }⟩

/-! ## The lent book -/

theorem IsPlain.newOrder (plain : IsPlain c) : c.newOrder = plainOrder c := by
  rw [plainOrder, ← plain.1]
  rfl

/-- A plain placement that fails leaves the lent book as it was, or with the order added. -/
theorem placeOrder_error (plain : IsPlain c)
    (stored : e.books.get? c.bookKey = some book) (failed : e.placeOrder c = .error (err, books)) :
    books = e.books ∨ books = e.books.insert c.bookKey (book.placeWithReport (plainOrder c)).2 := by
  simp only [placeOrder, bind_eq_error, mapError_eq_error, mapError_eq_ok, ok_iff] at failed
  obtain ⟨-, -, -, same⟩ | ⟨⟨e₀, t⟩, admitted, rest⟩ := failed
  · exact .inl same.symm
  obtain ⟨sessions, info, notional, rfl, rfl, passed⟩ := admitOrder_ok admitted
  have clamped : Engine.clampedBook { e with sessions := sessions } c book = book :=
    if_neg (by simp [plain.1, plain.2.1])
  obtain ⟨-, -, -, same⟩ | ⟨book', stored', rest⟩ := rest
  · exact .inl same.symm
  obtain rfl : book' = book := some.inj (stored'.symm.trans stored)
  rw [clamped, plain.newOrder] at rest
  refine .inr ?_
  obtain ⟨-, -, -, same⟩ | ⟨report, -, -, -, -, same⟩ := rest
  · exact same.symm
  · exact same.symm

theorem takeBack_of {back : LogicalBook} (stored : e.books.get? k = some back)
    (lent : books.get? k = some book) (undone : unrested book id = some back) :
    e.takeBack books k id = some e := by
  have restored : (e.books.erase k).insert k back = e.books := by
    ext1 j
    rw [get?_insert, get?_erase]
    split_ifs with same
    · rw [same, stored]
    · rfl
  rw [takeBack, lent]
  simp only [bind_eq_bind, bind_some, undone, restored, pure_def]

/-- Taking a lent book back restores the state. -/
theorem takeBack_eq (lent : e.restingBookHandoff command = some (k, id))
    (failed : (e.opened seq binding).apply command = .error (err, books)) :
    e.takeBack books k id = some e := by
  cases command with
  | placeOrder c =>
    simp only [restingBookHandoff, bind_eq_bind, bind_eq_some_iff, guard_eq_some',
      pure_def, some.injEq, Prod.mk.injEq] at lent
    obtain ⟨-, plain, book, stored, -, fits, rfl, rfl⟩ := lent
    obtain ⟨placed, report, undone⟩ := LogicalBook.canRest_place fits plain.2.1 plain.2.2 rfl
    have fresh := (LogicalBook.canRest_admits fits).2.2
    obtain rfl | rfl := placeOrder_error (e := e.opened seq binding) plain stored failed
    · refine takeBack_of stored stored ?_
      have absent : book.contains c.orderId = false := LogicalBook.contains_eq_false.2 fresh
      rw [unrested, absent]
      rfl
    · rw [report]
      refine takeBack_of stored (get?_insert_self _ _ _) ?_
      have there : placed.contains c.orderId = true :=
        LogicalBook.contains_eq_true.2 (LogicalBook.cancel_ok undone).2
      have undone' : placed.cancel c.orderId = (.ok (), book) := undone
      rw [unrested, if_pos there, undone']
  | _ => cases lent

/-! ## Orders that rest in place -/

/-- What the in-place path does with a plain order: it rests, its notional is reserved, and its
two leaves are committed. -/
structure RestsInPlace (e : Engine sha256) (c : PlaceOrder) (txn : Engine sha256) : Prop where
  plain : IsPlain c
  master : c.auth = .master
  market : ∃ info, e.markets.get? c.market = some info ∧ openPerpetual info
  instrument : c.instrument = 0
  rests : ∃ book placed risk e₁, e.books.get? c.bookKey = some book ∧
    book.canRestWithoutMatch (plainOrder c) = .ok true ∧ book.placeWithReport (plainOrder c) =
      (.ok ⟨⟨[], .resting (plainOrder c).quantity⟩, []⟩, placed) ∧
    e.risk.checkOrderInMarket c.account c.market (Price.notional c.price c.quantity)
      false = .ok () ∧
    e.risk.reserveResting c.account (Price.notional c.price c.quantity) = .ok risk ∧
    Engine.commitAccount { e with
      books := e.books.insert c.bookKey placed
      risk := risk
      orderReserves := e.orderReserves.insert c.orderKey
        ⟨c.account, Price.notional c.price c.quantity, c.quantity⟩ } c.account = .ok e₁ ∧
    e₁.commitMarket c.market = .ok txn

theorem returned_eq_true {ε α : Type} {x : Except ε α} : returned x = true ↔ ∃ a, x = .ok a := by
  cases x <;> simp [returned]

theorem commitAccount_returns {q : Purse} {x : Account}
    (purse : e.ledger.purse a = some q) (slot : e.risk.slot a = some x) (used : x.used = true)
    (inside : a.val < e.tree.accounts.capacity) : ∃ e', e.commitAccount a = .ok e' := by
  have leaf : ∃ leaf, e.accountLeaf a = .ok leaf := by
    rw [accountLeaf, Ledger.idx, purse, RiskEngine.read, slot]
    simp only [used, if_true]
    exact ⟨_, rfl⟩
  obtain ⟨leaf, shown⟩ := leaf
  have stored : e.tree.setAccount a.val leaf = .ok _ := dif_pos inside
  exact ⟨_, by rw [commitAccount, shown, ok_bind, stored]; rfl⟩

theorem commitMarket_returns {info : MarketMeta} (found : e.markets.get? m = some info)
    (inside : m.val < e.tree.markets.capacity) : ∃ e', e.commitMarket m = .ok e' := by
  obtain ⟨leaf, shown⟩ : ∃ leaf, e.marketLeaf m = .ok leaf := by
    rw [marketLeaf, found]
    exact ⟨_, rfl⟩
  have stored : e.tree.setMarket m.val leaf = .ok _ := dif_pos inside
  exact ⟨_, by rw [commitMarket, shown, ok_bind, stored]; rfl⟩

/-- Leaves do not commit to the sequence number. -/
theorem commitAccount_later (done : e.commitAccount a = .ok e') (last : Option U64) :
    Engine.commitAccount { e with lastSeq := last } a = .ok { e' with lastSeq := last } := by
  simp only [commitAccount, ok_iff] at done ⊢
  obtain ⟨leaf, shown, tree, stored, rfl⟩ := done
  exact ⟨leaf, shown, tree, stored, rfl⟩

theorem commitMarket_later (done : e.commitMarket m = .ok e') (last : Option U64) :
    Engine.commitMarket { e with lastSeq := last } m = .ok { e' with lastSeq := last } := by
  simp only [commitMarket, ok_iff] at done ⊢
  obtain ⟨leaf, shown, tree, stored, rfl⟩ := done
  exact ⟨leaf, shown, tree, stored, rfl⟩

theorem inPlaceBook_eq_some (chosen : e.inPlaceBook c = some book) :
    c.auth = .master ∧ IsPlain c ∧
      (∃ info, e.markets.get? c.market = some info ∧ openPerpetual info) ∧ c.instrument = 0 ∧
      e.books.get? c.bookKey = some book ∧ book.canRestWithoutMatch (plainOrder c) = .ok true ∧
      e.risk.checkOrderInMarket c.account c.market (Price.notional c.price c.quantity)
      false = .ok () ∧
      (∃ next, e.risk.checkedRestingReservation c.account (Price.notional c.price c.quantity) =
        .ok next) ∧
      c.account.val < e.tree.accounts.capacity ∧ c.market.val < e.tree.markets.capacity := by
  simp only [inPlaceBook, bind_eq_bind, bind_eq_some_iff, guard_eq_some',
    pure_def, some.injEq, returned_eq_true] at chosen
  obtain ⟨-, ⟨master, plain⟩, info, found, -, ⟨perpetual, zero⟩, book, stored, -, fits, -,
    ⟨⟨⟩, admitted⟩, -, ⟨⟨⟩, reserved⟩, -, ⟨inside, insideMarket⟩, -, -, rfl⟩ := chosen
  refine ⟨master, plain, ⟨info, found, perpetual⟩, zero, stored, fits, admitted, ?_, inside,
    insideMarket⟩
  rw [checkReserveResting] at reserved
  cases checked :
    e.risk.checkedRestingReservation c.account (Price.notional c.price c.quantity) with
  | error err =>
    rw [checked] at reserved
    cases reserved
  | ok next => exact ⟨next, rfl⟩

/-- The in-place path never fails once it is taken. -/
theorem tryExecuteRestingInPlace_some {b : KeyBinding} {outcome : Outcome sha256}
    (healthy : Healthy e) (taken : e.tryExecuteRestingInPlace seq c b = some outcome) :
    ∃ txn, RestsInPlace (e.opened seq (some b)) c txn ∧
      outcome = (.ok (txn.receipt seq (.orderApplied I64.zero true)),
        txn.sealed (some b) (txn.receipt seq (.orderApplied I64.zero true))) := by
  rw [tryExecuteRestingInPlace] at taken
  cases chosen : e.inPlaceBook c with
  | none => simp [chosen] at taken
  | some book =>
    obtain ⟨master, plain, ⟨info, found, perpetual⟩, zero, stored, fits, admitted, ⟨next, reserved⟩,
      inside, insideMarket⟩ := inPlaceBook_eq_some chosen
    obtain ⟨placed, report, -⟩ := LogicalBook.canRest_place fits plain.2.1 plain.2.2 rfl
    obtain ⟨-, x, slot, isOpen, -⟩ := checkedRestingReservation_ok reserved
    have used : x.used = true := healthy.matched.aligned.sound.used c.account x slot
    have reserve : e.risk.reserveResting c.account (Price.notional c.price c.quantity) =
        .ok (e.risk.setSlot c.account { x with reservedResting := next }) := by
      have active : e.risk.active c.account = .ok x := active_eq_ok.2 ⟨slot, used, isOpen⟩
      rw [reserveResting, reserved, active]
      rfl
    obtain ⟨q, purse⟩ := healthy.matched.aligned.purse slot
    have slot' : (e.risk.setSlot c.account { x with reservedResting := next }).slot c.account =
        some { x with reservedResting := next } := by
      rw [slot_setSlot slot, if_pos rfl]
    obtain ⟨e₁, first⟩ := commitAccount_returns (a := c.account)
      (e := { e with
        books := e.books.insert c.bookKey placed
        risk := e.risk.setSlot c.account { x with reservedResting := next }
        orderReserves := e.orderReserves.insert c.orderKey
          ⟨c.account, Price.notional c.price c.quantity, c.quantity⟩
        replay := e.replay.reserve b }) purse slot' used inside
    obtain ⟨e₂, last⟩ : ∃ e₂, e₁.commitMarket c.market = .ok e₂ := by
      obtain ⟨tree, leaf, rfl, -, -, -, markets, -⟩ := commitAccount_ok first
      refine commitMarket_returns found ?_
      rwa [markets]
    have finished : Engine.finishInPlace { e with books := e.books.insert c.bookKey placed } seq c b
        (Price.notional c.price c.quantity) =
        (.ok (e₂.receipt seq (.orderApplied I64.zero true)), { e₂ with
            replay := e₂.replay.finalize b (e₂.receipt seq (.orderApplied I64.zero true))
            lastSeq := some seq }) := by
      rw [finishInPlace, reserve]
      simp only [first, last]
    rw [chosen] at taken
    simp only [report] at taken
    rw [finished] at taken
    cases taken
    refine ⟨{ e₂ with lastSeq := some seq }, ⟨plain, master, ⟨info, found, perpetual⟩, zero,
      book, placed, _, { e₁ with lastSeq := some seq }, stored, fits, report, admitted, reserve, ?_,
        ?_⟩, rfl⟩
    · exact commitAccount_later first (some seq)
    · exact commitMarket_later last (some seq)

/-! ## Endings -/

/-- What runs inside a transaction: a handler, or the in-place path. -/
inductive Ran : Command → Engine sha256 → Engine sha256 → ReceiptKind → Prop
  | handler {command : Command} {e txn : Engine sha256} {kind : ReceiptKind}
      (done : e.apply command = .ok (txn, kind)) : Ran command e txn kind
  | inPlace {c : PlaceOrder} {e txn : Engine sha256} (done : RestsInPlace e c txn) :
      Ran (.placeOrder c) e txn (.orderApplied I64.zero true)

/-- The endings of a command. -/
inductive Executes (e : Engine sha256) (seq : U64) (command : Command) :
    Except ExecutionError ExecutionReceipt → Engine sha256 → Prop
  | rejected (err : ExecutionError) : Executes e seq command (.error err) e
  | replayed {b : KeyBinding} {receipt : ExecutionReceipt} (later : ∀ last ∈ e.lastSeq, last < seq)
      (bound : commandBinding sha256 command = some b)
      (recorded : e.replay.classify b = .replay receipt) :
      Executes e seq command (.ok receipt) { e with lastSeq := some seq }
  | executed {txn : Engine sha256} {kind : ReceiptKind} (later : ∀ last ∈ e.lastSeq, last < seq)
      (fresh : ∀ b ∈ commandBinding sha256 command, e.replay.classify b = .fresh)
      (ran : Ran command (e.opened seq (commandBinding sha256 command)) txn kind) :
      Executes e seq command (.ok (txn.receipt seq kind))
        (txn.sealed (commandBinding sha256 command) (txn.receipt seq kind))

/-- A key whose order rests in place had no reserve and no escrow. -/
theorem RestsInPlace.bare (done : RestsInPlace e c txn) (healthy : Healthy e) :
    e.orderReserves.get? c.orderKey = none ∧ e.claimEscrows.get? c.orderKey = none := by
  obtain ⟨book, placed, risk, e₁, stored, fits, -⟩ := done.rests
  have absent : e.resting c.orderKey = none := by
    rw [← onBook_resting stored]
    exact (onBook_at e.resting c.bookKey book.lookup c.orderId).trans
      (LogicalBook.canRest_admits fits).2.2
  have bare := healthy.backed c.orderKey
  rwa [absent] at bare

variable (healthy : Healthy e)
include healthy

theorem RestsInPlace.handled (done : RestsInPlace e c txn) : Handled (.placeOrder c) e txn := by
  obtain ⟨info, found, perpetual, opened, -⟩ := done.market
  obtain ⟨book, placed, risk, e₁, stored, fits, report, -, reserved, first, last⟩ := done.rests
  obtain ⟨positive, priced, -⟩ := LogicalBook.canRest_admits fits
  have kind : isClaimMarket info.marketType = false := by
    rw [perpetual]
    rfl
  have lookup : placed.lookup = Function.update book.lookup c.orderId
      (some ⟨c.orderId, c.account, c.side, c.price, c.quantity, c.clientId⟩) :=
    (LogicalBook.placeWithReport_ok report).lookup_stages
  have rests : onBook e.resting c.bookKey placed.lookup = Function.update e.resting c.orderKey
      (some ⟨c.orderId, c.account, c.side, c.price, c.quantity, c.clientId⟩) := by
    rw [lookup, ← update_onBook, onBook_resting stored]
    rfl
  have bare := done.bare healthy
  have step := insertReserve_step (e := { e with books := e.books.insert c.bookKey placed })
    (k := c.orderKey)
      (r := ⟨c.account, Price.notional c.price c.quantity, c.quantity⟩) bare.1 reserved
  have after : Engine.resting { e with
      books := e.books.insert c.bookKey placed
      risk := risk
      orderReserves := e.orderReserves.insert c.orderKey
        ⟨c.account, Price.notional c.price c.quantity, c.quantity⟩ } =
      onBook e.resting c.bookKey placed.lookup := resting_insert placed
  refine Handled.ofTrade step
    ((Recommits.ofAccount first).trans (Recommits.ofMarket last)) healthy ?_
    (isSome_insert_book stored _) (fun k found' here resolved => ?_) (fun k other => ?_)
    (fun a touched => .inl touched) ?_ rfl rfl
  · rw [after, rests]
    refine backed_update healthy.backed rfl (fun j other => get?_insert_ne _ _ other)
      (fun j _ => rfl) ⟨priced, positive, info, found, ?_⟩
    rw [kind]
    exact ⟨bare.2, .inl (get?_insert_self _ _ _)⟩
  · rw [after]
    exact quiet_of_opened healthy found opened k found' here resolved
  · refine get?_insert_ne _ _ ?_
    rintro rfl
    exact other (.inr rfl)
  · rintro a ⟨⟩
    exact .inl rfl

theorem Ran.handled (ran : Ran command e txn kind) : Handled command e txn := by
  cases ran with
  | handler done => exact apply_handled healthy done
  | inPlace done => exact done.handled healthy

theorem executeFresh_cases (seq : U64) (command : Command) (later : ∀ last ∈ e.lastSeq, last < seq)
    (fresh : ∀ b ∈ commandBinding sha256 command, e.replay.classify b = .fresh) :
    ∃ result e', e.executeFresh seq command (commandBinding sha256 command) = some (result, e') ∧
      Executes e seq command result e' := by
  rw [executeFresh]
  cases path : e.inPlace seq command (commandBinding sha256 command) with
  | some outcome =>
    obtain ⟨c, b, rfl, bound, taken⟩ : ∃ c b, command = .placeOrder c ∧
        commandBinding sha256 command = some b ∧
        e.tryExecuteRestingInPlace seq c b = some outcome := by
      cases command with
      | placeOrder c => exact ⟨c, _, rfl, rfl, path⟩
      | _ => cases path
    obtain ⟨txn, rests, rfl⟩ := tryExecuteRestingInPlace_some healthy taken
    refine ⟨_, _, rfl, ?_⟩
    rw [← bound] at rests ⊢
    exact .executed later fresh (.inPlace rests)
  | none =>
    rw [transact]
    cases ran : (e.opened seq (commandBinding sha256 command)).apply command with
    | ok r => exact ⟨_, _, rfl, .executed later fresh (.handler ran)⟩
    | error r =>
      obtain ⟨err, books⟩ := r
      cases lent : e.restingBookHandoff command with
      | none => exact ⟨_, _, rfl, .rejected err⟩
      | some r =>
        refine ⟨_, _, ?_, .rejected err⟩
        simp only [takeBack_eq lent ran, map_some]

/-- Executing a command on a healthy state ends in one of three ways. -/
theorem execute_cases (seq : U64) (command : Command) :
    ∃ result e', e.execute seq command = some (result, e') ∧ Executes e seq command result e' := by
  have next : (∀ last ∈ e.lastSeq, last < seq) → ∃ result e',
      e.executeNext seq command = some (result, e') ∧ Executes e seq command result e' := by
    intro later
    rw [executeNext]
    cases bound : commandBinding sha256 command with
    | none =>
      have cases := executeFresh_cases healthy seq command later (by rw [bound]; rintro b ⟨⟩)
      rwa [bound] at cases
    | some b =>
      cases decision : e.replay.classify b with
      | replay receipt =>
        refine ⟨_, _, ?_, .replayed later bound decision⟩
        simp only [map_some, decision]
      | conflict =>
        refine ⟨_, _, ?_, .rejected .idempotencyConflict⟩
        simp only [map_some, decision]
      | expired =>
        refine ⟨_, _, ?_, .rejected .replayExpired⟩
        simp only [map_some, decision]
      | fresh =>
        have cases := executeFresh_cases healthy seq command later (by
          rw [bound]
          rintro b ⟨⟩
          exact decision)
        simp only [map_some, decision]
        rwa [bound] at cases
  rw [execute]
  cases last : e.lastSeq with
  | none => exact next (by rw [last]; rintro l ⟨⟩)
  | some l =>
    dsimp only
    split_ifs with stale
    · exact ⟨_, _, rfl, .rejected _⟩
    · refine next fun l' same => ?_
      rw [last] at same
      cases same
      exact lt_of_not_ge stale

end Engine

end Dexos.Execution
