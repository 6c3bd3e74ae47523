import Dexos.Execution.Handlers

/-!
# Executing commands

A command is checked against the last sequence number and against the replay guard. A plain
order that rests without a match is executed in place, with an undo journal. Every other
command runs on a copy of the state that replaces it on success; the one book that a plain
placement would have to copy is lent to the copy and taken back.

## Implementation notes

`none` stands for a panic of the source.
-/

namespace Dexos.Execution

open Foundations Clob Risk

namespace Engine

variable {sha256 : Sha256}

abbrev Outcome (sha256 : Sha256) :=
  Except ExecutionError ExecutionReceipt × Engine sha256

/-- A handler's error with the books of the transaction, which only a placement changes before
it can fail and be read back. -/
def leaving {α : Type} (books : Books) (x : Attempt α) : Except (ExecutionError × Books) α :=
  x.mapError fun err => (err, books)

@[simp] theorem leaving_eq_ok {α : Type} {books : Books} {x : Attempt α} {a : α} :
    leaving books x = .ok a ↔ x = .ok a :=
  mapError_eq_ok

def apply (e : Engine sha256) :
    Command → Except (ExecutionError × Books) (Engine sha256 × ReceiptKind)
  | .createAccount c => leaving e.books (e.createAccount c)
  | .bindWallet c => leaving e.books (e.bindWallet c)
  | .authorizeSession c => leaving e.books (e.authorizeSession c)
  | .revokeSession c => leaving e.books (e.revokeSession c)
  | .depositCredit c => leaving e.books (e.depositCredit c)
  | .requestWithdrawal c => leaving e.books (e.requestWithdrawal c)
  | .finalizeWithdrawal c => leaving e.books (e.finalizeWithdrawal c)
  | .createMarket c => leaving e.books (e.createMarket c)
  | .setMarkPrice c => leaving e.books (e.setMarkPrice c)
  | .placeOrder c => e.placeOrder c
  | .cancelOrder c => leaving e.books (e.cancelOrder c)
  | .cancelAll c => leaving e.books (e.cancelAll c)
  | .replaceOrder c => leaving e.books (e.replaceOrder c)
  | .mintCompleteSet c => leaving e.books (e.mintCompleteSet c)
  | .redeemCompleteSet c => leaving e.books (e.redeemCompleteSet c)
  | .protocolUpgrade c => leaving e.books (e.protocolUpgrade c)
  | .liquidate c => leaving e.books (e.liquidate c)
  | .setMarketLifecycle c => leaving e.books (e.setMarketLifecycle c)
  | .setOracleHealth c => leaving e.books (e.setOracleHealth c)
  | .applyFundingEpoch c => leaving e.books (e.applyFundingEpoch c)
  | .resolveMarket c => leaving e.books (e.resolveMarket c)
  | .settleMarket c => leaving e.books (e.settleMarket c)

/-! ## The in-place path -/

def plainOrder (c : PlaceOrder) : NewOrder := { c.newOrder with reduceOnly := false }

/-- A limit order that is good till cancelled and not reduce-only. -/
def IsPlain (c : PlaceOrder) : Prop := c.reduceOnly = false ∧ c.orderType = .limit ∧ c.tif = .gtc

instance (c : PlaceOrder) : Decidable (IsPlain c) := inferInstanceAs (Decidable (_ ∧ _ ∧ _))

/-- Whether a market admits an order in place. -/
def openPerpetual (m : MarketMeta) : Prop :=
  m.marketType = .perpetual ∧ m.lifecycle = .opened ∧
    (m.oracleHealth = .normal ∨ m.oracleHealth = .degraded)

instance (m : MarketMeta) : Decidable (openPerpetual m) :=
  inferInstanceAs (Decidable (_ ∧ _ ∧ (_ ∨ _)))

/-- Whether a computation returned. -/
def returned {ε α : Type} : Except ε α → Bool
  | .ok _ => true
  | .error _ => false

variable (e : Engine sha256)

/-- The eligibility checks of `Engine::try_execute_resting_in_place`, and the book it uses. -/
def inPlaceBook (c : PlaceOrder) : Option LogicalBook := do
  guard (c.auth = .master ∧ IsPlain c)
  let info ← e.markets.get? c.market
  guard (openPerpetual info ∧ c.instrument = 0)
  let book ← e.books.get? c.bookKey
  guard (book.canRestWithoutMatch (plainOrder c) = .ok true)
  let notional := Price.notional c.price c.quantity
  guard (returned (e.risk.checkOrderInMarket c.account c.market notional false) = true)
  guard (returned (e.risk.checkReserveResting c.account notional) = true)
  guard (c.account.val < e.tree.accounts.capacity ∧ c.market.val < e.tree.markets.capacity)
  guard (e.orderReserves.contains c.orderKey = false ∧ e.claimEscrows.contains c.orderKey = false)
  return book

/-- Cancel an order of a book and ignore a failure. -/
def cancelQuietly (k : BookKey) (id : OrderId) : Engine sha256 :=
  match e.books.get? k with
  | none => e
  | some book => { e with books := e.books.insert k (book.cancel id).2 }

/-- `Engine::rollback_resting_in_place`, and the state it leaves. -/
def rollbackRestingInPlace (c : PlaceOrder) (binding : KeyBinding)
    (previous : Option U64) (notional : Amount) : Except ExecutionError Unit × Engine sha256 :=
  let e : Engine sha256 := { e with
    replay := e.replay.restoreReservation binding previous
    orderReserves := e.orderReserves.erase c.orderKey }
  match e.risk.releaseResting c.account notional with
  | .error err => (.error (.risk err), e)
  | .ok risk =>
    let e : Engine sha256 := { e with risk := risk }
    match e.cancelIn c.bookKey c.orderId .unknownMarket with
    | .error err => (.error err, e)
    | .ok e =>
      match e.commitAccount c.account with
      | .error err => (.error err, e)
      | .ok e =>
        match e.commitMarket c.market with
        | .error err => (.error err, e)
        | .ok e => (.ok (), e)

/-- Roll back and return the rollback's error, or the one that caused it. -/
def failInPlace (c : PlaceOrder) (binding : KeyBinding)
    (previous : Option U64) (notional : Amount) (err : ExecutionError) : Outcome sha256 :=
  match e.rollbackRestingInPlace c binding previous notional with
  | (.error err', e) => (.error err', e)
  | (.ok _, e) => (.error err, e)

/-- The in-place path once the order rests: reservation, watermark, leaves and receipt. -/
def finishInPlace (seq : U64) (c : PlaceOrder) (binding : KeyBinding)
    (notional : Amount) : Outcome sha256 :=
  match e.risk.reserveResting c.account notional with
  | .error err => (.error (.risk err), e.cancelQuietly c.bookKey c.orderId)
  | .ok risk =>
    let previous := e.replay.mark c.account .order
    let e : Engine sha256 := { e with
      risk := risk
      orderReserves := e.orderReserves.insert c.orderKey ⟨c.account, notional, c.quantity⟩
      replay := e.replay.reserve binding }
    match e.commitAccount c.account with
    | .error err => e.failInPlace c binding previous notional err
    | .ok e =>
      match e.commitMarket c.market with
      | .error err => e.failInPlace c binding previous notional err
      | .ok e =>
        let receipt := e.receipt seq (.orderApplied I64.zero true)
        (.ok receipt, { e with replay := e.replay.finalize binding receipt, lastSeq := some seq })

def tryExecuteRestingInPlace (seq : U64) (c : PlaceOrder)
    (binding : KeyBinding) : Option (Outcome sha256) :=
  match e.inPlaceBook c with
  | none => none
  | some book =>
    match book.placeWithReport (plainOrder c) with
    | (.error _, _) => none
    | (.ok report, placed) =>
      let e : Engine sha256 := { e with books := e.books.insert c.bookKey placed }
      match report.result.outcome with
      | .resting _ =>
        if (filledQuantity report.result.fills).val = 0 then
          some (e.finishInPlace seq c binding (Price.notional c.price c.quantity))
        else some (.error .escrowInconsistency, e.cancelQuietly c.bookKey c.orderId)
      | _ => some (.error .escrowInconsistency, e.cancelQuietly c.bookKey c.orderId)

/-! ## The transaction -/

def restingBookHandoff : Command → Option (BookKey × OrderId)
  | .placeOrder c => do
      guard (IsPlain c)
      let book ← e.books.get? c.bookKey
      guard (book.canRestWithoutMatch (plainOrder c) = .ok true)
      return (c.bookKey, c.orderId)
  | _ => none

/-- The lent book without the order that the transaction may have rested. -/
def unrested (book : LogicalBook) (id : OrderId) : Option LogicalBook :=
  if book.contains id then
    match book.cancel id with
    | (.ok _, back) => some back
    | (.error _, _) => none
  else some book

/-- Take a lent book back from a failed transaction. -/
def takeBack (books : Books) (k : BookKey) (id : OrderId) : Option (Engine sha256) := do
  let book ← books.get? k
  let back ← unrested book id
  return { e with books := (e.books.erase k).insert k back }

/-- The transaction's copy of the state, with the sequence and the watermark of the command. -/
def opened (seq : U64) (binding : Option KeyBinding) : Engine sha256 :=
  { e with
    lastSeq := some seq
    replay := (binding.map e.replay.reserve).getD e.replay }

/-- The end of a successful transaction. -/
def sealed (binding : Option KeyBinding) (receipt : ExecutionReceipt) : Engine sha256 :=
  { e with replay := (binding.map fun b => e.replay.finalize b receipt).getD e.replay }

/-- The general transaction. -/
def transact (seq : U64) (command : Command) (binding : Option KeyBinding) :
    Option (Outcome sha256) :=
  match (e.opened seq binding).apply command with
  | .ok (txn, kind) =>
    let receipt := txn.receipt seq kind
    some (.ok receipt, txn.sealed binding receipt)
  | .error (err, books) =>
    match e.restingBookHandoff command with
    | none => some (.error err, e)
    | some (k, id) => (e.takeBack books k id).map fun e => (.error err, e)

/-- The in-place path, for placements only. -/
def inPlace (seq : U64) : Command → Option KeyBinding → Option (Outcome sha256)
  | .placeOrder c, some binding => e.tryExecuteRestingInPlace seq c binding
  | _, _ => none

/-- A command that the guard calls fresh. -/
def executeFresh (seq : U64) (command : Command)
    (binding : Option KeyBinding) : Option (Outcome sha256) :=
  match e.inPlace seq command binding with
  | some outcome => some outcome
  | none => e.transact seq command binding

/-- A command with a fresh sequence number. -/
def executeNext (seq : U64) (command : Command) : Option (Outcome sha256) :=
  let binding := commandBinding sha256 command
  match binding.map e.replay.classify with
  | some (.replay receipt) => some (.ok receipt, { e with lastSeq := some seq })
  | some .conflict => some (.error .idempotencyConflict, e)
  | some .expired => some (.error .replayExpired, e)
  | some .fresh | none => e.executeFresh seq command binding

def execute (seq : U64) (command : Command) : Option (Outcome sha256) :=
  match e.lastSeq with
  | some last =>
    if seq ≤ last then some (.error (.nonMonotonicSequence last seq), e)
    else e.executeNext seq command
  | none => e.executeNext seq command

variable {e}

/-- The states that commands reach from a new engine. -/
inductive Reachable (sha256 : Sha256) (config : EngineConfig) : Engine sha256 → Prop
  | new : Reachable sha256 config (.new sha256 config)
  | step {e e' : Engine sha256} {seq : U64} {command : Command}
      {result : Except ExecutionError ExecutionReceipt} (before : Reachable sha256 config e)
      (executed : e.execute seq command = some (result, e')) : Reachable sha256 config e'

end Engine

end Dexos.Execution
