import Dexos.Execution.Settling

/-!
# Healthy states

What holds of every state that commands reach, and what a command handler has to show to keep
it: the relations between the subsystems, the backing of every resting order, one book for
every instrument, and leaves that are committed as soon as the handler returns.
-/

namespace Dexos.Execution

open Foundations Clob Risk

namespace Engine

variable {sha256 : Sha256} {e e' : Engine sha256} {S A : AccountId → Prop}
  {M : MarketId → Prop}

/-- Every instrument of every market has a book, and a resolved claim market has a winner and
no resting order. -/
structure Shaped (e : Engine sha256) : Prop where
  books : ∀ k, (e.books.get? k).isSome = true ↔
    ∃ info, e.markets.get? k.market = some info ∧ k.instrument < info.count
  resolved : ∀ m info, e.markets.get? m = some info → info.lifecycle = .resolved →
    isClaimMarket info.marketType = true ∧
      (∃ winner, info.winningOutcome = some winner ∧ winner < info.count) ∧
      ∀ k, k.market = m → e.resting k = none

/-- Every account and every market has a leaf in the tree. -/
structure Rooted (e : Engine sha256) : Prop where
  accounts : ∀ a : AccountId, a.val < e.ledger.accounts.length → a.val < e.tree.accounts.capacity
  markets : ∀ m info, e.markets.get? m = some info → m.val < e.tree.markets.capacity

/-- What holds of every state that commands reach. -/
structure Healthy (e : Engine sha256) : Prop where
  matched : Matched e
  backed : Backed e.resting e
  shaped : Shaped e
  rooted : Rooted e

/-! ## Frames of health -/

theorem resting_congr (books : e'.books = e.books) : e'.resting = e.resting := by
  funext k
  rw [resting, resting, books]

theorem Shaped.touch (shaped : Shaped e) (touched : Touches S e e') : Shaped e' := by
  have same := resting_congr touched.books
  refine ⟨fun k => ?_, fun m info found => ?_⟩
  · rw [touched.books, touched.markets]
    exact shaped.books k
  · rw [same]
    rw [touched.markets] at found
    exact shaped.resolved m info found

theorem Rooted.touch (rooted : Rooted e) (touched : Touches S e e') : Rooted e' := by
  refine ⟨fun a => ?_, fun m info found => ?_⟩
  · rw [touched.allocated, touched.tree]
    exact rooted.accounts a
  · rw [touched.tree]
    rw [touched.markets] at found
    exact rooted.markets m info found

theorem Healthy.recommit (healthy : Healthy e) (done : Recommits A M e e') : Healthy e' := by
  have accounts : e'.tree.accounts.capacity = e.tree.accounts.capacity :=
    congrArg (2 ^ ·) done.accountDepth
  have markets : e'.tree.markets.capacity = e.tree.markets.capacity :=
    congrArg (2 ^ ·) done.marketDepth
  obtain ⟨tree, rfl⟩ := done.same
  refine ⟨{ healthy.matched with }, healthy.backed, { healthy.shaped with },
    ⟨fun a inside => ?_, fun m info found => ?_⟩⟩
  · rw [accounts]
    exact healthy.rooted.accounts a inside
  · rw [markets]
    exact healthy.rooted.markets m info found

/-- The orders that rest are backed, when a step kept the books and the sidecars. -/
theorem Healthy.step (healthy : Healthy e) (step : Step S e e')
    (reserves : e'.orderReserves = e.orderReserves) (records : e'.claimEscrows = e.claimEscrows) :
    Healthy e' where
  matched := step.matched healthy.matched
  backed k := by
    rw [resting_congr step.touches.books, step.touches.markets, reserves, records]
    exact healthy.backed k
  shaped := healthy.shaped.touch step.touches
  rooted := healthy.rooted.touch step.touches

theorem Healthy.moveRisk (healthy : Healthy e) {risk : RiskEngine}
    (moved : e.risk.Moved e.known risk (fun _ => 0) S) : Healthy { e with risk := risk } :=
  ⟨healthy.matched.moveRisk moved, healthy.backed, { healthy.shaped with }, { healthy.rooted with }⟩

/-! ## The risk engine of a state -/

/-- The risk engine marks every market at the price that its data say. -/
def Marked (e : Engine sha256) : Prop :=
  ∀ m info, e.markets.get? m = some info → e.risk.markFor m = some info.markPrice

/-- Positions are taken in marked markets. -/
theorem isSome_markFor (matched : Matched e) (marked : Marked e) {b : AccountId} {x : Account}
    {p : PerpPosition} (found : e.risk.slot b = some x) (held : p ∈ x.perp) :
    (e.risk.markFor p.market).isSome = true := by
  obtain ⟨info, listed⟩ := Option.isSome_iff_exists.1 (matched.aligned.sound.known b x found p held)
  rw [marked p.market info listed]
  rfl

/-- The risk engine follows a path, and the marks stay what the markets say. -/
structure Follows (e e' : Engine sha256) : Prop where
  path : Marked e → e.risk.Path e'.risk
  marks : Marked e → Marked e'

namespace Follows

theorem refl (e : Engine sha256) : Follows e e := ⟨fun _ => .refl, id⟩

theorem trans {e'' : Engine sha256} (first : Follows e e') (second : Follows e' e'') :
    Follows e e'' :=
  ⟨fun h => (first.path h).trans (second.path (first.marks h)),
    fun h => second.marks (first.marks h)⟩

theorem ofTrades (trades : e.risk.Trades e'.risk)
    (markets : ∀ m info', e'.markets.get? m = some info' →
      ∃ info, e.markets.get? m = some info ∧ info'.markPrice = info.markPrice) : Follows e e' := by
  refine ⟨fun _ => trades.path, fun marked m info' found => ?_⟩
  obtain ⟨info, before, same⟩ := markets m info' found
  rw [trades.markFor, marked m info before, same]

theorem ofStep (step : Step S e e') : Follows e e' :=
  ofTrades step.trades fun _ info' found => ⟨info', step.touches.markets ▸ found, rfl⟩

theorem describe {m : MarketId} {info info' : MarketMeta} (found : e.markets.get? m = some info)
    (mark : info'.markPrice = info.markPrice) :
    Follows e { e with markets := e.markets.insert m info' } := by
  refine ofTrades .refl fun n found' at_n => ?_
  rw [OrdMap.get?_insert] at at_n
  split_ifs at at_n with same
  · cases at_n
    exact ⟨info, same ▸ found, mark⟩
  · exact ⟨found', at_n, rfl⟩

theorem mark {m : MarketId} {info : MarketMeta} {risk : RiskEngine} (books : Books)
    (marked : e.risk.setMarkPrice m info.markPrice = .ok risk) :
    Follows e { e with markets := e.markets.insert m info, books := books, risk := risk } := by
  refine ⟨fun _ => .single (.marked marked), fun before n found at_n => ?_⟩
  rw [OrdMap.get?_insert] at at_n
  refine (RiskEngine.setMarkPrice_markFor marked n).trans ?_
  split_ifs at at_n ⊢ with same
  · cases at_n
    rfl
  · exact before n found at_n

theorem recommit (done : Recommits A M e e') : Follows e e' := by
  obtain ⟨tree, rfl⟩ := done.same
  exact ⟨fun _ => .refl, id⟩

end Follows

/-! ## What a handler does -/

/-- The account whose watermark a command raises. -/
def principal : Command → Option AccountId
  | .placeOrder c => some c.account
  | .requestWithdrawal c => some c.account
  | _ => none

/-- What a command adds to the supply. -/
def inflow (e : Engine sha256) : Command → Int
  | .createAccount c => c.initialCollateral.val
  | .depositCredit c => c.amount.val
  | .finalizeWithdrawal c => -weightOf (fun w => w.amount.val) (e.withdrawals.get? c.withdrawalId)
  | _ => 0

/-- The deposit event that a command credits. -/
def creditedEvent : Command → Option DepositKey
  | .depositCredit c => some (depositKey c)
  | _ => none

/-- What every handler does when it returns. -/
structure Handled (command : Command) (e e' : Engine sha256) : Prop where
  healthy : Healthy e'
  replay : e'.replay = e.replay
  lastSeq : e'.lastSeq = e.lastSeq
  supply : e'.ledger.totalSupply.val = e.ledger.totalSupply.val + e.inflow command
  deposits : e'.depositsSeen = (creditedEvent command).toList ++ e.depositsSeen
  unseen : ∀ k ∈ creditedEvent command, k ∉ e.depositsSeen
  follows : Follows e e'
  fresh : ∀ S, (∀ a, S a → principal command = some a) → Stale S (fun _ => False) e →
    Stale (fun _ => False) (fun _ => False) e'

/-- A handler whose last act is to commit what it touched. -/
theorem Handled.ofCommit {command : Command} {e₁ : Engine sha256} {T : AccountId → Prop}
    {N : MarketId → Prop} (done : Recommits A M e₁ e') (healthy : Healthy e₁)
    (follows : Follows e e₁)
    (tree : e₁.tree = e.tree) (replay : e₁.replay = e.replay) (lastSeq : e₁.lastSeq = e.lastSeq)
    (supply : e₁.ledger.totalSupply.val = e.ledger.totalSupply.val + e.inflow command)
    (deposits : e₁.depositsSeen = (creditedEvent command).toList ++ e.depositsSeen)
    (unseen : ∀ k ∈ creditedEvent command, k ∉ e.depositsSeen)
    (accounts : ∀ a, ¬ T a → e₁.accountLeaf a = e.accountLeaf a)
    (markets : ∀ m, ¬ N m → e₁.marketLeaf m = e.marketLeaf m)
    (bound : ∀ a, principal command = some a → A a) (covered : ∀ a, T a → A a)
    (coveredMarkets : ∀ m, N m → M m) : Handled command e e' := by
  refine ⟨healthy.recommit done, ?_, ?_, ?_, ?_, unseen, follows.trans (.recommit done),
    fun S mine stale => ?_⟩
  · obtain ⟨t, rfl⟩ := done.same
    exact replay
  · obtain ⟨t, rfl⟩ := done.same
    exact lastSeq
  · obtain ⟨t, rfl⟩ := done.same
    exact supply
  · obtain ⟨t, rfl⟩ := done.same
    exact deposits
  · have touched := stale.change (T := T) (N := N) tree (fun a _ other => accounts a other)
      fun m _ other => markets m other
    refine (done.freshens _ _ touched).mono (fun a h => ?_) fun m h => ?_
    · exact h.2 (h.1.elim (fun there => bound a (mine a there)) (covered a))
    · exact h.2 (coveredMarkets m (h.1.resolve_left id))

/-- Operations that keep a state healthy and every leaf as committed as it was, and that do not
reach the boundary of the ledger. -/
structure Keeps (e e' : Engine sha256) : Prop where
  healthy : Healthy e → Healthy e'
  replay : e'.replay = e.replay
  lastSeq : e'.lastSeq = e.lastSeq
  supply : e'.ledger.totalSupply = e.ledger.totalSupply
  deposits : e'.depositsSeen = e.depositsSeen
  follows : Follows e e'
  stale : ∀ S M, Stale S M e → Stale S M e'

namespace Keeps

theorem refl (e : Engine sha256) : Keeps e e :=
  ⟨id, rfl, rfl, rfl, rfl, .refl e, fun _ _ => id⟩

theorem trans {e'' : Engine sha256} (first : Keeps e e') (second : Keeps e' e'') : Keeps e e'' where
  healthy h := second.healthy (first.healthy h)
  replay := second.replay.trans first.replay
  lastSeq := second.lastSeq.trans first.lastSeq
  supply := second.supply.trans first.supply
  deposits := second.deposits.trans first.deposits
  follows := first.follows.trans second.follows
  stale S M h := second.stale S M (first.stale S M h)

theorem ofStep {e₁ : Engine sha256} (step : Step S e e₁)
    (reserves : e₁.orderReserves = e.orderReserves)
    (records : e₁.claimEscrows = e.claimEscrows) (done : Recommits A M e₁ e')
    (covered : ∀ a, S a → A a) : Keeps e e' := by
  have same := done.same
  refine ⟨fun healthy => (healthy.step step reserves records).recommit done, ?_, ?_, ?_, ?_,
    (Follows.ofStep step).trans (.recommit done), fun T N stale => ?_⟩
  · obtain ⟨t, rfl⟩ := same
    exact step.touches.replay
  · obtain ⟨t, rfl⟩ := same
    exact step.touches.lastSeq
  · obtain ⟨t, rfl⟩ := same
    exact step.touches.supply
  · obtain ⟨t, rfl⟩ := same
    exact step.touches.deposits
  · refine (done.freshens _ _ (stale.touch step.touches)).mono (fun a h => ?_) fun m h => h.1
    exact h.1.resolve_right fun touched => h.2 (covered a touched)

/-- A handler that brings no cash and raises no watermark. -/
theorem handled {command : Command} (kept : Keeps e e') (healthy : Healthy e)
    (inflow : e.inflow command = 0) (event : creditedEvent command = none)
    (free : principal command = none) : Handled command e e' where
  healthy := kept.healthy healthy
  __ := kept
  supply := by rw [kept.supply, inflow, add_zero]
  deposits := by
    rw [event, kept.deposits]
    rfl
  unseen := by simp [event]
  fresh S mine stale := by
    refine (kept.stale _ _ stale).mono (fun a h => ?_) fun _ h => h
    have none := mine a h
    simp [free] at none

end Keeps

end Engine

end Dexos.Execution
