import Dexos.Execution.Conservation
import Dexos.Risk.OpenInterest

/-!
# Liquidations

What a liquidation means for the exchange. The positions of a market sum to zero in every
reachable state, so the victim's position goes to counterparties as a whole. The risk engine
closes the account, so its cash stays in the ledger where no withdrawal reaches it.
-/

namespace Dexos.Execution

open Foundations Clob Risk RiskEngine

namespace Engine

variable {sha256 : Sha256} {config : EngineConfig} {e e' : Engine sha256} {seq : U64}
  {w : RequestWithdrawal}
  {c : Liquidate}

/-- The outcome that the risk engine reports to the handler of a liquidation. -/
def liquidationOutcome (e : Engine sha256) (c : Liquidate) : Attempt LiquidationOutcome := do
  let e ← e.liquidationStart c
  let settled ← liftRisk (e.risk.liquidate c.account)
  return settled.2

/-! ## Open interest -/

/-- Returning an escrow moves no position. -/
theorem returnEscrow_still {k : OrderKey} {record : ClaimOrderEscrow}
    (done : e.returnEscrow k record = .ok e') : e.risk.Still e'.risk := by
  rw [returnEscrow] at done
  cases side : record.side with
  | bid =>
    rw [side] at done
    dsimp only [returnPremium] at done
    split_ifs at done with owed
    · simp only [ok_iff, liftRisk_eq_ok] at done
      obtain ⟨column, -, ledger, -, risk, credited, rfl⟩ := done
      exact (creditCollateral_quiet credited).still
    · cases done
      exact .refl _
  | ask =>
    rw [side] at done
    dsimp only [returnClaims] at done
    split_ifs at done with owed
    · simp only [bind_eq_ok] at done
      obtain ⟨column, -, info, -, credited⟩ := done
      obtain ⟨claims, rfl, -⟩ := creditClaims_ok credited
      exact .refl _
    · cases done
      exact .refl _

theorem liquidationStart_still (done : e.liquidationStart c = .ok e') :
    e.risk.Still e'.risk := by
  have start : e.risk.Still
      ({ e with books := (e.cancelEverywhere c.account).1 } : Engine sha256).risk :=
    .refl _
  refine foldlM_keeps (P := fun s : Engine sha256 => e.risk.Still s.risk) start ?_ done
  intro k _ s s' so_far step
  simp only [ok_iff] at step
  obtain ⟨⟨s₁, owner⟩, released, rfl⟩ := step
  rw [releaseClaimEscrow] at released
  cases recorded : s.claimEscrows.get? k with
  | none =>
    rw [recorded] at released
    cases released
    exact so_far
  | some record =>
    simp only [recorded, ok_iff] at released
    obtain ⟨-, -, s₂, returned, rfl, -⟩ := released
    have still := returnEscrow_still returned
    exact so_far.trans still

/-- The risk engine of a reachable state has an exact index and balanced markets. -/
theorem Reachable.netted (reached : Reachable sha256 config e) : e.risk.Netted :=
  reached.follows.1.netted (new_netted config.risk)

/-- The positions of every market sum to zero, and a liquidation transfers its victim's position
to counterparties as a whole. -/
theorem openInterest_nets (reached : Reachable sha256 config e) :
    (∀ m, e.risk.openInterest m = 0) ∧
      ∀ seq c receipt e', e.execute seq (.liquidate c) = some (.ok receipt, e') →
        ∃ start outcome x s, (e.opened seq none).liquidationStart c = .ok start ∧
          (∀ b m, start.risk.holding b m = e.risk.holding b m) ∧
          start.risk.liquidate c.account = .ok (e'.risk, outcome) ∧
          start.risk.slot c.account = some x ∧ start.risk.autoDeleverage c.account = .ok s ∧
          ByTransfers c.account (start.risk, []) (x.perp.filter fun p => !p.isFlat) s ∧
          s.2 = outcome.adlFills ∧ start.risk.Absorbed c.account e'.risk outcome.adlFills := by
  have netted := reached.netted
  refine ⟨fun m => ?_, fun seq c receipt e' executed => ?_⟩
  · rw [openInterest_eq netted.indexed.fits]
    exact netted.balanced m
  · have healthy := reached.healthy
    obtain ⟨txn, kind, done, rfl, -⟩ := executed_ok healthy rfl (by rintro c ⟨⟩) executed
    obtain ⟨start, risk, outcome, started, step, -, -, settled, -, commit⟩ :=
      liquidate_ok (healthy.opened seq none) (leaving_eq_ok.1 done)
    have still := liquidationStart_still started
    have matched := step.matched { (healthy.opened seq none).matched with }
    have marked : Marked start := (Follows.ofStep step).marks reached.follows.2
    obtain ⟨-, absorbed, x, s, found, sold, transfers, fills⟩ := liquidate_transfers
      (still.netted netted) (fun x here p held => isSome_markFor matched marked here held) settled
    obtain ⟨tree, rfl⟩ := commit.same
    exact ⟨start, outcome, x, s, started, still.holding, settled, found, sold, transfers, fills,
      absorbed⟩

/-- A long position of ninety units at 100, marked down to 93. -/
def distressRun : List (U64 × Command) :=
  [(1, .createAccount ⟨micros 1000000000⟩), (2, .createAccount ⟨micros 1000000000⟩),
    (3, .createMarket ⟨0, .perpetual, 0, units 100000000⟩),
    (4, .placeOrder (limitOrder 0 0 1 .ask 100000000 90000000)),
    (5, .placeOrder (limitOrder 1 0 2 .bid 100000000 90000000)),
    (6, .setMarkPrice ⟨0, units 93000000⟩)]

theorem openInterest_nets_distressRun : ∃ e e' receipt, Reachable flatHash smallConfig e ∧
    e.risk.holding 1 0 = 90000000 ∧ e.risk.openInterest 0 = 0 ∧
    e.execute 7 (.liquidate ⟨1⟩) = some (.ok receipt, e') ∧
    ∃ start, ∃ outcome : LiquidationOutcome, (e.opened 7 none).liquidationStart ⟨1⟩ = .ok start ∧
      start.risk.Absorbed 1 e'.risk outcome.adlFills := by
  obtain ⟨results, e, -, reached, shown⟩ := exists_run flatHash smallConfig distressRun
    (fun _ e => decide (e.risk.holding 1 0 = 90000000) &&
      (e.execute 7 (.liquidate ⟨1⟩)).any fun r => returned r.1) (by decide +kernel)
  rw [Bool.and_eq_true, decide_eq_true_eq] at shown
  obtain ⟨⟨result, e'⟩, executed, succeeded⟩ := (Option.any_eq_true _ _).1 shown.2
  obtain ⟨receipt, rfl⟩ := returned_eq_true.1 succeeded
  obtain ⟨nets, absorbs⟩ := openInterest_nets reached
  obtain ⟨start, outcome, x, s, started, -, -, -, -, -, -, absorbed⟩ :=
    absorbs 7 ⟨1⟩ receipt e' executed
  exact ⟨e, e', receipt, reached, shown.1, nets 0, executed, start, outcome, started, absorbed⟩

/-! ## The residual -/

/-- A master withdrawal of the residual of a liquidated account, as far as the ledger holds it. -/
structure WithdrawsResidual (e : Engine sha256) (c : Liquidate) (outcome : LiquidationOutcome)
    (w : RequestWithdrawal) : Prop where
  account : w.account = c.account
  master : w.auth = .master
  amount : w.amount.val = min outcome.finalEquity.val (e.ledger.balance w.account .available)
  fresh : ∀ b ∈ commandBinding sha256 (.requestWithdrawal w), e.replay.classify b = .fresh

/-- A withdrawal needs an open account. -/
theorem requestWithdrawal_open {kind : ReceiptKind}
    (done : e.requestWithdrawal w = .ok (e', kind)) :
    ∃ x, e.risk.slot w.account = some x ∧ x.isOpen = true := by
  simp only [requestWithdrawal, bind_eq_ok, liftRisk_eq_ok] at done
  obtain ⟨-, -, -, -, ledger, -, risk, debited, -⟩ := done
  simp only [debitCollateral, bind_eq_ok, active_eq_ok] at debited
  obtain ⟨-, -, x, ⟨found, -, isOpen⟩, -⟩ := debited
  exact ⟨x, found, isOpen⟩

/-- A fresh withdrawal of a closed account fails. -/
theorem execute_requestWithdrawal_closed {x : Account} (healthy : Healthy e)
    (found : e.risk.slot w.account = some x) (closed : x.isOpen = false)
    (fresh : ∀ b ∈ commandBinding sha256 (.requestWithdrawal w), e.replay.classify b = .fresh)
    (seq : U64) : ∃ err, e.execute seq (.requestWithdrawal w) = some (.error err, e) := by
  obtain ⟨result, e', executed, done⟩ := execute_cases healthy seq (.requestWithdrawal w)
  generalize command : Command.requestWithdrawal w = c at done executed
  cases done with
  | rejected err => exact ⟨err, executed⟩
  | replayed later bound recorded =>
    subst command
    simp [fresh _ bound] at recorded
  | executed later unseen ran =>
    subst command
    generalize opened : e.opened seq (commandBinding sha256 (.requestWithdrawal w)) = e₀ at ran
    cases ran with
    | handler done =>
      obtain ⟨y, found', isOpen⟩ := requestWithdrawal_open (leaving_eq_ok.1 done)
      rw [← opened] at found'
      cases found.symm.trans found'
      simp [closed] at isOpen

/-- The residual of a liquidated account cannot be withdrawn, whatever it is. -/
theorem residual_locked (reached : Reachable sha256 config e)
    {receipt : ExecutionReceipt}
    (executed : e.execute seq (.liquidate c) = some (.ok receipt, e')) :
    ∃ outcome, (e.opened seq none).liquidationOutcome c = .ok outcome ∧
      ∀ w, WithdrawsResidual e' c outcome w →
        ∀ next, ∃ err, e'.execute next (.requestWithdrawal w) = some (.error err, e') := by
  have healthy := reached.healthy
  obtain ⟨txn, kind, done, rfl, -⟩ := executed_ok healthy rfl (by rintro c ⟨⟩) executed
  have handled := leaving_eq_ok.1 done
  obtain ⟨x, found, closed⟩ := liquidate_closes (healthy.opened seq none) handled
  simp only [liquidate, bind_eq_ok] at handled
  obtain ⟨-, -, distressed, -, -, -, e₁, released, settled, liquidated, -⟩ := handled
  refine ⟨settled.2, ?_, fun w withdraws next => ?_⟩
  · rw [liquidationOutcome, liquidationStart, released, ok_bind, liquidated]
    rfl
  · rw [← withdraws.account] at found
    exact execute_requestWithdrawal_closed (reached.step executed).healthy found closed
      withdraws.fresh next

/-- The withdrawal of what is left of the long after its liquidation. -/
def residualWithdrawal : RequestWithdrawal := ⟨1, micros 370000000, 1, 0, [], .master⟩

/-- The liquidation leaves a residual that a withdrawal does not get. -/
def residualStays : Option (Outcome flatHash) → Attempt LiquidationOutcome → Bool
  | some (.ok _, e'), .ok outcome =>
    decide (outcome.finalEquity.val = 370000000 ∧ e'.ledger.balance 1 .available = 1000000000 ∧
      ∀ b ∈ commandBinding flatHash (.requestWithdrawal residualWithdrawal),
        e'.replay.classify b = .fresh) &&
    ((e'.execute 8 (.requestWithdrawal residualWithdrawal)).any fun r =>
      decide (r.1 = .error (.risk .accountClosed)))
  | _, _ => false

/-- The long keeps a residual of 370 in a ledger that holds 1000 for it, and cannot withdraw it. -/
theorem residual_lost : ∃ e e' receipt outcome, Reachable flatHash smallConfig e ∧
    e.execute 7 (.liquidate ⟨1⟩) = some (.ok receipt, e') ∧
    (e.opened 7 none).liquidationOutcome ⟨1⟩ = .ok outcome ∧ outcome.finalEquity.val = 370000000 ∧
    WithdrawsResidual e' ⟨1⟩ outcome residualWithdrawal ∧
    ∃ e'', e'.execute 8 (.requestWithdrawal residualWithdrawal) =
      some (.error (.risk .accountClosed), e'') := by
  obtain ⟨results, e, -, reached, shown⟩ := exists_run flatHash smallConfig distressRun
    (fun _ e =>
      residualStays (e.execute 7 (.liquidate ⟨1⟩)) ((e.opened 7 none).liquidationOutcome ⟨1⟩))
    (by decide +kernel)
  unfold residualStays at shown
  split at shown
  · rename_i receipt e' outcome executed settled
    rw [Bool.and_eq_true, decide_eq_true_eq, Option.any_eq_true] at shown
    obtain ⟨⟨residual, available, fresh⟩, ⟨result, e''⟩, next, failed⟩ := shown
    obtain rfl : result = .error (.risk .accountClosed) := of_decide_eq_true failed
    refine ⟨e, e', receipt, outcome, reached, executed, settled, residual,
      ⟨rfl, rfl, ?_, fresh⟩, e'', next⟩
    change 370000000 = min outcome.finalEquity.val (e'.ledger.balance 1 .available)
    rw [residual, available]
    rfl
  · cases shown

theorem residual_locked_distressRun : ∃ e e' receipt, Reachable flatHash smallConfig e ∧
    e.execute 7 (.liquidate ⟨1⟩) = some (.ok receipt, e') ∧
    ∃ outcome, (e.opened 7 none).liquidationOutcome ⟨1⟩ = .ok outcome ∧
      ∀ w, WithdrawsResidual e' ⟨1⟩ outcome w →
        ∀ next, ∃ err, e'.execute next (.requestWithdrawal w) = some (.error err, e') := by
  obtain ⟨results, e, -, reached, shown⟩ := exists_run flatHash smallConfig distressRun
    (fun _ e => (e.execute 7 (.liquidate ⟨1⟩)).any fun r => returned r.1) (by decide +kernel)
  obtain ⟨⟨result, e'⟩, executed, succeeded⟩ := (Option.any_eq_true _ _).1 shown
  obtain ⟨receipt, rfl⟩ := returned_eq_true.1 succeeded
  exact ⟨e, e', receipt, reached, executed, residual_locked reached executed⟩

end Engine

end Dexos.Execution
