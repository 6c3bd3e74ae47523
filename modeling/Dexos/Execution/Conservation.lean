import Dexos.Execution.Runs

/-!
# Conservation

What the relations between the subsystems say of every reachable state: where the cash is, what
stands behind a resting order, how many claims there are, and what the tree commits to.
-/

namespace Dexos.Execution

open Foundations Clob Risk List

namespace Engine

variable {sha256 : Sha256} {config : EngineConfig} {e e' : Engine sha256} {seq : U64}
  {command : Command} {result : Except ExecutionError ExecutionReceipt}
  {receipt : ExecutionReceipt}

/-! ## Cash -/

/-- What the successful commands of a run brought in: the initial collateral of created accounts
and the credited deposits, less the finalized withdrawals. -/
def netInflow (e : Engine sha256) : List (U64 × Command) → Int
  | [] => 0
  | (seq, command) :: rest =>
    match e.execute seq command with
    | some (.ok _, e') => e.inflow command + e'.netInflow rest
    | some (.error _, e') => e'.netInflow rest
    | none => 0

/-- The deposit events that the successful commands of a run credited, the last one first. -/
def creditedEvents (commands : List (U64 × Command))
    (results : List (Except ExecutionError ExecutionReceipt)) : List DepositKey :=
  ((succeeding commands results).filterMap fun x => creditedEvent x.2).reverse

theorem succeeding_cons (x : U64 × Command) (commands : List (U64 × Command))
    (results : List (Except ExecutionError ExecutionReceipt)) :
    succeeding (x :: commands) (result :: results) =
      if returned result then x ::
        succeeding commands results else succeeding commands results := by
  rw [succeeding, zip_cons_cons, filterMap_cons]
  cases returned result <;> rfl

theorem inflow_of_bound {b : KeyBinding} (bound : commandBinding sha256 command = some b) :
    e.inflow command = 0 ∧ creditedEvent command = none := by
  cases command with
  | placeOrder c => exact ⟨rfl, rfl⟩
  | requestWithdrawal c => exact ⟨rfl, rfl⟩
  | _ => cases bound

/-- A successful command moves the supply by its inflow and lists its deposit event. -/
theorem Executes.cash (healthy : Healthy e) (done : Executes e seq command (.ok receipt) e') :
    e'.ledger.totalSupply.val = e.ledger.totalSupply.val + e.inflow command ∧
      e'.depositsSeen = (creditedEvent command).toList ++ e.depositsSeen ∧
      ∀ k ∈ creditedEvent command, k ∉ e.depositsSeen := by
  cases done with
  | replayed later bound recorded =>
    obtain ⟨nothing, none⟩ := inflow_of_bound (e := e) bound
    rw [nothing, none, add_zero]
    exact ⟨rfl, rfl, by rintro k ⟨⟩⟩
  | executed later fresh ran =>
    have handled := ran.handled (healthy.opened seq _)
    exact ⟨handled.supply, handled.deposits, handled.unseen⟩

theorem run_cash {commands : List (U64 × Command)} {last : Engine sha256}
    {results : List (Except ExecutionError ExecutionReceipt)} (healthy : Healthy e)
    (ran : e.run commands = some (results, last)) : Healthy last ∧
      last.ledger.totalSupply.val = e.ledger.totalSupply.val + e.netInflow commands ∧
      last.depositsSeen = creditedEvents commands results ++ e.depositsSeen ∧
      (e.depositsSeen.Nodup → last.depositsSeen.Nodup) := by
  induction commands generalizing e results with
  | nil =>
    cases ran
    exact ⟨healthy, (add_zero _).symm, rfl, id⟩
  | cons x rest ih =>
    obtain ⟨seq, command⟩ := x
    obtain ⟨result, e', results', executed, ran', rfl⟩ := run_cons.1 ran
    have done := executes healthy executed
    obtain ⟨whole, supply, seen, distinct⟩ := ih (done.healthy healthy) ran'
    rw [netInflow, executed, creditedEvents, succeeding_cons]
    cases result with
    | error err =>
      cases done
      exact ⟨whole, supply, seen, distinct⟩
    | ok receipt =>
      obtain ⟨cash, deposits, unseen⟩ := done.cash healthy
      refine ⟨whole, ?_, ?_, fun before => distinct ?_⟩
      · rw [supply, cash, add_assoc]
      · rw [seen, deposits, creditedEvents, returned, if_pos rfl, filterMap_cons]
        cases creditedEvent command with
        | none => rfl
        | some k => simp
      · rw [deposits]
        cases event : creditedEvent command with
        | none => exact before
        | some k => exact nodup_cons.2 ⟨unseen k event, before⟩

/-- Cash is conserved along every run. -/
theorem cash_conserved (config : EngineConfig) (commands : List (U64 × Command))
    (results : List (Except ExecutionError ExecutionReceipt)) (e : Engine sha256)
    (ran : (Engine.new sha256 config).run commands = some (results, e)) :
    e.ledger.totalSupply.val = e.ledger.worth ∧ (∀ a p, 0 ≤ e.ledger.balance a p) ∧
      e.ledger.totalSupply.val = (Engine.new sha256 config).netInflow commands ∧
      (∀ a, e.ledger.balance a .reserved = e.withdrawals.total fun _ w =>
        if w.account = a ∧ w.finalized = false then w.amount.val else 0) ∧
      (∀ a, e.ledger.balance a .locked = e.mintLocked.total fun k x =>
        if k.account = a then x.val else 0) ∧
      (∀ a, e.ledger.balance a .escrowed = e.bidPremiumEscrow.total fun k x =>
        if k.account = a then x.val else 0) ∧ (creditedEvents commands results).Nodup := by
  obtain ⟨healthy, supply, seen, distinct⟩ := run_cash (new_healthy sha256 config) ran
  have funded := healthy.matched.funded
  refine ⟨funded.supply, fun a p => Ledger.balance_nonneg funded.nonneg a p,
    supply.trans (zero_add _), funded.reserved, funded.locked, funded.escrowed, ?_⟩
  have nodup := distinct nodup_nil
  rw [seen] at nodup
  exact (nodup_append.1 nodup).1

theorem cash_conserved_smallRun : ∃ results e,
    (Engine.new flatHash smallConfig).run smallRun = some (results, e) ∧
      e.ledger.totalSupply.val = 2000000000 ∧ e.ledger.worth = 2000000000 ∧
      (Engine.new flatHash smallConfig).netInflow smallRun = 2000000000 ∧
      e.ledger.balance 0 .locked = 50000000 ∧ ∀ a p, 0 ≤ e.ledger.balance a p := by
  obtain ⟨results, e, ran, -, -, ⟨supply, locked⟩, -⟩ := exists_smallRun
  obtain ⟨worth, nonneg, inflow, -⟩ := cash_conserved smallConfig smallRun results e ran
  exact ⟨results, e, ran, supply, worth ▸ supply, inflow ▸ supply, locked, nonneg⟩

/-! ## Backing -/

/-- Every resting order is backed exactly, nothing else is, and the aggregates are sums. -/
theorem resting_backed (reached : Reachable sha256 config e) :
    (∀ k o, e.resting k = some o → ∃ info, e.markets.get? k.market = some info ∧
      if isClaimMarket info.marketType then
        e.orderReserves.get? k = none ∧ ∃ r, e.claimEscrows.get? k = some r ∧
          r.account = o.account ∧ r.side = o.side ∧
          (o.side = .ask → r.claims.val = o.remaining.val ∧ r.premium.val = 0) ∧
          (o.side = .bid → r.claims.val = 0 ∧
            (Price.notional o.price o.remaining).val ≤ r.premium.val)
      else e.claimEscrows.get? k = none ∧ (e.orderReserves.get? k =
            some ⟨o.account, Price.notional o.price o.remaining, o.remaining⟩ ∨
          e.orderReserves.get? k = none ∧ (Price.notional o.price o.remaining).val = 0)) ∧
      (∀ k, e.resting k = none → e.orderReserves.get? k = none ∧ e.claimEscrows.get? k = none) ∧
      (∀ a, e.risk.reserved a = e.orderReserves.total fun _ r =>
        if r.account = a then r.reserved.val else 0) ∧
      (∀ k, entryOf e.bidPremiumEscrow k = e.claimEscrows.total fun j r =>
        if k = ⟨r.account, j.market⟩ then r.premium.val else 0) ∧
      (∀ k, entryOf e.askClaimsEscrow k = e.claimEscrows.total fun j r =>
        if k = ⟨r.account, j.market, j.instrument⟩ then r.claims.val else 0) ∧
      AllPositive e.bidPremiumEscrow ∧ AllPositive e.askClaimsEscrow := by
  have healthy := reached.healthy
  have columns := healthy.matched.columns
  refine ⟨fun k o rests => ?_, fun k none => ?_, healthy.matched.reserved, columns.premiums,
    columns.asked, columns.premiumPositive, columns.asksPositive⟩
  · have backing := healthy.backed k
    rw [rests] at backing
    obtain ⟨-, -, info, found, backing⟩ := backing
    refine ⟨info, found, ?_⟩
    split_ifs at backing ⊢ with claim
    · obtain ⟨bare, r, record, account, side, ask, bid⟩ := backing
      refine ⟨bare, r, record, account, side, fun here => ?_, fun here => ?_⟩
      · obtain ⟨claims, premium⟩ := ask here
        rw [claims, premium]
        exact ⟨Amount.fromQuantity_val _, rfl⟩
      · obtain ⟨claims, premium⟩ := bid here
        rw [claims]
        exact ⟨rfl, premium⟩
    · obtain ⟨bare, recorded | ⟨absent, nothing⟩⟩ := backing
      · exact ⟨bare, .inl recorded⟩
      · refine ⟨bare, .inr ⟨absent, ?_⟩⟩
        rw [nothing]
        rfl
  · have backing := healthy.backed k
    rwa [none] at backing

theorem resting_backed_smallRun : ∃ results e,
    (Engine.new flatHash smallConfig).run smallRun = some (results, e) ∧
      (e.resting ⟨0, 0, 1⟩).isSome = true ∧ (e.resting ⟨1, 0, 4⟩).isSome = true ∧
      AllPositive e.askClaimsEscrow ∧
      ∀ k, e.resting k = none → e.orderReserves.get? k = none ∧ e.claimEscrows.get? k = none := by
  obtain ⟨results, e, ran, reached, -, -, ⟨perp, claim⟩, -⟩ := exists_smallRun
  obtain ⟨-, bare, -, -, -, -, asks⟩ := resting_backed reached
  exact ⟨results, e, ran, perp, claim, asks, bare⟩

/-! ## Claims -/

theorem executed_ok (healthy : Healthy e)
    (unbound : commandBinding sha256 command = none) (plain : ∀ c, command ≠ .placeOrder c)
    (executed : e.execute seq command = some (.ok receipt, e')) :
    ∃ txn kind, (e.opened seq none).apply command = .ok (txn, kind) ∧ e' = txn ∧
      receipt = txn.receipt seq kind := by
  have done := executes healthy executed
  generalize outcome : Except.ok receipt = result at done
  cases done with
  | rejected err => cases outcome
  | replayed later bound recorded => simp [unbound] at bound
  | executed later fresh ran =>
    rw [unbound] at ran
    cases outcome
    generalize opened : e.opened seq none = e₀ at ran
    cases ran with
    | handler done =>
      refine ⟨_, _, opened ▸ done, ?_, rfl⟩
      rw [unbound]
      rfl
    | inPlace done => exact absurd rfl (plain _)

/-- Claims are conserved, and a settlement pays out exactly the collateral that was locked. -/
theorem claims_conserved (reached : Reachable sha256 config e) :
    (∀ m info, e.markets.get? m = some info → isClaimMarket info.marketType = true →
      ∀ i : U16, i < info.count → (e.claims.total fun k v => if k.market = m then held v i else 0) +
          (e.askClaimsEscrow.total fun k x =>
            if k.market = m ∧ k.instrument = i then x.val else 0) =
          e.mintLocked.total fun k x => if k.market = m then x.val else 0) ∧
      (∀ k v, e.claims.get? k = some v → ∀ x ∈ v, 0 ≤ x.val) ∧
      ∀ seq c receipt e', e.execute seq (.settleMarket c) = some (.ok receipt, e') →
        ∃ info winner paid, e.markets.get? c.market = some info ∧
          info.winningOutcome = some winner ∧ receipt.kind = .marketSettled c.market paid ∧
          paid.val = (e.mintLocked.total fun k x => if k.market = c.market then x.val else 0) ∧
          ∀ a, e'.ledger.balance a .available = e.ledger.balance a .available +
            weightOf (held · winner) (e.claims.get? ⟨a, c.market⟩) := by
  have healthy := reached.healthy
  have conserved := healthy.matched.conserved
  refine ⟨fun m info found claim i below => ?_, fun k v stored => ?_,
    fun seq c receipt e' executed => ?_⟩
  · have sum := conserved.conserved m info ⟨found, claim⟩ i below
    rwa [noGap, add_zero] at sum
  · obtain ⟨-, -, -, nonneg⟩ := conserved.sets k v stored
    exact nonneg
  · obtain ⟨txn, kind, done, rfl, rfl⟩ := executed_ok healthy rfl (by rintro c ⟨⟩) executed
    obtain ⟨info, winner, books, s, found, -, -, won, -, settled, commit, rfl⟩ :=
      settleMarket_ok (healthy.opened seq none) (leaving_eq_ok.1 done)
    refine ⟨info, winner, s.paid, found, won, rfl, settled.paid, fun a => ?_⟩
    obtain ⟨tree, rfl⟩ := commit.same
    exact settled.available a

theorem claims_conserved_smallRun : ∃ results e,
    (Engine.new flatHash smallConfig).run smallRun = some (results, e) ∧
      (e.mintLocked.total fun k x => if k.market = 1 then x.val else 0) = 50000000 ∧
      ∀ k v, e.claims.get? k = some v → ∀ x ∈ v, 0 ≤ x.val := by
  obtain ⟨results, e, ran, reached, -, -, -, shown⟩ := exists_smallRun
  exact ⟨results, e, ran, shown, (claims_conserved reached).2.1⟩

end Engine

end Dexos.Execution
