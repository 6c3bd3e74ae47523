import Dexos.Execution.Health

/-!
# Accounts, deposits and withdrawals

The handlers that open accounts and move cash across the boundary of the ledger.
-/

namespace Dexos.Execution

open Foundations Clob Risk List RiskEngine Ledger

section Cash

variable {ledger ledger' : Ledger} {withdrawals : OrdMap U64 Withdrawal}
  {locked premium : OrdMap AccountMarket Amount} {a : AccountId} {x : Amount}

theorem Funded.createAccount (funded : Funded ledger withdrawals locked premium)
    (done : ledger.createAccount x = .ok (ledger', a)) :
    Funded ledger' withdrawals locked premium := by
  obtain ⟨positive, next, supply, accounts⟩ := createAccount_ok done
  have purses := createAccount_purse done
  have absent : ledger.purse a = none := by rw [purse, getElem?_eq_none_iff, next]
  have kept : ∀ b p, p ≠ .available → ledger'.balance b p = ledger.balance b p := by
    intro b p other
    rw [balance, balance, purses]
    split_ifs with same
    · rw [same, absent]
      cases p with
      | available => exact absurd rfl other
      | reserved | locked | escrowed => rfl
    · rfl
  refine ⟨fun q listed p => ?_, ?_, fun b => ?_, fun b => ?_, fun b => ?_⟩
  · rw [accounts, mem_append, mem_singleton] at listed
    obtain old | rfl := listed
    · exact funded.nonneg q old p
    · cases p with
      | available => exact positive
      | reserved | locked | escrowed => exact le_rfl
  · have worth : ledger'.worth = ledger.worth + x.val := by
      rw [worth, accounts]
      simp [columnTotal, Purse.worth, worth, I128.zero]
    rw [supply, funded.supply, worth]
  · rw [kept b .reserved (by decide), funded.reserved]
  · rw [kept b .locked (by decide), funded.locked]
  · rw [kept b .escrowed (by decide), funded.escrowed]

end Cash

namespace Engine

variable {sha256 : Sha256} {e e' : Engine sha256} {kind : ReceiptKind}
  {account : AccountId}
  {sessions : SessionRegistry}
  {ledger : Ledger}
  {command : Command}

/-! ## Handlers -/

theorem createAccount_handled {c : CreateAccount} (healthy : Healthy e)
    (done : e.createAccount c = .ok (e', kind)) : Handled (.createAccount c) e e' := by
  simp only [createAccount, ok_iff, liftRisk_eq_ok] at done
  obtain ⟨⟨ledger, id⟩, created, risk, opened, e₂, committed, rfl, rfl⟩ := done
  obtain ⟨-, next, supply, accounts⟩ := createAccount_ok created
  have purses := createAccount_purse created
  have aligned := healthy.matched.aligned
  have next' : id.val = e.risk.accounts.length := next.trans aligned.size.symm
  obtain ⟨-, size, slots, -, -⟩ := openAccount_ok opened next'
  obtain ⟨sound, reserved⟩ := aligned.sound.openAccount opened next'
  have commit := Recommits.ofAccount committed
  refine Handled.ofCommit (T := (· = id)) (N := fun _ => False) commit ⟨?_, healthy.backed,
    { healthy.shaped with }, ⟨fun a inside => ?_, healthy.rooted.markets⟩⟩
    ⟨fun _ => .single (.opened opened), fun marked m info found =>
      (openAccount_markFor opened m).trans (marked m info found)⟩ rfl rfl rfl supply rfl
    (by rintro k ⟨⟩) (fun a other => ?_) (fun m _ => rfl)
    (by rintro a ⟨⟩) (fun a h => h) fun m h => h
  · exact { healthy.matched with
      reserved := fun a => (reserved a).trans (healthy.matched.reserved a)
      funded := healthy.matched.funded.createAccount created
      aligned := ⟨by rw [size, aligned.size, accounts, length_append, length_singleton], sound⟩ }
  · rw [accounts, length_append, length_singleton] at inside
    by_cases old : a.val < e.ledger.accounts.length
    · exact healthy.rooted.accounts a old
    · have same : a = id := Fin.ext (by omega)
      exact commit.inside a same
  · exact accountLeaf_congr (by rw [purses, if_neg other]) (slots a other) (fun _ => rfl)
      (fun _ => rfl) (fun _ _ => rfl) fun _ => rfl

/-- A handler that changes nothing that is committed. -/
theorem Handled.ofSame (healthy : Healthy e') (risk : e'.risk = e.risk)
    (known : e'.markets = e.markets) (tree : e'.tree = e.tree)
    (replay : e'.replay = e.replay) (lastSeq : e'.lastSeq = e.lastSeq)
    (supply : e'.ledger.totalSupply.val = e.ledger.totalSupply.val + e.inflow command)
    (deposits : e'.depositsSeen = e.depositsSeen) (event : creditedEvent command = none)
    (accounts : ∀ a, e'.accountLeaf a = e.accountLeaf a)
    (markets : ∀ m, e'.marketLeaf m = e.marketLeaf m) (free : principal command = none) :
    Handled command e e' := by
  exact Handled.ofCommit (T := fun _ => False) (N := fun _ => False) (Recommits.refl e') healthy
    (Follows.ofTrades (risk ▸ .refl) fun m info found => ⟨info, known ▸ found, rfl⟩) tree
      replay lastSeq supply
    (by simp [event, deposits]) (by simp [event]) (fun a _ => accounts a) (fun m _ => markets m)
    (by simp [free]) (fun a h => h) fun m h => h

theorem bindWallet_handled {c : BindWallet} (healthy : Healthy e)
    (done : e.bindWallet c = .ok (e', kind)) : Handled (.bindWallet c) e e' := by
  simp only [bindWallet, ok_iff] at done
  obtain ⟨-, -, rfl, rfl⟩ := done
  refine Handled.ofSame ⟨{ healthy.matched with }, healthy.backed, { healthy.shaped with },
    { healthy.rooted with }⟩ rfl rfl rfl rfl rfl (add_zero _).symm rfl rfl
      (fun _ => rfl) (fun _ => rfl)
    rfl

theorem protocolUpgrade_handled {c : ProtocolUpgrade} (healthy : Healthy e)
    (done : e.protocolUpgrade c = .ok (e', kind)) : Handled (.protocolUpgrade c) e e' := by
  simp only [protocolUpgrade, ok_iff] at done
  obtain ⟨-, -, rfl, rfl⟩ := done
  refine Handled.ofSame ⟨{ healthy.matched with }, healthy.backed, { healthy.shaped with },
    { healthy.rooted with }⟩ rfl rfl rfl rfl rfl (add_zero _).symm rfl rfl
      (fun _ => rfl) (fun _ => rfl)
    rfl

theorem Handled.ofCash {risk : RiskEngine}
    {withdrawals : OrdMap U64 Withdrawal} {deposits : List DepositKey}
    {claims : OrdMap AccountMarket (List Amount)} {locked : OrdMap AccountMarket Amount}
    {delta : AccountId → Partition → Int} {gain : Int} (healthy : Healthy e)
    (moved : e.ledger.Moved ledger delta gain (· = account))
    (risked : e.risk.Moved e.known risk (fun _ => 0) (· = account)) (trades : e.risk.Trades risk)
    (funded : Funded ledger withdrawals locked e.bidPremiumEscrow)
    (sets : ∀ a, a ≠ account → ∀ m, claims.get? ⟨a, m⟩ = e.claims.get? ⟨a, m⟩)
    (conserved : Conserved noGap e.markets claims e.askClaimsEscrow locked)
    (committed : Engine.commitAccount { e with
      ledger := ledger, risk := risk, sessions := sessions, withdrawals := withdrawals
      depositsSeen := deposits, claims := claims, mintLocked := locked } account = .ok e')
    (supply : ledger.totalSupply.val = e.ledger.totalSupply.val + e.inflow command)
    (seen : deposits = (creditedEvent command).toList ++ e.depositsSeen)
    (unseen : ∀ k ∈ creditedEvent command, k ∉ e.depositsSeen)
    (bound : ∀ a, principal command = some a → a = account) : Handled command e e' := by
  refine Handled.ofCommit (T := (· = account)) (N := fun _ => False) (Recommits.ofAccount committed)
    ⟨?_, healthy.backed, { healthy.shaped with }, ⟨fun a inside => ?_, healthy.rooted.markets⟩⟩
    (Follows.ofTrades trades fun m info found => ⟨info, found, rfl⟩) rfl rfl rfl supply seen unseen
      (fun a other => ?_)
    (fun m _ => rfl) bound (fun a h => h) fun m h => h
  · exact { healthy.matched with
      reserved := healthy.matched.reserved.move risked fun _ => (add_zero _).symm
      funded := funded
      conserved := conserved
      aligned := (healthy.matched.aligned.moveRisk risked).moveLedger moved.size }
  · exact healthy.rooted.accounts a (moved.size ▸ inside)
  · exact accountLeaf_congr (moved.others a other) (risked.others a other) (sets a other)
      (fun _ => rfl) (fun _ _ => rfl) fun _ => rfl

theorem risk_unmoved (e : Engine sha256) (account : AccountId) :
    e.risk.Moved e.known e.risk (fun _ => 0) (· = account) :=
  (Moved.refl e.risk).restate (fun _ => rfl) fun _ h => h.elim

variable (healthy : Healthy e)
include healthy

/-- A change of the sessions of an account, under a new epoch. -/
theorem Handled.ofBump
    (bumped : e.ledger.bumpAuthEpoch account = .ok ledger)
    (committed : Engine.commitAccount { e with ledger := ledger, sessions := sessions }
      account = .ok e')
    (inner : e.inflow command = 0) (event : creditedEvent command = none)
    (free : principal command = none) : Handled command e e' := by
  obtain ⟨moved, supply⟩ := bumpAuthEpoch_ok bumped
  have funded := healthy.matched.funded.move moved (by rw [supply, add_zero])
    (fun _ => (add_zero _).symm) (fun _ => (add_zero _).symm) fun _ => (add_zero _).symm
  exact Handled.ofCash healthy moved (risk_unmoved e account) .refl funded (fun _ _ _ => rfl)
    healthy.matched.conserved committed (by rw [supply, inner, add_zero]) (by simp [event])
    (by simp [event]) (by simp [free])

theorem authorizeSession_handled {c : AuthorizeSession}
    (done : e.authorizeSession c = .ok (e', kind)) : Handled (.authorizeSession c) e e' := by
  simp only [authorizeSession, ok_iff] at done
  obtain ⟨sessions, -, ledger, bumped, e₂, committed, rfl, rfl⟩ := done
  exact .ofBump healthy bumped committed rfl rfl rfl

theorem revokeSession_handled {c : RevokeSession} (done : e.revokeSession c = .ok (e', kind)) :
    Handled (.revokeSession c) e e' := by
  simp only [revokeSession, ok_iff] at done
  obtain ⟨ledger, bumped, e₂, committed, rfl, rfl⟩ := done
  exact .ofBump healthy bumped committed rfl rfl rfl

theorem depositCredit_handled {c : DepositCredit} (done : e.depositCredit c = .ok (e', kind)) :
    Handled (.depositCredit c) e e' := by
  simp only [depositCredit, ok_iff, liftRisk_eq_ok] at done
  obtain ⟨-, unseen, ledger, credited, risk, gained, e₂, committed, rfl, rfl⟩ := done
  obtain ⟨moved, supply, -⟩ := credit_ok credited
  obtain ⟨risked, -⟩ := creditCollateral_ok (K := e.known) gained
  have funded : Funded ledger e.withdrawals e.mintLocked e.bidPremiumEscrow := by
    refine healthy.matched.funded.move moved supply (fun a => ?_) (fun a => ?_) fun a => ?_
    · simp [entryAt]
    · simp [entryAt]
    · simp [entryAt]
  exact Handled.ofCash healthy moved risked (.single (.credit gained)) funded (fun _ _ _ => rfl)
    healthy.matched.conserved committed supply rfl (by rintro k ⟨⟩; exact unseen) (by rintro a ⟨⟩)

theorem requestWithdrawal_handled {c : RequestWithdrawal}
    (done : e.requestWithdrawal c = .ok (e', kind)) : Handled (.requestWithdrawal c) e e' := by
  simp only [requestWithdrawal, ok_iff, liftRisk_eq_ok] at done
  obtain ⟨-, -, -, fresh, ledger, reserved, risk, debited, e₂, committed, rfl, rfl⟩ := done
  obtain ⟨moved, supply, -, -⟩ := shift_ok reserved
  obtain ⟨risked, -⟩ := debitCollateral_ok (K := e.known) debited
  have absent := OrdMap.contains_eq_false.1 fresh
  have funded : Funded ledger (e.withdrawals.insert (deriveWithdrawalId sha256 c.account c.nonce)
      ⟨c.account, c.amount, false⟩) e.mintLocked e.bidPremiumEscrow := by
    refine healthy.matched.funded.move moved (by rw [supply, add_zero]) (fun a => ?_) (fun a => ?_)
      fun a => ?_
    · rw [OrdMap.total_insert, absent]
      simp [entryAt, pendingAt, eq_comm]
    · simp [entryAt]
    · simp [entryAt]
  refine Handled.ofCash healthy moved risked (.single (.debit debited)) funded (fun _ _ _ => rfl)
    healthy.matched.conserved committed ?_ rfl (by rintro k ⟨⟩) ?_
  · rw [supply]
    exact (add_zero _).symm
  · rintro a ⟨⟩
    rfl

theorem finalizeWithdrawal_handled {c : FinalizeWithdrawal}
    (done : e.finalizeWithdrawal c = .ok (e', kind)) : Handled (.finalizeWithdrawal c) e e' := by
  simp only [finalizeWithdrawal, ok_iff] at done
  obtain ⟨w, found, -, pending, ledger, settled, e₂, committed, rfl, rfl⟩ := done
  obtain ⟨moved, supply, -⟩ := settleWithdrawal_ok settled
  have funded : Funded ledger (e.withdrawals.insert c.withdrawalId { w with finalized := true })
      e.mintLocked e.bidPremiumEscrow := by
    refine healthy.matched.funded.move moved (by rw [supply]; ring) (fun a => ?_) (fun a => ?_)
      fun a => ?_
    · rw [OrdMap.total_insert, found, weightOf_some]
      simp only [pendingAt, entryAt, pending, and_true, Bool.true_eq_false, and_false, if_false,
        add_zero, eq_comm (a := a)]
      split_ifs <;> ring
    · simp [entryAt]
    · simp [entryAt]
  refine Handled.ofCash healthy moved (risk_unmoved e w.account) .refl funded (fun _ _ _ => rfl)
    healthy.matched.conserved committed ?_ rfl (by rintro k ⟨⟩) (by rintro a ⟨⟩)
  rw [supply, inflow, found, weightOf_some]
  ring

end Engine

end Dexos.Execution
