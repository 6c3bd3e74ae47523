import Dexos.Execution.Sidecars

/-!
# What happens to escrows

A resting claim order moves its premium or its claims into escrow and gets them back when it
leaves the book. A fill moves them to the counterparty.
-/

namespace Dexos.Execution

open Foundations Clob Risk OrdMap Scalar Ledger

/-! ## Moves of cash -/

section Cash

variable {ledger ledger' : Ledger} {withdrawals : OrdMap U64 Withdrawal}
  {locked premium premium' : OrdMap AccountMarket Amount} {a b : AccountId} {m : MarketId}
  {x : Amount}

variable (funded : Funded ledger withdrawals locked premium)
include funded

theorem Funded.escrow
    (done : ledger.escrow a x = .ok ledger') (raised : Raised premium premium' ⟨a, m⟩ x.val) :
    Funded ledger' withdrawals locked premium' := by
  obtain ⟨moved, supply, -, -⟩ := shift_ok done
  apply funded.shift moved supply (Raised.refl locked ⟨a, m⟩) raised <;> simp [entryAt]

theorem Funded.releaseEscrow
    (done : ledger.releaseEscrow a x = .ok ledger')
    (raised : Raised premium premium' ⟨a, m⟩ (-x.val)) :
    Funded ledger' withdrawals locked premium' := by
  obtain ⟨moved, supply, -, -⟩ := shift_ok done
  apply funded.shift moved supply (Raised.refl locked ⟨a, m⟩) raised <;> simp [entryAt]

theorem Funded.settleEscrow
    (done : ledger.settleEscrow a b x = .ok ledger')
    (raised : Raised premium premium' ⟨a, m⟩ (-x.val)) :
    Funded ledger' withdrawals locked premium' := by
  obtain ⟨moved, supply, -⟩ := pay_ok done
  apply funded.shift moved supply (Raised.refl locked ⟨a, m⟩) raised <;> simp [entryAt]

theorem Funded.transferAvailable (done : ledger.transferAvailable a b x = .ok ledger') :
    Funded ledger' withdrawals locked premium := by
  obtain ⟨moved, supply, -⟩ := pay_ok done
  apply funded.shift moved supply (Raised.refl locked ⟨a, 0⟩) (Raised.refl premium ⟨a, 0⟩) <;>
    simp [entryAt]

end Cash

/-! ## Moves of claims -/

namespace Engine

variable {sha256 : Sha256} {e e' : Engine sha256} {k : OrderKey}
  {account a : AccountId} {m : MarketId} {i : U16} {info : MarketMeta} {asks : OrdMap AskKey Amount}
  {locked : OrdMap AccountMarket Amount} {gap : MarketId → U16 → Int} {x : Amount}
  {r : ClaimOrderEscrow} {premium : Amount} {nonneg : Prop} {S : AccountId → Prop} {fair : Prop}

/-- The claims of an account in one outcome change, under a condition on the amount. -/
def ClaimsMove (a : AccountId) (m : MarketId) (i : U16) (info : MarketMeta) (fair : Prop) (d : Int)
    (e e' : Engine sha256) : Prop :=
  ∃ claims, e' = { e with claims := claims } ∧ (∀ j, j ≠ ⟨a, m⟩ → claims.get? j = e.claims.get? j) ∧
    ∀ gap asks locked, Conserved gap e.markets e.claims asks locked →
      ClaimMarketOf e.markets m info → fair → i < info.count ∧
      ∀ gap', (∀ n j, gap' n j = gap n j + if n = m ∧ j = i then d else 0) →
        Conserved gap' e.markets claims asks locked

theorem ClaimsMove.of {old new : Amount} {d : Int}
    (stored : (e.claimEntry a m info.count.val)[i.val]? = some old) (change : d = new.val - old.val)
    (nonneg : fair → 0 ≤ old.val → 0 ≤ new.val) : ClaimsMove a m i info fair d e
      { e with
        claims := e.claims.insert ⟨a, m⟩ ((e.claimEntry a m info.count.val).set i.val new) } := by
  refine ⟨_, rfl, fun j other => get?_insert_ne _ _ other,
    fun gap asks locked conserved market given => ?_⟩
  obtain ⟨length, positive, shown⟩ := conserved.claimEntry market a
  have inside := (List.getElem?_eq_some_iff.1 stored).1
  rw [length] at inside
  refine ⟨inside, fun gap' gaps => ?_⟩
  refine conserved.setClaims market (List.length_set.trans length) (fun x listed => ?_)
    (fun j _ => ?_) fun n j other => ?_
  · obtain before | rfl := List.mem_or_eq_of_mem_set listed
    · exact positive x before
    · exact nonneg given (positive old (List.mem_of_getElem? stored))
  · rw [gaps, held_set stored, shown, add_sub_cancel_left, change]
    simp only [true_and]
  · rw [gaps, if_neg fun h => other h.1, add_zero]

/-- Claims that go to an account from escrow, or from it into escrow. -/
theorem ClaimsMove.against {d : Int} {asks' : OrdMap AskKey Amount} {b : AccountId}
    (moved : ClaimsMove a m i info fair d e e')
    (conserved : Conserved noGap e.markets e.claims asks locked)
    (market : ClaimMarketOf e.markets m info) (given : fair)
    (raised : Raised asks asks' ⟨b, m, i⟩ (-d)) :
    Conserved noGap e.markets e'.claims asks' locked := by
  obtain ⟨claims, rfl, -, balance⟩ := moved
  obtain ⟨below, written⟩ := balance noGap asks locked conserved market given
  refine (written (fun n j => if n = m ∧ j = i then d else 0) fun n j => ?_).raiseAsks
    (k := ⟨b, m, i⟩) market below raised fun n j => ?_
  · rw [noGap, zero_add]
  · rw [noGap]
    split_ifs <;> ring

theorem creditClaims_ok (done : e.creditClaims a m i info.count x = .ok e') :
    ClaimsMove a m i info (0 ≤ x.val) x.val e e' := by
  simp only [creditClaims, ok_iff, liftArith_eq_ok, checkedAdd_eq_ok] at done
  obtain ⟨old, stored, new, sum, rfl⟩ := done
  exact .of stored (by omega) (by omega)

theorem debitClaims_ok (done : e.debitClaims a m i info.count x = .ok e') :
    ClaimsMove a m i info True (-x.val) e e' := by
  simp only [debitClaims, ok_iff, liftArith_eq_ok, checkedSub_eq_ok] at done
  obtain ⟨old, stored, -, covered, new, difference, rfl⟩ := done
  exact .of stored (by omega) (by omega)

theorem claimEntry_of_found {v : List Amount}
    (conserved : Conserved gap e.markets e.claims asks locked)
    (found : e.claims.get? ⟨a, m⟩ = some v) :
    ∃ info, ClaimMarketOf e.markets m info ∧ e.claimEntry a m info.count.val = v := by
  obtain ⟨info, market, length, -⟩ := conserved.sets _ v found
  refine ⟨info, market, ?_⟩
  rw [claimEntry, found, Option.getD_some, length, Nat.sub_self, List.replicate_zero,
    List.append_nil]

/-! ## Putting into escrow -/

theorem ne_of_pos (positive : 0 < x.val) : x ≠ I128.zero := by
  rintro rfl
  exact absurd positive (lt_irrefl _)

/-- A change of the premium column at a key, with the cash and the collateral that go along. -/
def PremiumChange (S : AccountId → Prop) (k : AccountMarket) (nonneg : Prop) (x : Int)
    (e e' : Engine sha256) : Prop :=
  ∃ ledger risk column, e' = { e with ledger := ledger, risk := risk, bidPremiumEscrow := column } ∧
    Touches S e e' ∧ (nonneg → Raised e.bidPremiumEscrow column k x) ∧
    (AllPositive e.bidPremiumEscrow → AllPositive column) ∧
    (Matched e → Reserved e.orderReserves risk ∧ Aligned ledger risk e.markets ∧
      Funded ledger e.withdrawals e.mintLocked column) ∧ e.risk.Trades risk

theorem PremiumChange.none {k : AccountMarket} {x : Int} (zero : nonneg → x = 0) :
    PremiumChange S k nonneg x e e :=
  ⟨e.ledger, e.risk, e.bidPremiumEscrow, rfl, Touches.refl _ e, fun h => Raised.zero _ _ (zero h),
    id, fun matched => ⟨matched.reserved, matched.aligned, matched.funded⟩, .refl⟩

theorem PremiumChange.of {x : Int} {ledger : Ledger}
    {risk : RiskEngine} {column : OrdMap AccountMarket Amount} {delta : AccountId → Partition → Int}
    (mine : S account) (paid : e.ledger.Moved ledger delta 0 (· = account))
    (supply : ledger.totalSupply = e.ledger.totalSupply)
    (moved : e.risk.Moved e.known risk (fun _ => 0) (· = account))
    (raised : Raised e.bidPremiumEscrow column ⟨account, m⟩ x)
    (positive : AllPositive e.bidPremiumEscrow → AllPositive column)
    (funded : Matched e → Funded ledger e.withdrawals e.mintLocked column)
    (trades : e.risk.Trades risk) : PremiumChange S ⟨account, m⟩ nonneg x e
      { e with ledger := ledger, risk := risk, bidPremiumEscrow := column } := by
  have others : ∀ b, ¬ S b → b ≠ account := fun b other same => other (same ▸ mine)
  refine ⟨ledger, risk, column, rfl, ?_, fun _ => raised, positive, fun matched => ?_, trades⟩
  · exact { Touches.refl S e with
      supply := supply
      allocated := paid.size
      status := moved.status
      purse := fun b other => paid.others b (others b other)
      slot := fun b other => moved.others b (others b other)
      premium := fun b other n => raised.others _ fun same =>
        others b other (congrArg AccountMarket.account same) }
  · exact ⟨matched.reserved.move moved fun _ => (add_zero _).symm,
      (matched.aligned.moveRisk moved).moveLedger paid.size, funded matched⟩

theorem escrowPremium_ok (done : e.escrowPremium account m premium = .ok e') :
    PremiumChange (· = account) ⟨account, m⟩ (0 ≤ premium.val) premium.val e e' := by
  rw [escrowPremium] at done
  split_ifs at done with some
  · simp only [ok_iff, liftRisk_eq_ok] at done
    obtain ⟨ledger, escrowed, risk, debited, column, added, rfl⟩ := done
    obtain ⟨nonneg, raised, positive⟩ := columnAdd_ok added
    obtain ⟨moved, -⟩ := RiskEngine.debitCollateral_ok (K := e.known) debited
    obtain ⟨paid, supply, -, -⟩ := shift_ok escrowed
    exact .of rfl paid supply moved raised positive
      (fun matched => matched.funded.escrow escrowed raised) (.single (.debit debited))
  · cases done
    exact .none (by omega)

theorem escrowClaims_ok {need : Amount} (positive : 0 < need.val)
    (done : e.escrowClaims account m i need = .ok e') :
    ∃ claims column, e' = { e with claims := claims, askClaimsEscrow := column } ∧
      Touches (· = account) e e' ∧ Raised e.askClaimsEscrow column ⟨account, m, i⟩ need.val ∧
      (AllPositive e.askClaimsEscrow → AllPositive column) ∧
      (Matched e → Conserved noGap e.markets claims column e.mintLocked) := by
  simp only [escrowClaims, ok_iff, liftArith_eq_ok, checkedSub_eq_ok] at done
  obtain ⟨entry, found, -, covered, left, difference, column, added, rfl⟩ := done
  obtain ⟨-, raised, kept⟩ := columnAdd_ok added
  refine ⟨e.claims.insert ⟨account, m⟩ (entry.set i.val left), column, rfl, ?_, raised, kept,
    fun matched => ?_⟩
  · exact { Touches.refl (· = account) e with
      claims := fun b other n => get?_insert_ne _ _ fun same =>
        other (congrArg AccountMarket.account same)
      asks := fun b other n j => raised.others _ fun same =>
        other (congrArg AskKey.account same) }
  · obtain ⟨info, market, same⟩ := claimEntry_of_found matched.conserved found
    rw [getD_val] at covered difference
    -- Claims to escrow are there, so the outcome is one of the stored set.
    cases stored : entry[i.val]? with
    | none =>
      rw [stored, weightOf_none] at covered
      omega
    | some old =>
      rw [stored, weightOf_some] at covered difference
      rw [← same] at stored
      have moved : ClaimsMove account m i info True (-need.val) e { e with
          claims := e.claims.insert ⟨account, m⟩ (entry.set i.val left) } := by
        rw [← same]
        exact .of stored (by omega) (by omega)
      exact moved.against matched.conserved market trivial (by rwa [neg_neg])

theorem escrowClaimResting_ok {side : Side} {price : Price} {remaining : Quantity}
    (absent : e.claimEscrows.get? k = none) (priced : 0 < price.val) (positive : 0 < remaining.val)
    (done : e.escrowClaimResting k account side price remaining = .ok e') :
    Step (· = account) e e' ∧ e'.orderReserves = e.orderReserves ∧
      ∃ r, r.backs account side price remaining ∧ e'.claimEscrows = e.claimEscrows.insert k r := by
  rw [escrowClaimResting.eq_def, if_neg (not_le.2 positive)] at done
  have fresh : ∀ old, e.claimEscrows.get? k = some old → old.account = account := by
    rw [absent]
    rintro _ ⟨⟩
  cases side with
  | bid =>
    simp only [ok_iff] at done
    obtain ⟨e₁, escrowed, rfl⟩ := done
    obtain ⟨ledger, risk, column, rfl, touched, raised, kept, relations, trades⟩ :=
      escrowPremium_ok escrowed
    have nonneg := Price.notional_nonneg priced.le positive.le
    have shaped : ClaimOrderEscrow.WellFormed ⟨account, .bid, Price.notional price remaining,
        I128.zero⟩ := ⟨nonneg, le_rfl, fun _ => rfl, by rintro ⟨⟩⟩
    refine ⟨⟨{ touched with }, fun matched => ?_, rfl, trades⟩, rfl, _,
      ⟨rfl, rfl, by rintro ⟨⟩, fun _ => ⟨rfl, le_rfl⟩⟩, rfl⟩
    obtain ⟨reserved, aligned, funded⟩ := relations matched
    refine { matched with
      reserved := reserved
      aligned := aligned
      funded := funded
      columns := matched.columns.change (e.claimEscrows.changed_insert k _) fresh ?_
        (raised nonneg) (Raised.refl _ _) kept id ?_ ?_ }
    · rintro _ ⟨⟩
      exact ⟨rfl, shaped⟩
    · rw [absent, weightOf_none, weightOf_some, sub_zero]
    · rw [absent]
      rfl
  | ask =>
    simp only [ok_iff] at done
    obtain ⟨e₁, escrowed, rfl⟩ := done
    have need : 0 < (Amount.fromQuantity remaining).val := by rwa [Amount.fromQuantity_val]
    obtain ⟨claims, column, rfl, touched, raised, kept, relation⟩ := escrowClaims_ok need escrowed
    have shaped : ClaimOrderEscrow.WellFormed ⟨account, .ask, I128.zero,
        Amount.fromQuantity remaining⟩ := ⟨le_rfl, need.le, by rintro ⟨⟩, fun _ => rfl⟩
    refine ⟨⟨{ touched with }, fun matched => ?_, rfl, .refl⟩, rfl, _,
      ⟨rfl, rfl, fun _ => ⟨rfl, rfl⟩, by rintro ⟨⟩⟩, rfl⟩
    refine { matched with
      conserved := relation matched
      columns := matched.columns.change (e.claimEscrows.changed_insert k _) fresh ?_
        (Raised.refl _ _) raised id kept ?_ ?_ }
    · rintro _ ⟨⟩
      exact ⟨rfl, shaped⟩
    · rw [absent]
      rfl
    · rw [absent, weightOf_none, weightOf_some, sub_zero]

/-! ## Taking out of escrow -/

theorem returnPremium_ok (done : e.returnPremium k r = .ok e') :
    PremiumChange (fun b => b = r.account ∧ r.premium ≠ I128.zero) ⟨r.account, k.market⟩
      (0 ≤ r.premium.val) (-r.premium.val) e e' := by
  rw [returnPremium] at done
  split_ifs at done with some
  · simp only [ok_iff, liftRisk_eq_ok] at done
    obtain ⟨column, taken, ledger, returned, risk, credited, rfl⟩ := done
    obtain ⟨-, raised, positive⟩ := columnSub_ok taken
    obtain ⟨moved, -⟩ := RiskEngine.creditCollateral_ok (K := e.known) credited
    obtain ⟨paid, supply, -, -⟩ := shift_ok returned
    exact .of ⟨rfl, ne_of_pos some⟩ paid supply moved raised positive
      (fun matched => matched.funded.releaseEscrow returned raised) (.single (.credit credited))
  · cases done
    exact .none (by omega)

theorem returnClaims_ok (done : e.returnClaims k r = .ok e') :
    ∃ claims column, e' = { e with claims := claims, askClaimsEscrow := column } ∧
      Touches (fun b => b = r.account ∧ r.claims ≠ I128.zero) e e' ∧ (0 ≤ r.claims.val →
        Raised e.askClaimsEscrow column ⟨r.account, k.market, k.instrument⟩ (-r.claims.val)) ∧
      (AllPositive e.askClaimsEscrow → AllPositive column) ∧
      (Matched e → Conserved noGap e.markets claims column e.mintLocked) := by
  rw [returnClaims] at done
  split_ifs at done with some
  · simp only [ok_iff] at done
    obtain ⟨column, taken, info, found, credited⟩ := done
    obtain ⟨nonneg, raised, positive⟩ := columnSub_ok taken
    obtain ⟨claims, rfl, others, -⟩ := creditClaims_ok credited
    refine ⟨claims, column, rfl, ?_, fun _ => raised, positive, fun matched => ?_⟩
    · have touched : Touches (· = r.account) e
          { e with claims := claims, askClaimsEscrow := column } :=
        { Touches.refl (· = r.account) e with
          claims := fun b other n => others _ fun same =>
            other (congrArg AccountMarket.account same)
          asks := fun b other n j => raised.others _ fun same =>
            other (congrArg AskKey.account same) }
      exact touched.mono fun b mine => ⟨mine, ne_of_pos some⟩
    · -- What is taken from the column was there, so the market is a claim market.
      have entry : e.askClaimsEscrow.get? ⟨r.account, k.market, k.instrument⟩ ≠ none := by
        intro absent
        rw [columnSub, require_of nonneg, if_neg (by omega), absent] at taken
        cases taken
      obtain ⟨x, listed⟩ := Option.ne_none_iff_exists'.1 entry
      obtain ⟨info', market, below⟩ := matched.conserved.asked _ x listed
      obtain rfl := Option.some.inj (found.symm.trans market.1)
      exact (creditClaims_ok credited).against matched.conserved market nonneg raised
  · cases done
    refine ⟨e.claims, e.askClaimsEscrow, rfl, Touches.refl _ e, fun nonneg => ?_, id,
      fun matched => matched.conserved⟩
    exact Raised.zero _ _ (by omega)

theorem eraseRecord_step (found : e.claimEscrows.get? k = some r)
    (returned : e.returnEscrow k r = .ok e') :
    Step (fun b => b = r.account ∧ ¬ (r.premium = I128.zero ∧ r.claims = I128.zero)) e
        { e' with claimEscrows := e'.claimEscrows.erase k } ∧
      e'.claimEscrows = e.claimEscrows ∧ e'.orderReserves = e.orderReserves := by
  have mine : ∀ q, e.claimEscrows.get? k = some q → q.account = r.account := by
    rw [found]
    rintro _ ⟨⟩
    rfl
  rw [returnEscrow] at returned
  cases side : r.side with
  | bid =>
    rw [side] at returned
    obtain ⟨ledger, risk, column, rfl, touched, raised, kept, relations, trades⟩ :=
      returnPremium_ok returned
    refine ⟨⟨{ touched.mono fun b h => ⟨h.1, fun both => h.2 both.1⟩ with }, fun matched => ?_, rfl,
      trades⟩, rfl, rfl⟩
    have shaped := matched.columns.shape k r found
    obtain ⟨reserved, aligned, funded⟩ := relations matched
    refine { matched with
      reserved := reserved
      aligned := aligned
      funded := funded
      columns := matched.columns.change (e.claimEscrows.changed_erase k) mine (by rintro _ ⟨⟩)
        (raised shaped.premium) (Raised.refl _ _) kept id ?_ ?_ }
    · rw [found, weightOf_none, weightOf_some, zero_sub]
    · rw [found, weightOf_none, weightOf_some, shaped.bid side, sub_zero]
  | ask =>
    rw [side] at returned
    obtain ⟨claims, column, rfl, touched, raised, kept, relation⟩ := returnClaims_ok returned
    refine ⟨⟨{ touched.mono fun b h => ⟨h.1, fun both => h.2 both.2⟩ with }, fun matched => ?_, rfl,
      .refl⟩, rfl, rfl⟩
    have shaped := matched.columns.shape k r found
    refine { matched with
      conserved := relation matched
      columns := matched.columns.change (e.claimEscrows.changed_erase k) mine (by rintro _ ⟨⟩)
        (Raised.refl _ _) (raised shaped.claims) id kept ?_ ?_ }
    · rw [found, weightOf_none, weightOf_some, shaped.ask side, sub_zero]
    · rw [found, weightOf_none, weightOf_some, zero_sub]

theorem releaseClaimEscrow_ok {expected owner : Option AccountId}
    (done : e.releaseClaimEscrow k expected = .ok (e', owner)) :
    Step (fun b => ∃ r, e.claimEscrows.get? k = some r ∧ b = r.account ∧
        ¬ (r.premium = I128.zero ∧ r.claims = I128.zero)) e e' ∧
      e'.claimEscrows = e.claimEscrows.erase k ∧ e'.orderReserves = e.orderReserves ∧
      owner = (e.claimEscrows.get? k).map ClaimOrderEscrow.account ∧
      ∀ r, e.claimEscrows.get? k = some r → ∀ b ∈ expected, r.account = b := by
  rw [releaseClaimEscrow] at done
  cases found : e.claimEscrows.get? k with
  | none =>
    rw [found] at done
    cases done
    exact ⟨Step.refl _ e, (erase_of_absent found).symm, rfl, rfl, by rintro r ⟨⟩⟩
  | some r =>
    simp only [found, ok_iff] at done
    obtain ⟨-, mine, e₁, returned, rfl, rfl⟩ := done
    obtain ⟨step, records, reserves⟩ := eraseRecord_step found returned
    refine ⟨step.mono fun b h => ⟨r, rfl, h⟩, congrArg (erase · k) records, reserves, rfl, ?_⟩
    rintro q ⟨⟩
    exact mine

/-! ## Fills -/

theorem drawAskEscrow_ok {seller : AccountId} {qty : Amount} (some : qty.val ≠ 0)
    (done : e.drawAskEscrow k seller qty = .ok e') :
    ∃ r left column, e.claimEscrows.get? k = .some r ∧ r.account = seller ∧ r.side = .ask ∧
      left.val = r.claims.val - qty.val ∧ qty.val ≤ r.claims.val ∧ e' = { e with
        claimEscrows := e.claimEscrows.insert k { r with claims := left }
        askClaimsEscrow := column } ∧
      Raised e.askClaimsEscrow column ⟨seller, k.market, k.instrument⟩ (-qty.val) ∧
      (AllPositive e.askClaimsEscrow → AllPositive column) := by
  rw [drawAskEscrow, if_neg some] at done
  simp only [ok_iff, liftArith_eq_ok, checkedSub_eq_ok] at done
  obtain ⟨r, found, -, ⟨mine, side, covered⟩, left, difference, column, taken, rfl⟩ := done
  obtain ⟨-, raised, kept⟩ := columnSub_ok taken
  exact ⟨r, left, column, found, mine, side, difference, covered, rfl, raised, kept⟩

theorem drawBidEscrow_ok {buyer : AccountId} (some : premium.val ≠ 0)
    (done : e.drawBidEscrow k buyer premium = .ok e') :
    ∃ r left column, e.claimEscrows.get? k = .some r ∧ r.account = buyer ∧ r.side = .bid ∧
      left.val = r.premium.val - premium.val ∧ premium.val ≤ r.premium.val ∧ e' = { e with
        claimEscrows := e.claimEscrows.insert k { r with premium := left }
        bidPremiumEscrow := column } ∧
      Raised e.bidPremiumEscrow column ⟨buyer, k.market⟩ (-premium.val) ∧
      (AllPositive e.bidPremiumEscrow → AllPositive column) := by
  rw [drawBidEscrow, if_neg some] at done
  simp only [ok_iff, liftArith_eq_ok, checkedSub_eq_ok] at done
  obtain ⟨r, found, -, ⟨mine, side, covered⟩, left, difference, column, taken, rfl⟩ := done
  obtain ⟨-, raised, kept⟩ := columnSub_ok taken
  exact ⟨r, left, column, found, mine, side, difference, covered, rfl, raised, kept⟩

end Engine

end Dexos.Execution
