import Dexos.Execution.Escrows

/-!
# What happens in a fill

A fill of a claim order moves claims one way and cash the other, one of them out of the
maker's escrow. A fill of a perpetual order moves the two positions and shrinks the maker's
reserve.
-/

namespace Dexos.Execution

open Foundations Clob Risk OrdMap Function Option RiskEngine

namespace Engine

variable {sha256 : Sha256} {e e' e₁ e₂ : Engine sha256} {k : OrderKey}
  {buyer seller : AccountId} {info : MarketMeta} {qty premium : Amount} {fill : Fill}
  {ledger : Ledger}

theorem askToBuyer_step (market : ClaimMarketOf e.markets k.market info) (positive : 0 < qty.val)
    (drawn : e.drawAskEscrow k seller qty = .ok e₁)
    (credited : e₁.creditClaims buyer k.market k.instrument info.count qty = .ok e₂) :
    Step (fun b => b = buyer ∨ b = seller) e e₂ ∧ e₂.orderReserves = e.orderReserves ∧
      ∃ r left, e.claimEscrows.get? k = some r ∧ r.account = seller ∧ r.side = .ask ∧
        left.val = r.claims.val - qty.val ∧ 0 ≤ left.val ∧
        e₂.claimEscrows = e.claimEscrows.insert k { r with claims := left } := by
  obtain ⟨r, left, column, found, rfl, side, difference, covered, rfl, raised, kept⟩ :=
    drawAskEscrow_ok positive.ne' drawn
  obtain ⟨claims, rfl, others, -⟩ := creditClaims_ok credited
  refine ⟨⟨?_, fun matched => ?_, rfl, .refl⟩, rfl, r, left, found, rfl, side, difference, by omega,
    rfl⟩
  · exact { Touches.refl (fun b => b = buyer ∨ b = r.account) e with
      claims := fun b other n => others _ fun same =>
        other (.inl (congrArg AccountMarket.account same))
      asks := fun b other n j => raised.others _ fun same =>
        other (.inr (congrArg AskKey.account same)) }
  · have shaped := matched.columns.shape k r found
    refine { matched with
      conserved := (creditClaims_ok credited).against matched.conserved market positive.le raised
      columns := matched.columns.change (e.claimEscrows.changed_insert k _) ?_ ?_ (Raised.refl _ _)
        raised id kept ?_ ?_ }
    · rw [found]
      rintro _ ⟨⟩
      rfl
    · rintro _ ⟨⟩
      refine ⟨rfl, shaped.premium, ?_, fun bid => ?_, shaped.ask⟩
      · change 0 ≤ left.val
        omega
      · exact absurd (side.symm.trans bid) (by decide)
    · rw [found, weightOf_some, weightOf_some, sub_self]
    · rw [found, weightOf_some, weightOf_some, difference, sub_sub_cancel_left]

theorem sellerToBuyer_step (market : ClaimMarketOf e.markets k.market info) (positive : 0 < qty.val)
    (debited : e.debitClaims seller k.market k.instrument info.count qty = .ok e₁)
    (credited : e₁.creditClaims buyer k.market k.instrument info.count qty = .ok e₂) :
    Step (fun b => b = seller ∨ b = buyer) e e₂ ∧ e₂.orderReserves = e.orderReserves ∧
      e₂.claimEscrows = e.claimEscrows := by
  obtain ⟨claims, rfl, others, balance⟩ := debitClaims_ok debited
  obtain ⟨claims', rfl, others', balance'⟩ := creditClaims_ok credited
  refine ⟨⟨?_, fun matched => ?_, rfl, .refl⟩, rfl, rfl⟩
  · exact { Touches.refl (fun b => b = seller ∨ b = buyer) e with
      claims := fun b other n => by
        have second := others' ⟨b, n⟩ fun same => other (.inr (congrArg AccountMarket.account same))
        have first := others ⟨b, n⟩ fun same => other (.inl (congrArg AccountMarket.account same))
        exact second.trans first }
  · have taken := (balance noGap e.askClaimsEscrow e.mintLocked matched.conserved market trivial).2
      (fun n j => if n = k.market ∧ j = k.instrument then -qty.val else 0) fun n j => by
        rw [noGap, zero_add]
    have given := (balance' _ e.askClaimsEscrow e.mintLocked taken market positive.le).2 noGap
      fun n j => by
        rw [noGap]
        split_ifs <;> ring
    exact { matched with conserved := given }

theorem transfer_step {risk risk' : RiskEngine}
    (paid : e.ledger.transferAvailable buyer seller premium = .ok ledger)
    (debited : e.risk.debitCollateral buyer premium = .ok risk)
    (credited : risk.creditCollateral seller premium = .ok risk') :
    Step (fun b => b = buyer ∨ b = seller) e { e with ledger := ledger, risk := risk' } := by
  obtain ⟨moved, supply, -⟩ := Ledger.pay_ok paid
  obtain ⟨first, -⟩ := debitCollateral_ok (K := e.known) debited
  obtain ⟨second, -⟩ := creditCollateral_ok (K := e.known) credited
  have both := (first.trans second).restate (fun _ => add_zero 0) fun _ h => h
  refine ⟨?_, fun matched => ?_, rfl, .tail (.single (.debit debited)) (.credit credited)⟩
  · exact { Touches.refl (fun b => b = buyer ∨ b = seller) e with
      supply := supply
      allocated := moved.size
      status := both.status
      purse := moved.others
      slot := both.others }
  · exact { matched with
      reserved := matched.reserved.move both fun _ => (add_zero _).symm
      funded := matched.funded.transferAvailable paid
      aligned := (matched.aligned.moveRisk both).moveLedger moved.size }

theorem payEscrow_step {risk : RiskEngine} (positive : 0 < premium.val)
    (drawn : e.drawBidEscrow k buyer premium = .ok e₁)
    (paid : e₁.ledger.settleEscrow buyer seller premium = .ok ledger)
    (credited : e₁.risk.creditCollateral seller premium = .ok risk) :
    Step (fun b => b = seller ∨ b = buyer) e { e₁ with ledger := ledger, risk := risk } ∧
      e₁.orderReserves = e.orderReserves ∧
      ∃ r left, e.claimEscrows.get? k = some r ∧ r.account = buyer ∧ r.side = .bid ∧
        left.val = r.premium.val - premium.val ∧
        e₁.claimEscrows = e.claimEscrows.insert k { r with premium := left } := by
  obtain ⟨r, left, column, found, rfl, side, difference, covered, rfl, raised, kept⟩ :=
    drawBidEscrow_ok positive.ne' drawn
  obtain ⟨moved, supply, -⟩ := Ledger.pay_ok paid
  obtain ⟨gained, -⟩ := creditCollateral_ok (K := e.known) credited
  refine ⟨⟨?_, fun matched => ?_, rfl, .single (.credit credited)⟩, rfl, r, left, found, rfl, side,
    difference, rfl⟩
  · exact { Touches.refl (fun b => b = seller ∨ b = r.account) e with
      supply := supply
      allocated := moved.size
      status := gained.status
      purse := fun b other => moved.others b fun h => other h.symm
      slot := fun b other => gained.others b fun h => other (.inl h)
      premium := fun b other n => raised.others _ fun same =>
        other (.inr (congrArg AccountMarket.account same)) }
  · have shaped := matched.columns.shape k r found
    refine { matched with
      reserved := matched.reserved.move gained fun _ => (add_zero _).symm
      funded := matched.funded.settleEscrow paid raised
      aligned := (matched.aligned.moveRisk gained).moveLedger moved.size
      columns := matched.columns.change (e.claimEscrows.changed_insert k _) ?_ ?_ raised
        (Raised.refl _ _) kept id ?_ ?_ }
    · rw [found]
      rintro _ ⟨⟩
      rfl
    · rintro _ ⟨⟩
      refine ⟨rfl, ?_, shaped.claims, shaped.bid, fun ask => ?_⟩
      · change 0 ≤ left.val
        omega
      · exact absurd (side.symm.trans ask) (by decide)
    · rw [found, weightOf_some, weightOf_some, difference, sub_sub_cancel_left]
    · rw [found, weightOf_some, weightOf_some, sub_self]

/-! ## Claim fills -/

/-- What is left of a maker's record after a fill. -/
def drawnRecord (fill : Fill) (r r' : ClaimOrderEscrow) : Prop :=
  r'.account = r.account ∧ r'.side = r.side ∧
    (r.side = .ask → r'.claims.val = r.claims.val - fill.quantity.val ∧ r'.premium = r.premium) ∧
    (r.side = .bid → r'.claims = r.claims ∧
      r'.premium.val = r.premium.val - (Price.notional fill.price fill.quantity).val)

/-- A claim fill moves claims and cash, and draws the maker's record. -/
structure ClaimFilled (k : OrderKey) (fill : Fill) (r : ClaimOrderEscrow) (e e' : Engine sha256) :
    Prop where
  step : Step (fun b => b = fill.takerAccount ∨ b = fill.makerAccount) e e'
  reserves : e'.orderReserves = e.orderReserves
  record : ∃ r', drawnRecord fill r r' ∧ e'.claimEscrows = e.claimEscrows.insert k r'

variable (market : ClaimMarketOf e.markets k.market info) {r : ClaimOrderEscrow}
  (found : e.claimEscrows.get? k = some r)
include market found

theorem settleTakerBid_ok
    (positive : 0 < fill.quantity.val) (done : e.settleTakerBid k info.count fill = .ok e') :
    ClaimFilled k fill r e e' := by
  simp only [settleTakerBid, bind_eq_ok, Leg.run_eq_ok] at done
  obtain ⟨e₁, drawn, e₂, credited, done⟩ := done
  have some : 0 < (Amount.fromQuantity fill.quantity).val := by rwa [Amount.fromQuantity_val]
  obtain ⟨claims, reserves, r₀, left, found₀, mine, side, difference, -, records⟩ :=
    askToBuyer_step market some drawn credited
  rw [found] at found₀
  cases found₀
  have shape : drawnRecord fill r { r with claims := left } := by
    refine ⟨rfl, rfl, fun _ => ⟨by rw [difference, Amount.fromQuantity_val], rfl⟩, fun bid => ?_⟩
    exact absurd (side.symm.trans bid) (by decide)
  split_ifs at done with cash
  · simp only [ok_iff, Leg.run_eq_ok, liftRisk_eq_ok] at done
    obtain ⟨ledger, paid, risk, debited, risk', gained, rfl⟩ := done
    exact ⟨claims.append (transfer_step paid debited gained), reserves, _, shape, records⟩
  · cases done
    exact ⟨claims, reserves, _, shape, records⟩

theorem settleTakerAsk_ok (positive : 0 < fill.quantity.val) (priced : 0 < fill.price.val)
    (bid : r.side = .bid) (done : e.settleTakerAsk k info.count fill = .ok e') :
    ClaimFilled k fill r e e' := by
  simp only [settleTakerAsk, bind_eq_ok, Leg.run_eq_ok] at done
  obtain ⟨e₁, debited, e₂, credited, done⟩ := done
  have some : 0 < (Amount.fromQuantity fill.quantity).val := by rwa [Amount.fromQuantity_val]
  obtain ⟨claims, reserves, records⟩ := sellerToBuyer_step market some debited credited
  split_ifs at done with cash
  · simp only [ok_iff, Leg.run_eq_ok, liftRisk_eq_ok] at done
    obtain ⟨e₃, drawn, ledger, paid, risk, gained, rfl⟩ := done
    obtain ⟨step, kept, r', left, found', mine, side, difference, written⟩ :=
      payEscrow_step cash drawn paid gained
    rw [records, found] at found'
    cases found'
    refine ⟨claims.append step, kept.trans reserves, { r with premium := left }, ?_, ?_⟩
    · refine ⟨rfl, rfl, fun ask => ?_, fun _ => ⟨rfl, difference⟩⟩
      exact absurd (bid.symm.trans ask) (by decide)
    · rwa [← records]
  · cases done
    have nonneg := Price.notional_nonneg priced.le positive.le
    refine ⟨claims, reserves, r, ⟨rfl, rfl, fun ask => ?_, fun _ => ⟨rfl, by omega⟩⟩, ?_⟩
    · exact absurd (bid.symm.trans ask) (by decide)
    · rw [records, insert_get?_self found]

theorem applyClaimFill_ok (priced : 0 < fill.price.val) (side : r.side = fill.takerSide.opposite)
    (done : e.applyClaimFill k fill = .ok e') : ClaimFilled k fill r e e' := by
  simp only [applyClaimFill, ok_iff, Leg.run_eq_ok] at done
  obtain ⟨info', found', -, -, -, positive, done⟩ := done
  obtain rfl := some.inj (market.1.symm.trans found')
  cases taker : fill.takerSide with
  | bid =>
    rw [taker] at done
    exact settleTakerBid_ok market found positive done
  | ask =>
    rw [taker] at done side
    exact settleTakerAsk_ok market found positive priced side done

/-! ## Perpetual fills -/

omit market found

/-- The taker and the maker of a fill take opposite quantities. -/
theorem signed_opposite {side : Side} {qty q q' : Quantity} (taker : signed side qty = .ok q)
    (maker : signed side.opposite qty = .ok q') : q'.val = -q.val := by
  cases side with
  | bid =>
    cases taker
    rw [signed.eq_def, Side.opposite] at maker
    simp only [liftArith_eq_ok, Scalar.checkedSub_eq_ok] at maker
    rw [maker]
    exact zero_sub _
  | ask =>
    cases maker
    rw [signed.eq_def] at taker
    simp only [liftArith_eq_ok, Scalar.checkedSub_eq_ok] at taker
    have zero : I64.zero.val = 0 := rfl
    omega

theorem applyPerpFill_ok {m : MarketId} (known : e.known m)
    (done : e.applyPerpFill m fill = .ok e') :
    Step (fun b => b = fill.takerAccount ∨ b = fill.makerAccount) e e' ∧
      e'.orderReserves = e.orderReserves ∧ e'.claimEscrows = e.claimEscrows := by
  simp only [applyPerpFill, ok_iff, Leg.run_eq_ok, liftRisk_eq_ok] at done
  obtain ⟨takerQty, takes, makerQty, makes, risk, taken, risk', made, rfl⟩ := done
  have first := applyFill_ok (K := e.known) known taken
  have second := applyFill_ok (K := e.known) known made
  exact ⟨Step.ofRisk ((first.trans second).restate (fun _ => add_zero 0) fun _ h => h)
    (.single (.pair (signed_opposite takes makes) taken made)), rfl, rfl⟩

/-! ## The end of a fill -/

theorem chargeFee_free {account : AccountId} {notional : Amount} :
    e.chargeFee account notional 0 = .ok e :=
  if_pos rfl

theorem releaseConsumed_ok (done : e.releaseConsumed k = .ok e') :
    Step (fun b => ∃ r, e.claimEscrows.get? k = some r ∧ b = r.account) e e' ∧
      e'.orderReserves = e.orderReserves ∧
      e'.claimEscrows = if (e.resting k).isNone = true then e.claimEscrows.erase k
        else e.claimEscrows := by
  rw [releaseConsumed] at done
  split_ifs at done with gone
  · rw [if_pos gone]
    obtain ⟨s, released, rfl⟩ := map_eq_ok.1 done
    obtain ⟨step, records, reserves, -, -⟩ := releaseClaimEscrow_ok released
    exact ⟨step.mono fun b ⟨r, found, mine, _⟩ => ⟨r, found, mine⟩, reserves, records⟩
  · cases done
    rw [if_neg gone]
    exact ⟨Step.refl _ e, rfl, rfl⟩

/-! ## The backing of the maker -/

section Maker

variable {m : Order} {q : Quantity} {reserve : Option OrderReserve}

theorem left_val (positive : 0 < q.val) (enough : q.val ≤ m.remaining.val) :
    (m.remaining.saturatingSub q).val = m.remaining.val - q.val := by
  have upper := m.remaining.property
  exact Bounded.saturatingSub_val (by omega) (by omega)

/-- Splitting an order loses no notional to the part that is left. -/
theorem notional_left (priced : 0 < m.price.val) (positive : 0 < q.val)
    (enough : q.val ≤ m.remaining.val) :
    (Price.notional m.price q).val + (Price.notional m.price (m.remaining.saturatingSub q)).val ≤
      (Price.notional m.price m.remaining).val := by
  have left := left_val positive enough
  exact Price.notional_add_le priced.le positive.le (by omega) (by omega)

/-- The reserve that a fill leaves backs what is left. -/
theorem reserveBacks_drawn (priced : 0 < m.price.val)
    (positive : 0 < q.val) (enough : q.val ≤ m.remaining.val)
    (backs : reserveBacks reserve m.account m.price m.remaining)
    (rest : (m.remaining.saturatingSub q).val ≠ 0) :
    reserveBacks (reserve.bind fun r =>
        let left := r.qtyRemaining.saturatingSub q
        if left.val = 0 then none else some ⟨r.account, Price.notional m.price left, left⟩)
      m.account m.price (m.remaining.saturatingSub q) := by
  obtain rfl | ⟨rfl, nothing⟩ := backs
  · refine .inl ?_
    exact if_neg rest
  · refine .inr ⟨bind_none _, Subtype.ext ?_⟩
    have split := notional_left priced positive enough
    have left := left_val positive enough
    have first := Price.notional_nonneg priced.le positive.le
    have second : 0 ≤ (Price.notional m.price (m.remaining.saturatingSub q)).val :=
      Price.notional_nonneg priced.le (by omega)
    have whole : (Price.notional m.price m.remaining).val = 0 := congrArg Subtype.val nothing
    change _ = (0 : Int)
    omega

theorem reserve_consumed (backs : reserveBacks reserve m.account m.price m.remaining)
    (rest : (m.remaining.saturatingSub q).val = 0) :
    (reserve.bind fun r =>
      let left := r.qtyRemaining.saturatingSub q
      if left.val = 0 then none else some ⟨r.account, Price.notional m.price left, left⟩) =
      (none : Option OrderReserve) := by
  obtain rfl | ⟨rfl, -⟩ := backs
  · exact if_pos rest
  · rfl

/-- The record that a fill leaves backs what is left. -/
theorem backs_drawn {r r' : ClaimOrderEscrow} (priced : 0 < m.price.val)
    (positive : 0 < fill.quantity.val) (enough : fill.quantity.val ≤ m.remaining.val)
    (price : m.price = fill.price) (backs : r.backs m.account m.side m.price m.remaining)
    (drawn : drawnRecord fill r r') :
    r'.backs m.account m.side m.price (m.remaining.saturatingSub fill.quantity) := by
  obtain ⟨account, side, ask, bid⟩ := backs
  obtain ⟨account', side', ask', bid'⟩ := drawn
  have left := left_val positive enough
  refine ⟨account'.trans account, side'.trans side, fun here => ?_, fun here => ?_⟩
  · obtain ⟨claims, premium⟩ := ask here
    obtain ⟨claims', premium'⟩ := ask' (side.trans here)
    refine ⟨Subtype.ext ?_, premium'.trans premium⟩
    rw [claims', claims, Amount.fromQuantity_val, Amount.fromQuantity_val, left]
  · obtain ⟨claims, premium⟩ := bid here
    obtain ⟨claims', premium'⟩ := bid' (side.trans here)
    have split := notional_left priced positive enough
    rw [← price] at premium'
    exact ⟨claims'.trans claims, by omega⟩

end Maker

/-- The lookup after a fill of one maker. -/
def drawnAt (l : OrderKey → Option Order) (k : OrderKey) (m : Order) (q : Quantity) :
    OrderKey → Option Order :=
  update l k (if (m.remaining.saturatingSub q).val = 0 then none
    else some (m.withRemaining (m.remaining.saturatingSub q)))

theorem backed_update {l : OrderKey → Option Order} {o : Option Order} (backed : Backed l e)
    (markets : e'.markets = e.markets)
    (reserves : ∀ j, j ≠ k → e'.orderReserves.get? j = e.orderReserves.get? j)
    (records : ∀ j, j ≠ k → e'.claimEscrows.get? j = e.claimEscrows.get? j)
    (here : Backing (e.markets.get? k.market) (e'.orderReserves.get? k)
      (e'.claimEscrows.get? k) o) : Backed (update l k o) e' := by
  intro j
  rw [markets]
  by_cases same : j = k
  · subst same
    rwa [update_self]
  · rw [update_of_ne same, reserves j same, records j same]
    exact backed j

theorem applyFill_ok {l : OrderKey → Option Order} {m : Order} {market : MarketId}
    {instrument : U16}
    (matched : Matched e) (backed : Backed l e) (known : e.markets.get? market = some info)
    (rests : l ⟨market, instrument, fill.makerOrder⟩ = some m)
    (account : m.account = fill.makerAccount) (side : m.side = fill.takerSide.opposite)
    (price : m.price = fill.price) (positive : 0 < fill.quantity.val)
    (enough : fill.quantity.val ≤ m.remaining.val)
    (gone : (e.resting ⟨market, instrument, fill.makerOrder⟩).isNone = true ↔
      (m.remaining.saturatingSub fill.quantity).val = 0)
    (done : applyFill info market instrument e fill = .ok e') :
    Step (fun b => b = fill.takerAccount ∨ b = fill.makerAccount) e e' ∧
      Backed (drawnAt l ⟨market, instrument, fill.makerOrder⟩ m fill.quantity) e' := by
  obtain ⟨takerFree, makerFree⟩ := matched.free market info known
  simp only [applyFill, bind_eq_ok, Leg.run_eq_ok] at done
  obtain ⟨e₁, legs, e₂, telescoped, e₃, consumed, e₄, taken, made⟩ := done
  set k : OrderKey := ⟨market, instrument, fill.makerOrder⟩
  rw [takerFree, chargeFee_free] at taken
  cases taken
  rw [makerFree, chargeFee_free] at made
  cases made
  have backing := backed k
  rw [rests] at backing
  obtain ⟨priced, -, info', known', sidecar⟩ := backing
  obtain rfl := some.inj (known.symm.trans known')
  obtain ⟨shrunk, records₂, reserves₂⟩ := telescopeReserve_ok telescoped
  obtain ⟨released, reserves₃, records₃⟩ := releaseConsumed_ok consumed
  have resting₂ : e₁.books = e.books → e₂.resting k = e.resting k := by
    intro same
    rw [resting, resting, shrunk.touches.books, same]
  rw [applyLegs] at legs
  split_ifs at legs sidecar with claim
  · obtain ⟨bare, r, found, backs⟩ := sidecar
    obtain ⟨settled, reserves₁, r', drawn, records₁⟩ := applyClaimFill_ok (k := k)
      ⟨known, claim⟩ found (price ▸ priced) (backs.2.1.trans side) legs
    have bare₁ : e₁.orderReserves.get? k = none := by rw [reserves₁, bare]
    have still : ∀ j, e₂.orderReserves.get? j = e.orderReserves.get? j := by
      intro j
      rw [reserves₂, bare₁, bind_none, reserves₁]
      split_ifs with same
      · rw [same, bare]
      · rfl
    have owner : r'.account = fill.makerAccount := drawn.1.trans (backs.1.trans account)
    have stored : e₂.claimEscrows.get? k = some r' := by rw [records₂, records₁, get?_insert_self]
    refine ⟨?_, backed_update backed ?_ (fun j other => ?_) (fun j other => ?_) ?_⟩
    · refine (settled.append (shrunk.mono ?_)).append (released.mono ?_)
      · rintro b ⟨x, there, -⟩
        simp [bare₁] at there
      · rintro b ⟨x, there, rfl⟩
        rw [stored] at there
        cases there
        exact .inr owner
    · rw [released.touches.markets, shrunk.touches.markets, settled.touches.markets]
    · rw [reserves₃, still]
    · have apart : (e.claimEscrows.insert k r').get? j =
          e.claimEscrows.get? j := get?_insert_ne _ _ other
      rw [records₃, records₂, records₁]
      split_ifs
      · rw [get?_erase, if_neg other, apart]
      · exact apart
    · rw [reserves₃, still, records₃, resting₂ settled.touches.books]
      by_cases empty : (m.remaining.saturatingSub fill.quantity).val = 0
      · rw [if_pos empty, if_pos (gone.2 empty), get?_erase_self]
        exact ⟨bare, rfl⟩
      · rw [if_neg empty, if_neg fun h => empty (gone.1 h), stored]
        have left := left_val positive enough
        refine ⟨priced, ?_, info, known, ?_⟩
        · change 0 < (m.remaining.saturatingSub fill.quantity).val
          omega
        · rw [if_pos claim]
          exact ⟨bare, r', rfl, backs_drawn priced positive enough price backs drawn⟩
  · obtain ⟨bare, backs⟩ := sidecar
    obtain ⟨filled, reserves₁, records₁⟩ := applyPerpFill_ok
      (show (e.markets.get? market).isSome = true by rw [known]; rfl) legs
    have none₂ : e₂.claimEscrows.get? k = none := by rw [records₂, records₁, bare]
    have owner : ∀ x, e.orderReserves.get? k = some x → x.account = fill.makerAccount := by
      intro x there
      obtain same | ⟨absent, -⟩ := backs
      · rw [same] at there
        cases there
        exact account
      · simp [absent] at there
    have still : ∀ j, e'.claimEscrows.get? j = e.claimEscrows.get? j := by
      intro j
      rw [records₃, records₂, records₁]
      split_ifs
      · rw [get?_erase]
        split_ifs with same
        · rw [same, bare]
        · rfl
      · rfl
    refine ⟨?_, backed_update backed ?_ (fun j other => ?_) (fun j _ => still j) ?_⟩
    · refine (filled.append (shrunk.mono ?_)).append (released.mono ?_)
      · rintro b ⟨x, there, rfl⟩
        rw [reserves₁] at there
        exact .inr (owner x there)
      · rintro b ⟨x, there, -⟩
        simp [none₂] at there
    · rw [released.touches.markets, shrunk.touches.markets, filled.touches.markets]
    · rw [reserves₃, reserves₂, if_neg other, reserves₁]
    · rw [still, bare, reserves₃, reserves₂, if_pos rfl, reserves₁, ← price]
      by_cases empty : (m.remaining.saturatingSub fill.quantity).val = 0
      · rw [if_pos empty]
        exact ⟨reserve_consumed backs empty, rfl⟩
      · rw [if_neg empty]
        have left := left_val positive enough
        refine ⟨priced, ?_, info, known, ?_⟩
        · change 0 < (m.remaining.saturatingSub fill.quantity).val
          omega
        · rw [if_neg claim]
          exact ⟨rfl, reserveBacks_drawn priced positive enough backs empty⟩

end Engine

end Dexos.Execution
