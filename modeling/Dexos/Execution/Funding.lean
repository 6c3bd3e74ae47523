import Dexos.Execution.Liquidations
import Dexos.Risk.Exact

/-!
# Funding

An epoch moves collateral from the holders that pay to the holders that receive, and the rest to
the insurance fund. A payer is debited its obligation rounded up and a receiver credited its
entitlement rounded down, but a payer whose payment truncates to zero is skipped. So the credits
can outweigh the debits, and then the epoch fails.
-/

namespace Dexos.Execution

open Foundations Clob Risk List OrdMap RiskEngine Scalar

/-! ## Payments -/

/-- What a position owes in an epoch, in micro-units of a micro-unit. -/
def fundingProduct (mark rate q : Int) : Int := (mark * q).tdiv scale * rate

/-- The signed payment of a position: truncated, and one more for a payer that owes a fraction. -/
def fundingOwed (mark rate q : Int) : Int :=
  let product := fundingProduct mark rate q
  product.tdiv scale + if 0 < product.tdiv scale ∧ 0 < product.tmod scale then 1 else 0

theorem fundingOwed_zero (mark rate : Int) : fundingOwed mark rate 0 = 0 := by
  simp [fundingOwed, fundingProduct]

/-- A truncated product has the sign of the product, and at most its size. -/
theorem tdiv_scale_mul (v : Int) :
    (0 ≤ v → 0 ≤ v.tdiv scale ∧ v.tdiv scale * scale ≤ v) ∧
      (v ≤ 0 → v.tdiv scale ≤ 0 ∧ v ≤ v.tdiv scale * scale) := by
  have whole := tdiv_scale v
  generalize v.tdiv scale = quotient at *
  generalize v.tmod scale = remainder at *
  rw [scale] at *
  omega

/-- A payer pays at most one micro-unit more than it owes. -/
theorem fundingOwed_le {mark rate q : Int} (pays : 0 < fundingOwed mark rate q) :
    fundingOwed mark rate q * scale ^ 2 ≤ mark * q * rate + scale ^ 2 := by
  have positive : 0 < scale := by decide
  -- the notional is truncated toward zero, so the product is at most what the position owes
  have inner : 0 < fundingProduct mark rate q →
      fundingProduct mark rate q * scale ≤ mark * q * rate := by
    intro owes
    rw [fundingProduct] at owes ⊢
    obtain ⟨long, short⟩ := tdiv_scale_mul (mark * q)
    rcases le_total 0 (mark * q) with sign | sign
    · obtain ⟨nonneg, below⟩ := long sign
      have rated : 0 < rate := by
        by_contra flat
        exact absurd owes (not_lt.2 (mul_nonpos_of_nonneg_of_nonpos nonneg (not_lt.1 flat)))
      nlinarith
    · obtain ⟨nonpos, above⟩ := short sign
      have rated : rate < 0 := by
        by_contra flat
        exact absurd owes (not_lt.2 (mul_nonpos_of_nonpos_of_nonneg nonpos (not_lt.1 flat)))
      nlinarith
  have last : 0 < fundingProduct mark rate q ∧
      fundingOwed mark rate q * scale ≤ fundingProduct mark rate q + scale := by
    have whole := tdiv_scale (fundingProduct mark rate q)
    simp only [fundingOwed] at pays ⊢
    generalize fundingProduct mark rate q = product at *
    generalize product.tdiv scale = quotient at *
    generalize product.tmod scale = remainder at *
    rw [scale] at *
    split_ifs at * <;> omega
  have := inner last.1
  nlinarith [last.2]

/-- An error of the fixed-point arithmetic. -/
def IsOverflow (err : ExecutionError) : Prop :=
  (∃ x, err = .arith x) ∨ ∃ x, err = .risk (.arith x)

theorem liftArith_ends {α : Type} (x : Except ArithError α) :
    Ends (liftArith x) (x = .ok ·) IsOverflow := by
  cases x with
  | ok v => exact rfl
  | error err => exact .inl ⟨err, rfl⟩

theorem liftRisk_ends {α : Type} {x : Except RiskError α} {P : α → Prop} (ends : Ends x P IsArith) :
    Ends (liftRisk x) P IsOverflow := by
  cases x with
  | ok v => exact ends
  | error err =>
    obtain ⟨inner, rfl⟩ := ends
    exact .inr ⟨inner, rfl⟩

/-- The share of a holder. -/
structure ShareOf (owed : Int) (share : Amount × Amount × Amount) : Prop where
  delta : share.1.val = -owed
  debit : share.2.1.val = max 0 owed
  credit : share.2.2.val = max 0 (-owed)

theorem fundingShare_ends (mark : Price) (rate : Ratio) (qty : Quantity) :
    Ends (Engine.fundingShare mark rate qty) (ShareOf (fundingOwed mark.val rate.val qty.val))
      IsOverflow := by
  have scaled : (Price.notional mark qty).val * rate.val =
      fundingProduct mark.val rate.val qty.val := rfl
  simp only [Engine.fundingShare, Amount.mulRatio, Amount.mulRatioCeil, scaled, fundingOwed]
  generalize fundingProduct mark.val rate.val qty.val = product
  cases narrowed : (Bounded.narrow product : Option I128) with
  | none => exact .inl ⟨_, rfl⟩
  | some v =>
    obtain rfl : v.val = product := Bounded.narrow_eq_some.1 narrowed
    have pay : liftArith ((orError (some v) ArithError.overflow).map I128.scaled) =
      .ok (I128.scaled v) := rfl
    have debit : liftArith ((orError (some v) ArithError.overflow).map I128.scaledCeil) =
      .ok (I128.scaledCeil v) := rfl
    have truncated : (I128.scaled v).val = v.val.tdiv scale := rfl
    have zero : I128.zero.val = 0 := rfl
    simp only [pay, debit, ok_bind, truncated]
    rcases lt_trichotomy 0 (v.val.tdiv scale) with pays | flat | receives
    · have rounded : (I128.scaledCeil v).val = v.val.tdiv scale +
          if 0 < v.val.tdiv scale ∧ 0 < v.val.tmod scale then 1 else 0 := by
        simp only [and_iff_right pays]
        rfl
      rw [if_pos pays]
      apply (liftArith_ends (checkedSub I128.zero (I128.scaledCeil v))).bind
      intro delta sub
      rw [checkedSub_eq_ok] at sub
      constructor <;> dsimp only <;> omega
    · rw [← flat]
      constructor <;> rfl
    · rw [if_neg receives.not_gt, if_pos receives]
      apply (liftArith_ends (checkedSub I128.zero (I128.scaled v))).bind
      intro credit sub
      rw [checkedSub_eq_ok] at sub
      constructor <;> dsimp only <;> omega

/-! ## The loop -/

namespace Engine

variable {sha256 : Sha256} {config : EngineConfig} {e e' : Engine sha256} {seq : U64}
  {m : MarketId} {mark : Price} {rate : Ratio}

/-- What an account owes in an epoch. -/
def owed (r : RiskEngine) (m : MarketId) (mark : Price) (rate : Ratio) (b : AccountId) : Int :=
  fundingOwed mark.val rate.val (r.holding b m)

/-- The funding loop after some holders: each of them has paid what it owes. -/
structure Funds (e : Engine sha256) (m : MarketId) (mark : Price) (rate : Ratio)
    (seen : List AccountId) (s : Funding sha256) : Prop where
  listed : s.engine.markets = e.markets
  still : e.risk.Still s.engine.risk
  exact : s.engine.risk.Exact
  insurance : s.engine.risk.insurance = e.risk.insurance
  collateral : ∀ b, s.engine.risk.collateralOf b =
    e.risk.collateralOf b - if b ∈ seen then owed e.risk m mark rate b else 0
  collected : s.collected.val = (seen.map fun b => max 0 (owed e.risk m mark rate b)).sum
  distributed : s.distributed.val = (seen.map fun b => max 0 (-owed e.risk m mark rate b)).sum

theorem Healthy.inside {a : AccountId} {x : Account} (healthy : Healthy e)
    (found : e.risk.slot a = some x) : a.val < e.tree.accounts.capacity := by
  obtain ⟨q, purse⟩ := healthy.matched.aligned.purse found
  apply healthy.rooted.accounts
  exact (List.getElem?_eq_some_iff.1 purse).1

/-- A turn settles one more holder, or overflows. -/
theorem fundHolder_ends {seen : List AccountId} {s : Funding sha256} {account : AccountId}
    (healthy : Healthy s.engine) (indexed : e.risk.Indexed) (held : e.risk.holding account m ≠ 0)
    (fresh : account ∉ seen) (funds : Funds e m mark rate seen s) :
    Ends (fundHolder m mark rate s account)
      (Funds e m mark rate (seen ++ [account])) IsOverflow := by
  obtain ⟨x, found, used, isOpen⟩ : ∃ x, s.engine.risk.slot account = some x ∧ x.used = true ∧
      x.isOpen = true := by
    apply (funds.still.indexed indexed).active (m := m)
    rwa [funds.still.holding]
  obtain ⟨qty, position, whole⟩ := position_returns found used m
  rw [funds.still.holding] at whole
  rw [fundHolder, position]
  apply (fundingShare_ends mark rate qty).bind
  intro share paid
  rw [whole] at paid
  change ShareOf (owed e.risk m mark rate account) share at paid
  apply (liftArith_ends (checkedAdd s.collected share.2.1)).bind
  intro collected more
  apply (liftArith_ends (checkedAdd s.distributed share.2.2)).bind
  intro distributed more'
  rw [checkedAdd_eq_ok] at more more'
  apply (liftRisk_ends (applyFunding_ends funds.exact found used isOpen).and_eq).bind
  rintro risk ⟨settled, collateral, cached, moved, rfl⟩
  have exact' := (Trade.funding settled).exact funds.exact
  generalize filled : ({ x with collateral := collateral, cached := cached } : Account) =
    x' at settled exact'
  have found' : (s.engine.risk.setSlot account x').slot account = some x' := by
    rw [slot_setSlot found, if_pos rfl]
  obtain ⟨q, purse⟩ := healthy.matched.aligned.purse found
  obtain ⟨e₁, committed⟩ := commitAccount_returns
    (e := { s.engine with risk := s.engine.risk.setSlot account x' }) purse found'
      (by rw [← filled]; exact used)
    (healthy.inside found)
  rw [committed]
  obtain ⟨tree, leaf, rfl, -⟩ := commitAccount_ok committed
  have still : s.engine.risk.Still (s.engine.risk.setSlot account x') := by
    rw [← filled]
    exact .setSlot found rfl rfl rfl
  refine ⟨funds.listed, funds.still.trans still, exact', funds.insurance, fun b => ?_, ?_, ?_⟩
  · have before := funds.collateral b
    rw [collateralOf_setSlot found]
    by_cases same : b = account
    · subst same
      rw [if_neg fresh, collateralOf_eq found] at before
      rw [if_pos rfl, if_pos (by simp), ← filled]
      rw [moved, before, paid.delta]
      ring
    · rw [if_neg same, before]
      simp only [mem_append, mem_singleton, same, or_false]
  · rw [more, funds.collected, paid.debit, map_append, sum_append, map_singleton, sum_singleton]
  · rw [more', funds.distributed, paid.credit, map_append, sum_append, map_singleton, sum_singleton]

/-! ## The epoch -/

/-- What an epoch collects beyond what it distributes: the sum of what all accounts owe. -/
def fundingResidual (r : RiskEngine) (m : MarketId) (mark : Price) (rate : Ratio) : Int :=
  (r.accounts.map fun a => fundingOwed mark.val rate.val (holdingOf a.perp m)).sum

variable {r : RiskEngine} {info : MarketMeta} {c : ApplyFundingEpoch}

theorem fundingResidual_eq (fits : r.accounts.length ≤ 2 ^ 32) :
    fundingResidual r m mark rate = ∑ b : AccountId, owed r m mark rate b := by
  rw [fundingResidual, sum_slots fits]
  apply Finset.sum_congr rfl
  intro b _
  rw [owed, holding_eq_weightOf]
  cases r.slot b with
  | none => exact (fundingOwed_zero _ _).symm
  | some a => rfl

theorem owed_of_not_holder {b : AccountId} (indexed : r.Indexed) (other : b ∉ (r.holders m).keys) :
    owed r m mark rate b = 0 := by
  have flat : r.holding b m = 0 := by
    by_contra held
    apply other
    rw [OrdMap.mem_keys]
    exact ⟨(), (indexed.exact m b).2 held⟩
  rw [owed, flat, fundingOwed_zero]

/-- A sum over the holders is a sum over all accounts. -/
theorem sum_holders (indexed : r.Indexed) {f : Int → Int} (zero : f 0 = 0) :
    ((r.holders m).keys.map fun b => f (owed r m mark rate b)).sum =
      ∑ b : AccountId, f (owed r m mark rate b) := by
  rw [← sum_toFinset _ (keys_nodup _)]
  apply Finset.sum_subset (Finset.subset_univ _)
  intro b _ other
  rw [mem_toFinset] at other
  rw [owed_of_not_holder indexed other, zero]

/-- A closed transfer of collateral between holders and the insurance fund. -/
structure FundingTransfer (r r' : RiskEngine) (m : MarketId) (mark : Price)
    (rate : Ratio) : Prop where
  conserved : r'.backing = r.backing
  covered : ∑ b : AccountId, max 0 (r'.collateralOf b - r.collateralOf b) ≤
    ∑ b : AccountId, max 0 (r.collateralOf b - r'.collateralOf b)
  fair : ∀ b, r'.collateralOf b < r.collateralOf b →
    (r.collateralOf b - r'.collateralOf b) * scale ^ 2 ≤ mark.val * r.holding b m *
      rate.val + scale ^ 2

/-- Paying what all accounts owe is a closed transfer when the residual is not negative. -/
theorem fundingTransfer_of {r r' : RiskEngine} (fits : r.accounts.length ≤ 2 ^ 32)
    (size : r'.accounts.length = r.accounts.length)
    (paid : ∀ b, r'.collateralOf b = r.collateralOf b - owed r m mark rate b)
    (residual : r'.insurance.val = r.insurance.val + fundingResidual r m mark rate)
    (nonneg : 0 ≤ fundingResidual r m mark rate) : FundingTransfer r r' m mark rate := by
  have total : fundingResidual r m mark rate = ∑ b : AccountId, owed r m mark rate b :=
    fundingResidual_eq fits
  refine ⟨?_, ?_, fun b pays => ?_⟩
  · rw [backing_eq (size ▸ fits), backing_eq fits, residual, total,
      Finset.sum_congr rfl fun b _ => paid b, Finset.sum_sub_distrib]
    ring
  · calc ∑ b : AccountId, max 0 (r'.collateralOf b - r.collateralOf b)
        ≤ ∑ b : AccountId, max 0 (r'.collateralOf b - r.collateralOf b) +
            ∑ b : AccountId, owed r m mark rate b := by omega
      _ = ∑ b : AccountId, (max 0 (r'.collateralOf b - r.collateralOf b) + owed r m mark rate b) :=
        Finset.sum_add_distrib.symm
      _ = ∑ b : AccountId, max 0 (r.collateralOf b - r'.collateralOf b) := by
        apply Finset.sum_congr rfl
        intro b _
        rw [paid]
        omega
  · rw [paid] at pays ⊢
    have owes : 0 < fundingOwed mark.val rate.val (r.holding b m) := by
      change 0 < owed r m mark rate b
      omega
    rw [sub_sub_cancel]
    exact fundingOwed_le owes

/-- The loop settles every holder, or overflows. -/
theorem fundHolders_end {m : MarketId} (healthy : Healthy e)
    (indexed : e.risk.Indexed) (exact : e.risk.Exact) (mark : Price) (rate : Ratio) :
    Ends ((e.risk.holders m).keys.foldlM (fundHolder m mark rate) ⟨e, I128.zero, I128.zero⟩)
      (fun s => Keeps e s.engine ∧ Funds e m mark rate (e.risk.holders m).keys s) IsOverflow := by
  have start : Keeps e e ∧ Funds e m mark rate [] ⟨e, I128.zero, I128.zero⟩ :=
    ⟨.refl e, rfl, .refl _, exact, rfl, fun b => (sub_zero _).symm, rfl, rfl⟩
  refine foldlM_ends (P := fun seen s => Keeps e s.engine ∧ Funds e m mark rate seen s)
    (s := ⟨e, I128.zero, I128.zero⟩) start ?_
  rintro seen account rest s whole ⟨kept, funds⟩
  have listed : account ∈ (e.risk.holders m).keys := by simp [whole]
  obtain ⟨⟨⟩, holds⟩ := mem_keys.1 listed
  have held := (indexed.exact m account).1 holds
  have fresh : account ∉ seen := by
    have distinct := keys_nodup (e.risk.holders m)
    rw [whole, nodup_append'] at distinct
    exact fun again => distinct.2.2 again mem_cons_self
  apply (fundHolder_ends (kept.healthy healthy) indexed held fresh funds).and_eq.mono
  rintro s' ⟨done, funds'⟩
  exact ⟨kept.trans (fundHolder_keeps done), funds'⟩

/-- The residual is not negative, so it goes to the insurance fund. -/
theorem fundResidual_ends {residual : Amount} (nonneg : 0 ≤ residual.val) :
    Ends (fundResidual r residual)
      (fun r' => ∃ insurance : Amount, insurance.val = r.insurance.val + residual.val ∧
        r' = { r with insurance := insurance }) IsOverflow := by
  rw [fundResidual]
  split_ifs with positive
  · apply liftRisk_ends
    rw [fundInsurance, require_of nonneg]
    apply (arith_ends (checkedAdd r.insurance residual)).bind
    intro insurance sum
    exact ⟨insurance, checkedAdd_eq_ok.1 sum, rfl⟩
  · exact ⟨r.insurance, by omega, rfl⟩

/-- An epoch with the expected number overflows, fails for a negative residual, or is a closed
transfer. -/
theorem applyFundingEpoch_ends (healthy : Healthy e)
    (indexed : e.risk.Indexed) (exact : e.risk.Exact) (listed : e.markets.get? c.market = some info)
    (perpetual : info.marketType = .perpetual)
    (next : c.epoch.val = min (2 ^ 64 - 1) (info.lastFundingEpoch.val + 1)) :
    Ends (e.applyFundingEpoch c)
      (fun out => 0 ≤ fundingResidual e.risk c.market info.markPrice c.rate ∧
        FundingTransfer e.risk out.1.risk c.market info.markPrice c.rate)
      fun err => IsOverflow err ∨ fundingResidual e.risk c.market info.markPrice c.rate < 0 := by
  have plain : isClaimMarket info.marketType = false := by
    rw [perpetual]
    rfl
  rw [applyFundingEpoch, listed, orError, ok_bind, require_of plain, require_of next]
  have kept := recordEpoch_keeps listed c.epoch
  have healthy' := kept.healthy healthy
  apply ((fundHolders_end healthy' indexed exact info.markPrice c.rate).mono_error
    fun _ => .inl).bind
  rintro s ⟨keeps, funds⟩
  apply ((liftArith_ends (checkedSub s.collected s.distributed)).mono_error fun _ => .inl).bind
  intro residual difference
  rw [checkedSub_eq_ok] at difference
  have total : residual.val = fundingResidual e.risk c.market info.markPrice c.rate := by
    rw [difference, funds.collected, funds.distributed,
      sum_holders indexed (f := fun q => max 0 q) rfl,
        sum_holders indexed (f := fun q => max 0 (-q)) rfl,
      ← Finset.sum_sub_distrib, fundingResidual_eq indexed.fits]
    apply Finset.sum_congr rfl
    intro b _
    omega
  by_cases nonneg : 0 ≤ residual.val
  case neg =>
    rw [require, if_neg nonneg]
    exact .inr (by omega)
  rw [require_of nonneg]
  apply ((fundResidual_ends nonneg).mono_error fun _ => .inl).bind
  rintro risk ⟨insurance, grown, rfl⟩
  have described : s.engine.markets.get? c.market =
      some { info with lastFundingEpoch := c.epoch } := by
    rw [funds.listed]
    exact get?_insert_self _ _ _
  obtain ⟨e₂, committed⟩ := commitMarket_returns
    (e := { s.engine with risk := { s.engine.risk with insurance := insurance } }) described
    ((keeps.healthy healthy').rooted.markets _ _ described)
  rw [committed]
  obtain ⟨tree, leaf, rfl, -⟩ := commitMarket_ok committed
  have paid : ∀ b, ({ s.engine.risk with insurance := insurance } : RiskEngine).collateralOf b =
      e.risk.collateralOf b - owed e.risk c.market info.markPrice c.rate b := by
    intro b
    refine (funds.collateral b).trans ?_
    split_ifs with holder
    · rfl
    · rw [owed_of_not_holder indexed holder]
  rw [total] at nonneg grown
  rw [funds.insurance] at grown
  exact ⟨nonneg, fundingTransfer_of indexed.fits funds.still.size paid grown nonneg⟩

/-- An epoch with a later sequence number ends as its handler does. -/
theorem execute_applyFundingEpoch (later : ∀ last ∈ e.lastSeq, last < seq) (c : ApplyFundingEpoch) :
    e.execute seq (.applyFundingEpoch c) =
      match (e.opened seq none).applyFundingEpoch c with
      | .ok (txn, kind) => some (.ok (txn.receipt seq kind), txn)
      | .error err => some (.error err, e) := by
  have next : e.execute seq (.applyFundingEpoch c) = e.executeNext seq (.applyFundingEpoch c) := by
    rw [execute]
    cases last : e.lastSeq with
    | none => rfl
    | some n => exact if_neg (not_le.2 (later n last))
  rw [next]
  change e.transact seq (.applyFundingEpoch c) none = _
  rw [transact, apply]
  cases (e.opened seq none).applyFundingEpoch c <;> rfl

/-- In a reachable state, an epoch that does not overflow is a closed transfer exactly when what all
accounts owe does not sum below zero. -/
theorem funding_closed (reached : Reachable sha256 config e)
    (listed : e.markets.get? c.market = some info) (perpetual : info.marketType = .perpetual)
    (next : c.epoch.val = min (2 ^ 64 - 1) (info.lastFundingEpoch.val + 1))
    (later : ∀ last ∈ e.lastSeq, last < seq)
    (fits : ∀ err e', e.execute seq (.applyFundingEpoch c) = some (.error err, e') →
      ¬ IsOverflow err) :
    (∃ receipt e', e.execute seq (.applyFundingEpoch c) = some (.ok receipt, e') ∧
        FundingTransfer e.risk e'.risk c.market info.markPrice c.rate) ↔
      0 ≤ fundingResidual e.risk c.market info.markPrice c.rate := by
  have netted := reached.netted
  have exact' := reached.follows.1.exact (new_netted config.risk) (new_exact config.risk)
  have ends := applyFundingEpoch_ends (e := e.opened seq none) (reached.healthy.opened seq none)
    netted.indexed exact' listed perpetual next
  rw [execute_applyFundingEpoch later] at fits ⊢
  cases done : (e.opened seq none).applyFundingEpoch c with
  | ok out =>
    obtain ⟨nonneg, transfer⟩ := ends.of_ok done
    exact iff_of_true ⟨_, _, rfl, transfer⟩ nonneg
  | error err =>
    rw [done] at fits
    have negative := (ends.of_error done).resolve_left (fits err e rfl)
    refine iff_of_false ?_ (not_le.2 negative)
    rintro ⟨receipt, e', ⟨⟩, -⟩

/-- One short of 150 micro-units against three longs of 50, at a price of one. -/
def dustRun : List (U64 × Command) :=
  [(1, .createAccount ⟨micros 1000000000⟩), (2, .createAccount ⟨micros 1000000000⟩),
    (3, .createAccount ⟨micros 1000000000⟩), (4, .createAccount ⟨micros 1000000000⟩),
    (5, .createMarket ⟨0, .perpetual, 0, units 1000000⟩),
    (6, .placeOrder (limitOrder 0 0 1 .ask 1000000 150)),
    (7, .placeOrder (limitOrder 1 0 2 .bid 1000000 50)),
    (8, .placeOrder (limitOrder 2 0 3 .bid 1000000 50)),
    (9, .placeOrder (limitOrder 3 0 4 .bid 1000000 50))]

/-- At one percent every long owes half a micro-unit and is skipped, the short is to receive one,
and the epoch fails. -/
theorem funding_stuck : ∃ e e', Reachable flatHash smallConfig e ∧
    (e.markets.get? 0).map
      (fun info => (info.marketType, info.markPrice.val, info.lastFundingEpoch)) =
      some (.perpetual, 1000000, 0) ∧ e.risk.openInterest 0 = 0 ∧
    e.execute 10 (.applyFundingEpoch ⟨0, 1, units 10000⟩) =
      some (.error .negativeFundingResidual, e') := by
  obtain ⟨results, e, -, reached, shown⟩ := exists_run flatHash smallConfig dustRun
    (fun _ e => decide ((e.markets.get? 0).map (fun info =>
        (info.marketType, info.markPrice.val, info.lastFundingEpoch)) =
          some (.perpetual, 1000000, 0)) &&
      decide (e.risk.openInterest 0 = 0) &&
      ((e.execute 10 (.applyFundingEpoch ⟨0, 1, units 10000⟩)).any fun r : Outcome flatHash =>
        decide (r.1 = .error .negativeFundingResidual))) (by decide +kernel)
  rw [Bool.and_eq_true, Bool.and_eq_true, decide_eq_true_eq, decide_eq_true_eq,
    Option.any_eq_true] at shown
  obtain ⟨⟨market, nets⟩, ⟨result, e'⟩, executed, failed⟩ := shown
  obtain rfl : result = .error .negativeFundingResidual := of_decide_eq_true failed
  exact ⟨e, e', reached, market, nets, executed⟩

/-- At two percent every long owes one micro-unit, and the epoch is a closed transfer. -/
theorem funding_closed_dustRun : ∃ e receipt e', Reachable flatHash smallConfig e ∧
    e.execute 10 (.applyFundingEpoch ⟨0, 1, units 20000⟩) = some (.ok receipt, e') ∧
    FundingTransfer e.risk e'.risk 0 (units 1000000) (units 20000) := by
  obtain ⟨results, e, -, reached, shown⟩ := exists_run flatHash smallConfig dustRun
    (fun _ e => match e.markets.get? 0 with
      | none => false
      | some info => decide (info.marketType = .perpetual ∧ info.markPrice = units 1000000 ∧
            info.lastFundingEpoch = 0 ∧ e.lastSeq = some 9 ∧
            0 ≤ fundingResidual e.risk 0 (units 1000000) (units 20000)) &&
          (e.execute 10 (.applyFundingEpoch ⟨0, 1, units 20000⟩)).any fun r => returned r.1)
    (by decide +kernel)
  split at shown
  · cases shown
  rename_i info listed
  rw [Bool.and_eq_true, decide_eq_true_eq, Option.any_eq_true] at shown
  obtain ⟨⟨perpetual, mark, epoch, last, nonneg⟩, ⟨result, e'⟩, executed, succeeded⟩ := shown
  obtain ⟨receipt, rfl⟩ := returned_eq_true.1 succeeded
  have next : ((⟨0, 1, units 20000⟩ : ApplyFundingEpoch).epoch).val =
      min (2 ^ 64 - 1) (info.lastFundingEpoch.val + 1) := by
    rw [epoch]
    rfl
  have later : ∀ n ∈ e.lastSeq, n < (10 : U64) := by
    rw [last]
    rintro n ⟨⟩
    decide
  have fits : ∀ err e',
      e.execute 10 (.applyFundingEpoch ⟨0, 1, units 20000⟩) = some (.error err, e') →
      ¬ IsOverflow err := by
    intro err e' failed
    simp [executed] at failed
  have closed := funding_closed (c := ⟨0, 1, units 20000⟩) reached listed perpetual next later fits
  rw [mark] at closed
  obtain ⟨receipt, e', executed, transfer⟩ := closed.2 nonneg
  exact ⟨e, receipt, e', reached, executed, transfer⟩

end Engine

end Dexos.Execution
