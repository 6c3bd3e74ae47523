import Dexos.Risk.OpenInterest

/-!
# Exact columns

The cached columns of every account are what a recomputation from its collateral, its positions
and the marks would give. Operations recompute the accounts they touch; a mark move recomputes the
holders that the index lists, and the columns of everybody else do not depend on the mark.
-/

namespace Dexos.Risk

open Foundations Clob List Scalar PerpPosition

namespace RiskEngine

variable {r r' : RiskEngine} {account : AccountId} {a x : Account} {m : MarketId}

/-! ## What the columns depend on -/

/-- The columns depend on the configuration and on the values and groups of the positions. -/
theorem computeColumns_congr (config : r'.config = r.config)
    (values : ∀ p ∈ a.perp, p.unrealized (r'.valuation p) = p.unrealized (r.valuation p) ∧
      p.signedNotional (r'.valuation p) = p.signedNotional (r.valuation p))
    (groups : ∀ p ∈ a.perp, r'.groupOf p.market = r.groupOf p.market) :
    r'.computeColumns a = r.computeColumns a := by
  have equity : r'.computeEquity a = r.computeEquity a := by
    apply foldlM_congr
    intro p held sum
    rw [(values p held).1]
  have isolated : r'.isolatedExposure a = r.isolatedExposure a := by
    apply foldlM_congr
    intro p held sum
    rw [exposure, exposure, (values p held).2]
  have cross : r'.crossExposure a = r.crossExposure a := by
    rw [crossExposure, crossExposure, foldlM_congr]
    intro p held sum
    rw [groups p held, (values p held).2]
  rw [computeColumns, computeColumns, config, equity, computeExposure, computeExposure, isolated,
    cross]

/-- Two engines with the same configuration, marks and groups. -/
structure SameView (r r' : RiskEngine) : Prop where
  config : r'.config = r.config
  marks : ∀ m, r'.markFor m = r.markFor m
  groups : ∀ m, r'.groupOf m = r.groupOf m

namespace SameView

theorem refl (r : RiskEngine) : SameView r r := ⟨rfl, fun _ => rfl, fun _ => rfl⟩

theorem trans {r'' : RiskEngine} (first : SameView r r') (second : SameView r' r'') :
    SameView r r'' where
  config := second.config.trans first.config
  marks m := (second.marks m).trans (first.marks m)
  groups m := (second.groups m).trans (first.groups m)

theorem columns (same : SameView r r') (a : Account) :
    r'.computeColumns a = r.computeColumns a := by
  have values : ∀ p, r'.valuation p = r.valuation p := by
    intro p
    rw [valuation, same.marks]
    rfl
  refine computeColumns_congr same.config (fun p _ => ?_) fun p _ => same.groups p.market
  rw [values]
  exact ⟨rfl, rfl⟩

theorem setSlot (r : RiskEngine) (account : AccountId) (a : Account) :
    SameView r (r.setSlot account a) :=
  ⟨rfl, fun _ => rfl, fun _ => rfl⟩

theorem growMarket (done : r.growMarket m = .ok r') : SameView r r' := by
  refine ⟨?_, growMarket_markFor done, fun n => ?_⟩
  · simp only [RiskEngine.growMarket, ok_iff] at done
    obtain ⟨-, -, rfl⟩ := done
    rfl
  · simp only [RiskEngine.growMarket, ok_iff] at done
    obtain ⟨-, -, rfl⟩ := done
    rw [groupOf, groupOf, market, market, getElem?_append]
    split_ifs with inside
    · rfl
    · rw [getElem?_eq_none (not_lt.1 inside), getElem?_replicate]
      split_ifs <;> rfl

theorem modifyMarket {f : MarketSlot → MarketSlot} (marks : ∀ s, (f s).mark = s.mark)
    (groups : ∀ s, (f s).riskGroup = s.riskGroup) (m : MarketId) :
    SameView r (r.modifyMarket m f) := by
  refine ⟨rfl, modifyMarket_markFor marks, fun n => ?_⟩
  rw [groupOf, groupOf, market, market, RiskEngine.modifyMarket, getElem?_modify]
  cases r.markets[n.val]? with
  | none => rfl
  | some s =>
    split_ifs
    · simp [groups s]
    · rfl

theorem syncMarketHolder {holds : Bool} (done : r.syncMarketHolder account m holds = .ok r') :
    SameView r r' := by
  simp only [RiskEngine.syncMarketHolder, ok_iff] at done
  obtain ⟨grown, grew, rfl⟩ := done
  refine (growMarket grew).trans (modifyMarket ?_ ?_ m)
  · exact fun s => rfl
  · exact fun s => rfl

end SameView

/-! ## Exactness -/

/-- The cached columns of every slot are exact. -/
def Exact (r : RiskEngine) : Prop := ∀ b x, r.slot b = some x → r.computeColumns x = .ok x.cached

theorem new_exact (config : RiskConfig) : (new config).Exact := by
  rintro b x ⟨⟩

theorem Exact.store (exact : r.Exact) (found : r.slot account = some x)
    (done : r.store account a = .ok r') : r'.Exact := by
  obtain ⟨cached, computed, rfl⟩ := store_eq_ok.1 done
  intro b y at_b
  rw [slot_setSlot found] at at_b
  split_ifs at at_b with same
  · cases at_b
    exact computed
  · exact exact b y at_b

theorem Exact.setSlot (exact : r.Exact) (found : r.slot account = some x)
    (columns : r.computeColumns a = r.computeColumns x) (cached : a.cached = x.cached) :
    (r.setSlot account a).Exact := by
  intro b y at_b
  rw [(SameView.setSlot r account _).columns]
  rw [slot_setSlot found] at at_b
  split_ifs at at_b with same
  · cases at_b
    rw [columns, cached]
    exact exact account x found
  · exact exact b y at_b

theorem Exact.sameView (exact : r.Exact) (same : SameView r r')
    (accounts : r'.accounts = r.accounts) : r'.Exact := by
  intro b y at_b
  rw [slot, accounts] at at_b
  rw [same.columns]
  exact exact b y at_b

theorem Exact.fill {qty : Quantity} {price : Price} (exact : r.Exact)
    (done : r.fillIndex account m qty price = .ok r') : r'.Exact := by
  simp only [fillIndex, ok_iff] at done
  obtain ⟨a, found, filled, -, collateral, -, synced, sync, stored⟩ := done
  obtain ⟨accounts, -⟩ := syncMarketHolder_ok sync
  have found' : synced.slot account = some a := by rwa [slot, accounts]
  exact (exact.sameView (.syncMarketHolder sync) accounts).store found' stored

/-! ## Marks -/

/-- A flat position without entry price is worth nothing at any price. -/
theorem flat_values {p : PerpPosition} (flat : p.netQty.val = 0) (zeroed : p.avgEntry.val = 0)
    (price price' : Price) : p.unrealized price = p.unrealized price' ∧
      p.signedNotional price = p.signedNotional price' := by
  have nothing : ∀ price : Price, Price.notional price p.netQty = I128.zero := by
    intro price
    apply Subtype.ext
    rw [Price.notional_val, flat, mul_zero]
    rfl
  have worth : ∀ price : Price, p.unrealized price = .ok I128.zero := by
    intro price
    obtain ⟨diff, sub⟩ :=
      @Scalar.exists_checkedSub (-2 ^ 63) (2 ^ 63 - 1) price p.avgEntry (by omega)
      (by omega)
    rw [unrealized, sub]
    exact congrArg Except.ok (nothing diff)
  rw [worth, worth, signedNotional, signedNotional, nothing, nothing]
  exact ⟨rfl, rfl⟩

/-- Recomputing some accounts makes their columns exact and leaves the others alone. -/
theorem recompute_all_ok {accounts : List AccountId} (done : accounts.foldlM recompute r = .ok r') :
    SameView r r' ∧ (∀ b ∉ accounts, r'.slot b = r.slot b) ∧
      ∀ b ∈ accounts, ∀ x, r'.slot b = some x → r.computeColumns x = .ok x.cached := by
  refine foldlM_induction (P := fun seen s => SameView r s ∧ (∀ b ∉ seen, s.slot b = r.slot b) ∧
    ∀ b ∈ seen, ∀ x, s.slot b = some x → r.computeColumns x = .ok x.cached)
    ⟨.refl r, fun _ _ => rfl, by simp⟩ ?_ done
  rintro seen b rest s s' - ⟨same, others, exact⟩ step
  rw [recompute] at step
  cases found : s.slot b with
  | none =>
    rw [found] at step
    cases step
    exact ⟨same, fun c outside => others c fun listed => outside (mem_append_left _ listed),
      forall_mem_snoc.2 ⟨exact, by simp [found]⟩⟩
  | some y =>
    rw [found] at step
    obtain ⟨cached, computed, rfl⟩ := store_eq_ok.1 step
    refine ⟨same.trans (.setSlot s b _), fun c outside => ?_, fun c listed x at_c => ?_⟩
    · rw [mem_append, mem_singleton, not_or] at outside
      rw [slot_setSlot found, if_neg outside.2]
      exact others c outside.1
    · rw [slot_setSlot found] at at_c
      split_ifs at at_c with here
      · cases at_c
        rwa [← same.columns]
      · rw [mem_append, mem_singleton] at listed
        exact exact c (listed.resolve_right here) x at_c

/-- The columns of an account that holds nothing in a market do not depend on its mark. -/
theorem Indexed.columns_of_flat (indexed : r.Indexed) {b : AccountId} (found : r.slot b = some x)
    (flat : r.holding b m = 0) (config : r'.config = r.config)
    (marks : ∀ n, n ≠ m → r'.markFor n = r.markFor n) (groups : ∀ n, r'.groupOf n = r.groupOf n) :
    r'.computeColumns x = r.computeColumns x := by
  have distinct := indexed.distinct b
  have zeroed := indexed.zeroed b
  rw [perpOf_eq found] at distinct zeroed
  refine computeColumns_congr config (fun p held => ?_) fun p _ => groups p.market
  by_cases here : p.market = m
  · have still : p.netQty.val = 0 := by
      rw [← holdingOf_of_mem distinct held, here, ← holding_eq found, flat]
    exact flat_values still (zeroed p held still) _ _
  · have same : r'.valuation p = r.valuation p := by
      rw [valuation, marks _ here]
      rfl
    rw [same]
    exact ⟨rfl, rfl⟩

theorem Exact.setMarkPrice {price : Price} (exact : r.Exact) (indexed : r.Indexed)
    (done : r.setMarkPrice m price = .ok r') : r'.Exact := by
  have moved := setMarkPrice_markFor done
  simp only [RiskEngine.setMarkPrice, bind_eq_ok] at done
  obtain ⟨grown, grew, refreshed⟩ := done
  obtain ⟨accounts, index, inside⟩ := growMarket_ok grew
  have view := SameView.growMarket grew
  obtain ⟨same, others, recomputed⟩ := recompute_all_ok refreshed
  have keys : ∀ b,
      b ∈ ((grown.modifyMarket m fun s => { s with mark := some price }).holders m).keys ↔
      r.holding b m ≠ 0 := by
    intro b
    rw [holders_modifyMarket inside, if_pos rfl, OrdMap.mem_keys, ← indexed.exact]
    have kept : ((grown.market m).map fun s : MarketSlot => s.holders).getD ∅ = r.holders m := by
      rw [← index]
      rfl
    rw [kept]
    exact ⟨by rintro ⟨⟨⟩, h⟩; exact h, fun h => ⟨(), h⟩⟩
  have groups : ∀ n, r'.groupOf n = r.groupOf n := by
    intro n
    rw [same.groups, ← view.groups, groupOf, groupOf, market, market, modifyMarket, getElem?_modify]
    cases grown.markets[n.val]? with
    | none => rfl
    | some s => split_ifs <;> rfl
  intro b x at_b
  by_cases held : r.holding b m = 0
  · have outside := others b fun listed => (keys b).1 listed held
    have found : r.slot b = some x := by
      rw [outside] at at_b
      rwa [slot, ← accounts]
    rw [indexed.columns_of_flat found held (same.config.trans view.config)
      (fun n other => (moved n).trans (if_neg other)) groups]
    exact exact b x found
  · rw [same.columns]
    exact recomputed b ((keys b).2 held) x at_b

/-! ## Accounts -/

/-- The columns of an account that has collateral alone. -/
theorem bare_columns (r : RiskEngine) (perp : x.perp = []) (payout : x.payout = []) :
    r.computeColumns x = .ok { CachedColumns.zero with equity := x.collateral } := by
  have margin : ∀ ratio : Ratio, Amount.mulRatioCeil I128.zero ratio = .ok I128.zero := by
    intro ratio
    have product : (Bounded.narrow (I128.zero.val * ratio.val) : Option I128) = some I128.zero := by
      apply Bounded.narrow_eq_some.2
      exact (zero_mul _).symm
    rw [Amount.mulRatioCeil, product]
    rfl
  have equity : r.computeEquity x = .ok x.collateral := by
    rw [computeEquity, perp]
    rfl
  have exposure : r.computeExposure x = .ok I128.zero := by
    rw [computeExposure, isolatedExposure, crossExposure, perp]
    cases x.marginMode <;> rfl
  have scenario : computeScenario x = .ok I128.zero := by
    rw [computeScenario, payout]
    rfl
  rw [computeColumns, equity, ok_bind, exposure, ok_bind, scenario, margin, margin]
  rfl

/-- The columns of an account that has nothing are zero. -/
theorem empty_columns (r : RiskEngine) (collateral : x.collateral = I128.zero) (perp : x.perp = [])
    (payout : x.payout = []) : r.computeColumns x = .ok CachedColumns.zero := by
  rw [bare_columns r perp payout, collateral]
  rfl

theorem Exact.openAccount {collateral : Amount} (exact : r.Exact)
    (done : r.openAccount account collateral = .ok r') : r'.Exact := by
  simp only [RiskEngine.openAccount, bind_eq_ok] at done
  obtain ⟨-, -, grown, grew, -, -, stored⟩ := done
  obtain ⟨-, -, slots, ⟨x, found⟩, markets, config⟩ := growAccounts_ok grew
  have view : SameView r grown := by
    refine ⟨config, fun m => ?_, fun m => ?_⟩
    · rw [markFor, market, markets]
      rfl
    · rw [groupOf, market, markets]
      rfl
  have grownExact : grown.Exact := by
    intro b y at_b
    rw [view.columns]
    obtain same | ⟨-, fresh⟩ := slots b
    · exact exact b y (same ▸ at_b)
    · rw [fresh] at at_b
      cases at_b
      exact empty_columns r rfl rfl rfl
  exact grownExact.store found stored

theorem Quiet.exact (done : Quiet r r') (exact : r.Exact) : r'.Exact := by
  cases done with
  | none => exact exact
  | stored found _ _ _ _ _ stored => exact exact.store found stored
  | reserved found => exact exact.setSlot found rfl rfl
  | funded => exact exact.sameView ⟨rfl, fun _ => rfl, fun _ => rfl⟩ rfl

theorem Trade.exact (done : Trade r r') (exact : r.Exact) : r'.Exact := by
  obtain quiet | ⟨_, _, _, _, _, _, r₁, -, first, second⟩ := done.quiet_or_pair
  · exact quiet.exact exact
  · simp only [applyFill, bind_eq_ok] at first second
    obtain ⟨-, -, first⟩ := first
    obtain ⟨-, -, second⟩ := second
    exact (exact.fill first).fill second

/-! ## Liquidation -/

variable {victim : AccountId}

theorem Exact.closeAccount (exact : r.Exact)
    (done : r.closeAccount victim = .ok r') : r'.Exact := by
  simp only [RiskEngine.closeAccount, ok_iff] at done
  obtain ⟨x, found, e, stored, rfl⟩ := done
  have view : SameView r (r.leaveMarkets victim) := by
    refine ⟨rfl, fun m => ?_, fun m => ?_⟩
    · rw [markFor, markFor, market, market, leaveMarkets, getElem?_map]
      cases r.markets[m.val]? <;> rfl
    · rw [groupOf, groupOf, market, market, leaveMarkets, getElem?_map]
      cases r.markets[m.val]? <;> rfl
  have left : (r.leaveMarkets victim).Exact := exact.sameView view rfl
  have closed : e.Exact := left.store (x := x) found stored
  exact closed.sameView ⟨rfl, fun _ => rfl, fun _ => rfl⟩ rfl

theorem Turns.exact (turns : Turns r r') (exact : r.Exact) : r'.Exact := by
  induction turns with
  | refl => exact exact
  | tail _ last ih =>
    cases last with
    | quiet done => exact done.exact ih
    | filled _ done => exact ih.fill done

theorem Exact.liquidate {out : LiquidationOutcome} (exact : r.Exact)
    (done : r.liquidate victim = .ok (r', out)) : r'.Exact := by
  obtain ⟨mid, turns, -, closed⟩ := liquidate_turns done
  exact (turns.exact exact).closeAccount closed

theorem Act.exact (done : Act r r') (indexed : r.Indexed) (exact : r.Exact) : r'.Exact := by
  cases done with
  | trade done => exact done.exact exact
  | opened done => exact exact.openAccount done
  | marked done => exact exact.setMarkPrice indexed done
  | liquidated marked done => exact exact.liquidate done

theorem Path.exact (path : Path r r') (netted : r.Netted) (exact : r.Exact) : r'.Exact := by
  induction path with
  | refl => exact exact
  | tail before last ih => exact last.exact (Path.netted before netted).indexed ih

/-! ## Changes of collateral -/

/-- The collateral of an account, zero for a slot beyond the slab. -/
def collateralOf (r : RiskEngine) (b : AccountId) : Int :=
  weightOf (fun a => a.collateral.val) (r.slot b)

/-- All collateral and the insurance fund. -/
def backing (r : RiskEngine) : Int :=
  (r.accounts.map fun a => a.collateral.val).sum + r.insurance.val

theorem backing_eq (fits : r.accounts.length ≤ 2 ^ 32) :
    r.backing = (∑ b : AccountId, r.collateralOf b) + r.insurance.val := by
  rw [backing, sum_slots fits]
  rfl

/-- An error of the fixed-point arithmetic. -/
def IsArith (err : RiskError) : Prop := ∃ x, err = .arith x

theorem arith_ends {α : Type} (x : Except ArithError α) : Ends (arith x) (x = .ok ·) IsArith := by
  cases x with
  | ok v => exact rfl
  | error err => exact ⟨err, rfl⟩

/-- The equity of an account can only overflow. -/
theorem computeEquity_ends (r : RiskEngine) (a : Account) :
    Ends (r.computeEquity a) (fun _ => True) IsArith := by
  apply foldlM_ends (P := fun _ (_ : Amount) => True) trivial
  intro seen p rest sum _ _
  apply ((arith_ends (checkedSub (r.valuation p) p.avgEntry)).bind (R := fun _ => True) ?_).bind
  · intro u _
    exact (arith_ends (checkedAdd sum u)).mono fun _ _ => trivial
  · intro diff _
    exact trivial

/-- A change of collateral recomputes the equity alone, so it can only overflow. -/
theorem setCollateral_ends (exact : r.Exact) (found : r.slot account = some x)
    (collateral : Amount) : Ends (r.setCollateral account x collateral)
      (fun r' => ∃ cached,
        r' = r.setSlot account { x with collateral := collateral, cached := cached })
      IsArith := by
  have before := exact account x found
  simp only [computeColumns, ok_iff] at before
  obtain ⟨-, -, exposure, exposed, scenario, worst, initial, first, im, second, maintenance, third,
    mm, fourth, -⟩ := before
  have exposed' : r.computeExposure { x with collateral := collateral } = .ok exposure := exposed
  have worst' : computeScenario { x with collateral := collateral } = .ok scenario := worst
  have columns : Ends (r.computeColumns { x with collateral := collateral })
      (fun _ => True) IsArith := by
    apply (computeEquity_ends r { x with collateral := collateral }).bind
    intro equity _
    rw [exposed', ok_bind, worst', ok_bind, first, ok_bind, second, ok_bind, third, ok_bind, fourth]
    exact trivial
  apply columns.bind
  intro cached _
  exact ⟨cached, rfl⟩

theorem applyFunding_ends {amount : Amount} (exact : r.Exact) (found : r.slot account = some x)
    (used : x.used = true) (isOpen : x.isOpen = true) :
    Ends (r.applyFunding account amount)
      (fun r' => ∃ collateral cached, collateral.val = x.collateral.val + amount.val ∧
        r' = r.setSlot account { x with collateral := collateral, cached := cached }) IsArith := by
  rw [applyFunding, active_eq_ok.2 ⟨found, used, isOpen⟩]
  apply (arith_ends (checkedAdd x.collateral amount)).bind
  intro updated sum
  apply (setCollateral_ends exact found updated).mono
  rintro r' ⟨cached, rfl⟩
  exact ⟨updated, cached, checkedAdd_eq_ok.1 sum, rfl⟩

theorem collateralOf_eq (found : r.slot account = some x) :
    r.collateralOf account = x.collateral.val := by
  rw [collateralOf, found]
  rfl

theorem collateralOf_setSlot (found : r.slot account = some x) (a : Account) (b : AccountId) :
    (r.setSlot account a).collateralOf b =
      if b = account then a.collateral.val else r.collateralOf b := by
  rw [collateralOf, slot_setSlot found]
  split_ifs
  · rfl
  · rfl

end RiskEngine

end Dexos.Risk
