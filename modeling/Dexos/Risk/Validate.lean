import Dexos.Risk.Rollback

/-!
# Transition invariants

The check that a restored engine has to pass, and that every engine which public operations
reach passes it.

## Implementation notes

The parallel columns of the source are lists of records here, so the check of their lengths has
nothing to compare.
-/

namespace Dexos.Risk

open Foundations Clob List OrdMap

/-- `RiskError::StateInvariant`, raised by a relation that does not hold. -/
def invariant (holds : Prop) [Decidable holds] (reason : String) : Except RiskError Unit :=
  require holds (.stateInvariant reason)

def LiquidationQueue.validateRepresentation (q : LiquidationQueue) : Except RiskError Unit := do
  let queued ← q.queue.foldlM (fun (seen : OrdMap AccountId Unit) account => do
    invariant (seen.contains account = false) "liquidation FIFO contains a duplicate account"
    return seen.insert account ()) ∅
  invariant
    (queued.size = q.present.size ∧ ∀ account ∈ queued.keys, q.present.contains account = true)
    "liquidation FIFO and membership index disagree"

namespace RiskEngine

variable (e : RiskEngine)

/-- The configuration, the capacities and the global amounts. -/
def validateGlobals : Except RiskError Unit := do
  invariant (0 < e.config.initialMargin.val ∧ 0 < e.config.maintenanceMargin.val ∧
      0 < e.config.maxLeverage.val ∧ e.config.maintenanceMargin.val ≤ e.config.initialMargin.val)
    "risk ratios must be positive and maintenance must not exceed initial margin"
  invariant (0 < e.config.maxAccounts.val ∧ e.config.maxAccounts.val ≤ maxAccountCapacity)
    "configured account capacity must be within the hard resource budget"
  invariant (0 < e.config.maxMarkets.val ∧ e.config.maxMarkets.val ≤ maxMarketCapacity)
    "configured market capacity must be within the hard resource budget"
  invariant (e.maxAccounts = e.config.maxAccounts.val ∧ e.maxMarkets = e.config.maxMarkets.val)
    "effective capacities do not match the configured resource clamps"
  invariant (e.accounts.length ≤ e.maxAccounts ∧ e.markets.length ≤ e.maxMarkets)
    "dense state exceeds its effective capacity"
  invariant (∀ s ∈ e.markets, ∀ cap ∈ s.marketLimit, 0 ≤ cap.val)
    "market notional limits must be non-negative"
  invariant (∀ cap ∈ e.portfolioLimit, 0 ≤ cap.val) "portfolio notional limit must be non-negative"
  invariant (0 ≤ e.insurance.val) "insurance balance must be non-negative"
  invariant (0 ≤ e.socializedTotal.val) "socialized-loss total must be non-negative"

/-- One position of the account in slot `i`, after those of the markets seen so far. -/
def validatePosition (i : Nat) (seen : OrdMap MarketId Unit) (p : PerpPosition) :
    Except RiskError (OrdMap MarketId Unit) := do
  invariant (seen.contains p.market = false) "an account contains duplicate perp markets"
  invariant (p.market.val < e.maxMarkets) "a perp position exceeds the effective market capacity"
  invariant (p.netQty.val ≠ 0 → ∃ b ∈ (e.holders p.market).keys, b.val = i)
    "a non-flat perp position is missing from the holder index"
  return seen.insert p.market ()

/-- The account in slot `i`. -/
def validateAccount (a : Account) (i : Nat) : Except RiskError Unit := do
  invariant (a.isOpen = true → a.used = true) "an open account slot is not marked used"
  if a.used = false then
    invariant (a.marginMode = .isolated ∧ a.collateral = I128.zero ∧ a.perp = [] ∧ a.payout = [] ∧
        a.cached = CachedColumns.zero ∧ a.reservedResting = I128.zero)
      "unused account slots must contain normalized defaults"
  else if a.isOpen = false then
    invariant (a.collateral = I128.zero ∧ a.perp = [] ∧ a.payout = [] ∧
        a.cached = CachedColumns.zero ∧ a.reservedResting = I128.zero)
      "closed account slots must contain normalized balances and positions"
  else do
    invariant (0 ≤ a.reservedResting.val) "resting notional reservation must be non-negative"
    let _ ← a.perp.foldlM (e.validatePosition i) ∅
    let columns ← e.computeColumns a
    invariant (a.cached = columns) "cached account columns disagree with primary risk state"

/-- One entry of the holder index of the market in slot `i`. -/
def validateHolder (i : Nat) (holder : AccountId) : Except RiskError Unit := do
  invariant ((e.slot holder).any (fun a => a.used && a.isOpen) = true)
    "holder index references an unknown or closed account"
  invariant ((e.slot holder).any (fun a =>
      a.perp.any fun p => decide (p.netQty.val ≠ 0 ∧ p.market.val = i)) = true)
    "holder index has no matching non-flat perp position"

def validateTransitionInvariants : Except RiskError Unit := do
  e.validateGlobals
  e.accounts.zipIdx.forM fun x => e.validateAccount x.1 x.2
  e.markets.zipIdx.forM fun x => x.1.holders.keys.forM (e.validateHolder x.2)
  e.liqQueue.validateRepresentation
  e.liqQueue.queue.forM fun account =>
    invariant ((e.slot account).any (fun a => a.used && a.isOpen) = true)
      "liquidation queue references an unknown or closed account"

end RiskEngine

/-! ## Valid engines pass -/

theorem invariant_of {holds : Prop} [Decidable holds] (h : holds) (reason : String) :
    invariant holds reason = .ok () := if_pos h

theorem LiquidationQueue.Valid.validateRepresentation {q : LiquidationQueue} (valid : q.Valid) :
    q.validateRepresentation = .ok () := by
  -- The set of the accounts seen so far.
  obtain ⟨queued, collected, exact⟩ : ∃ queued, q.queue.foldlM
      (fun (seen : OrdMap AccountId Unit) account => do
        invariant (seen.contains account = false) "liquidation FIFO contains a duplicate account"
        return seen.insert account ()) ∅ = .ok queued ∧
      ∀ b, queued.get? b = some () ↔ b ∈ q.queue := by
    apply foldlM_returns
      (P := fun seen (s : OrdMap AccountId Unit) => ∀ b, s.get? b = some () ↔ b ∈ seen)
    · intro b
      simp
    · intro seen account rest s whole so_far
      have fresh : account ∉ seen := by
        have distinct := valid.nodup
        rw [whole, nodup_append] at distinct
        exact fun listed => distinct.2.2 account listed account mem_cons_self rfl
      have absent : s.contains account = false := by
        rw [contains_eq_false, Option.eq_none_iff_forall_ne_some]
        rintro ⟨⟩ found
        exact fresh ((so_far account).1 found)
      refine ⟨s.insert account (), by rw [invariant_of absent]; rfl, fun b => ?_⟩
      rw [get?_insert, mem_append, ← so_far]
      split_ifs with same
      · simp [same]
      · simp [same]
  have same : queued = q.present := by
    ext1 b
    apply Option.ext
    rintro ⟨⟩
    rw [exact, valid.present]
  rw [LiquidationQueue.validateRepresentation, collected, same]
  apply invariant_of
  exact ⟨rfl, fun b listed => contains_iff.2 (mem_keys.1 listed)⟩

namespace RiskEngine

variable {r r' : RiskEngine} {account b : AccountId} {a x : Account} {m : MarketId}

theorem Formed.validateGlobals (formed : r.Formed) : r.validateGlobals = .ok () := by
  have config := formed.config
  have accounts : r.maxAccounts = r.config.maxAccounts.val := by
    have := config.accounts
    rw [maxAccounts]
    omega
  have markets : r.maxMarkets = r.config.maxMarkets.val := by
    have := config.markets
    rw [maxMarkets]
    omega
  rw [RiskEngine.validateGlobals,
    invariant_of ⟨config.initial, config.maintenance, config.leverage, config.ordered⟩, ok_bind,
    invariant_of config.accounts, ok_bind, invariant_of config.markets, ok_bind,
    invariant_of ⟨accounts, markets⟩, ok_bind,
    invariant_of ⟨formed.accountsFit, formed.marketsFit⟩, ok_bind,
    invariant_of formed.capped, ok_bind, invariant_of formed.portfolio, ok_bind,
    invariant_of formed.insurance, ok_bind, invariant_of formed.socialized]

/-- The positions of an account are in distinct markets that list it. -/
theorem Formed.validatePositions (formed : r.Formed) (found : r.slot account = some x) :
    ∃ seen, x.perp.foldlM (r.validatePosition account.val) ∅ = .ok seen := by
  have distinct := formed.indexed.distinct account
  rw [perpOf_eq found] at distinct
  have tidy := formed.tidy account x found
  have fits := formed.marketsFit
  obtain ⟨seen, done, -⟩ : ∃ seen, x.perp.foldlM (r.validatePosition account.val) ∅ = .ok seen ∧
      ∀ n, seen.get? n = some () ↔ n ∈ x.perp.map PerpPosition.market := by
    apply foldlM_returns (P := fun before (s : OrdMap MarketId Unit) =>
      ∀ n, s.get? n = some () ↔ n ∈ before.map PerpPosition.market)
    · intro n
      simp
    · intro before p rest s whole so_far
      have held : p ∈ x.perp := by
        rw [whole]
        exact mem_append_right _ mem_cons_self
      have fresh : s.contains p.market = false := by
        rw [contains_eq_false, Option.eq_none_iff_forall_ne_some]
        rintro ⟨⟩ listed
        rw [whole, map_append, nodup_append] at distinct
        exact distinct.2.2 _ ((so_far _).1 listed) _ mem_cons_self rfl
      have inside := tidy.listed p held
      have indexed : p.netQty.val ≠ 0 → ∃ b ∈ (r.holders p.market).keys, b.val = account.val := by
        intro net
        refine ⟨account, mem_keys.2 ⟨(), (formed.indexed.exact _ _).2 ?_⟩, rfl⟩
        rwa [holding_eq found, holdingOf_of_mem distinct held]
      refine ⟨s.insert p.market (), ?_, fun n => ?_⟩
      · rw [validatePosition, invariant_of fresh, invariant_of (inside.trans_le fits),
          invariant_of indexed]
        rfl
      · rw [get?_insert, map_append, mem_append, ← so_far]
        split_ifs with same
        · simp [same]
        · simp [same]
  exact ⟨seen, done⟩

theorem Valid.validateAccount (valid : r.Valid) (found : r.slot account = some x) :
    r.validateAccount x account.val = .ok () := by
  have tidy := valid.formed.tidy account x found
  have used : x.isOpen = true → x.used = true := by
    have used := valid.formed.indexed.used account
    rwa [openAt_eq found, usedAt_eq found] at used
  rw [RiskEngine.validateAccount, invariant_of used]
  split_ifs with fresh closed
  · apply invariant_of
    rw [tidy.unused fresh]
    exact ⟨rfl, rfl, rfl, rfl, rfl, rfl⟩
  · apply invariant_of
    exact tidy.closed closed
  · obtain ⟨seen, positions⟩ := valid.formed.validatePositions found
    rw [invariant_of tidy.reserved, positions, valid.exact account x found]
    exact invariant_of rfl _

theorem Indexed.any_open (indexed : r.Indexed) (isOpen : r.openAt b = true) :
    (r.slot b).any (fun a => a.used && a.isOpen) = true := by
  have used := indexed.used b isOpen
  rw [openAt, Option.any_eq_true] at isOpen
  obtain ⟨x, found, isOpen⟩ := isOpen
  rw [usedAt_eq found] at used
  rw [found, Option.any_some, used, isOpen]
  rfl

theorem Formed.validateHolder (formed : r.Formed) (listed : b ∈ (r.holders m).keys) :
    r.validateHolder m.val b = .ok () := by
  obtain ⟨⟨⟩, listed⟩ := mem_keys.1 listed
  have held := (formed.indexed.exact m b).1 listed
  obtain ⟨x, found, used, isOpen⟩ := formed.indexed.active held
  rw [RiskEngine.validateHolder,
    invariant_of (formed.indexed.any_open ((openAt_eq found).trans isOpen))]
  apply invariant_of
  rw [holding_eq found] at held
  obtain ⟨p, position, market, amount⟩ := exists_of_holdingOf held
  rw [found, Option.any_some, any_eq_true]
  refine ⟨p, position, ?_⟩
  rw [decide_eq_true_eq]
  exact ⟨amount ▸ held, congrArg Fin.val market⟩

theorem Valid.validates (valid : r.Valid) : r.validateTransitionInvariants = .ok () := by
  have formed := valid.formed
  have fits := formed.indexed.fits
  have accounts : (r.accounts.zipIdx.forM fun x => r.validateAccount x.1 x.2) = .ok () := by
    apply forM_eq_ok.2
    rintro ⟨x, i⟩ listed
    have found := List.mem_zipIdx_iff_getElem?.1 listed
    have inside := (List.getElem?_eq_some_iff.1 found).1
    have there : r.slot ⟨i, inside.trans_le fits⟩ = some x := found
    have checked := valid.validateAccount there
    exact checked
  have markets :
      (r.markets.zipIdx.forM fun x => x.1.holders.keys.forM (r.validateHolder x.2)) = .ok () := by
    apply forM_eq_ok.2
    rintro ⟨s, i⟩ listed
    have found : r.markets[i]? = some s := List.mem_zipIdx_iff_getElem?.1 listed
    have inside := (List.getElem?_eq_some_iff.1 found).1
    have small : i < 2 ^ 32 := by
      have bound := inside.trans_le formed.marketsFit
      rw [maxMarkets, maxMarketCapacity] at bound
      omega
    apply forM_eq_ok.2
    intro b holder
    apply formed.validateHolder (m := ⟨i, small⟩)
    rwa [holders, market, found]
  have queue : (r.liqQueue.queue.forM fun account =>
      invariant ((r.slot account).any (fun a => a.used && a.isOpen) = true)
        "liquidation queue references an unknown or closed account") = .ok () := by
    apply forM_eq_ok.2
    intro b listed
    exact invariant_of (formed.indexed.any_open (formed.queued b listed)) _
  rw [validateTransitionInvariants, formed.validateGlobals, ok_bind, accounts, ok_bind, markets,
    ok_bind, formed.queue.validateRepresentation, ok_bind, queue]

/-! ## Every run -/

/-- Whatever operations ran, the caches and the indexes are exact, and an operation that fails
changes nothing. -/
theorem caches_exact {config : RiskConfig} (valid : config.Valid) (path : Performed config r) :
    r.validateTransitionInvariants = .ok () ∧
      ∀ op err, (r.perform op).1 = .error err → (r.perform op).2 = r := by
  have reached := path.valid valid
  exact ⟨reached.validates, fun op err failed => (perform_atomic reached op).unchanged failed⟩

theorem Performed.foldl {config : RiskConfig} (path : Performed config r) (ops : List RiskOp) :
    Performed config (ops.foldl (fun e op => (e.perform op).2) r) := by
  induction ops generalizing r with
  | nil => exact path
  | cons op ops ih => exact ih (path.step op)

/-- Two accounts of four, at margins of 10% and 5%. -/
def pairConfig : RiskConfig :=
  ⟨units 100000, units 50000, units 10000000, 4, 2⟩

/-- Two accounts trade; a fill in a market beyond the capacity is refused on the way. -/
def pairTrades : RiskEngine :=
  [RiskOp.openAccount 0 (micros 1000000000), .openAccount 1 (micros 1000000000),
    .setMarkPrice 0 (units 10000000), .applyFill 0 0 (units 3000000) (units 10000000),
    .applyFill 0 7 (units 3000000) (units 10000000),
    .applyFill 1 0 (units (-3000000)) (units 10000000)].foldl
    (fun e op => (e.perform op).2) (new pairConfig)

theorem caches_exact_pairTrades :
    pairConfig.Valid ∧ pairTrades.holding 0 0 = 3000000 ∧
      (pairTrades.perform (.debitCollateral 0 ⟨1000000000, by decide⟩)).1 =
        .error .insufficientCollateral ∧ pairTrades.validateTransitionInvariants = .ok () ∧
      ∀ op err, (pairTrades.perform op).1 = .error err →
        (pairTrades.perform op).2 = pairTrades := by
  have valid : pairConfig.Valid :=
    ⟨by decide, by decide, by decide, by decide, by decide, by decide⟩
  exact ⟨valid, by decide +kernel, by decide +kernel, caches_exact valid (Performed.new.foldl _)⟩

end RiskEngine

end Dexos.Risk
