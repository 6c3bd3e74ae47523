import Dexos.Risk.Valid

/-!
# Rollback

Every operation in place either succeeds and leaves a valid engine, or fails and leaves the
engine that it found.
-/

namespace Dexos.Risk

open Foundations Clob List Option OrdMap

namespace RiskEngine

variable {r r' : RiskEngine} {account b : AccountId} {a x : Account} {m : MarketId}
variable {P : RiskEngine → Prop} {f g : Account → Account} {computed : List CachedColumns}

/-- What an operation leaves: `P` after a success, the state before it after a failure. -/
def Atomic (r : RiskEngine) (x : Effect) (P : RiskEngine → Prop) : Prop :=
  match x with
  | (.ok _, r') => P r'
  | (.error _, r') => r' = r

theorem Atomic.after {α : Type} {x : Except RiskError α} {next : α → Effect}
    (rest : ∀ v, x = .ok v → Atomic r (next v) P) : Atomic r (r.after x next) P := by
  cases x with
  | ok v => exact rest v rfl
  | error err => exact rfl

theorem Atomic.mono {Q : RiskEngine → Prop} {x : Effect} (atomic : Atomic r x P)
    (weaker : ∀ r', P r' → Q r') : Atomic r x Q := by
  obtain ⟨_ | _, r'⟩ := x
  · exact atomic
  · exact weaker r' atomic

/-- Either way the state keeps what successes establish. -/
theorem Atomic.kept {x : Effect} (atomic : Atomic r x P) (before : P r) : P x.2 := by
  obtain ⟨_ | _, r'⟩ := x
  · have same : r' = r := atomic
    exact same ▸ before
  · exact atomic

theorem Atomic.unchanged {x : Effect} {err : RiskError} (atomic : Atomic r x P)
    (failed : x.1 = .error err) : x.2 = r := by
  obtain ⟨_ | _, r'⟩ := x
  · exact atomic
  · cases failed

theorem Atomic.commit {x : Except RiskError RiskEngine} (kept : ∀ r', x = .ok r' → P r') :
    Atomic r (r.commit x) P := by
  apply Atomic.after
  exact kept

/-! ## One slot -/

theorem modifySlot_eq (found : r.slot account = some x) (f : Account → Account) :
    r.modifySlot account f = r.setSlot account (f x) := by
  rw [modifySlot, modify_eq_set_getElem?]
  change { r with
    accounts := getD ((r.slot account).map fun x => r.accounts.set account.val (f x)) _ } = _
  rw [found]
  rfl

theorem slot_modifySlot (found : r.slot account = some x) :
    (r.modifySlot account f).slot account = some (f x) := by
  rw [modifySlot_eq found, slot_setSlot found, if_pos rfl]

theorem modifySlot_modifySlot (r : RiskEngine) (account : AccountId) (f g : Account → Account) :
    (r.modifySlot account f).modifySlot account g = r.modifySlot account (g ∘ f) := by
  exact congrArg (fun l => { r with accounts := l }) (modify_modify_eq ..)

theorem modifySlot_undo (found : r.slot account = some x) (restores : g (f x) = x) :
    (r.modifySlot account f).modifySlot account g = r := by
  rw [modifySlot_modifySlot, modifySlot_eq found, Function.comp_apply, restores, setSlot]
  have inside := slot_lt found
  have stored : r.accounts[account.val] = x :=
      some.inj ((getElem?_eq_getElem inside).symm.trans found)
  rw [← stored, set_getElem_self]

theorem setSlot_setSlot (r : RiskEngine) (account : AccountId) (x a : Account) :
    (r.setSlot account x).setSlot account a = r.setSlot account a := by
  exact congrArg (fun l => { r with accounts := l }) (set_set ..)

theorem recompute_modifySlot (found : r.slot account = some x) :
    (r.modifySlot account f).recompute account = r.store account (f x) := by
  rw [recompute, slot_modifySlot found, modifySlot_eq found]
  change (r.setSlot account (f x)).store account (f x) = _
  rw [store, store, (SameView.setSlot r account (f x)).columns]
  simp only [setSlot_setSlot]

/-- A change of a slot that is undone when the columns overflow. -/
theorem Atomic.change (found : r.slot account = some x) (restores : g (f x) = x)
    (kept : ∀ r', r.store account (f x) = .ok r' → P r') :
    Atomic r (orUndo (InPlace.recompute (r.modifySlot account f) account)
      fun e => e.modifySlot account g) P := by
  rw [InPlace.recompute, recompute_modifySlot found]
  cases stored : r.store account (f x) with
  | ok r' => exact kept r' stored
  | error err => exact modifySlot_undo found restores

theorem Quiet.valid (done : Quiet r r') (valid : r.Valid) : r'.Valid :=
  ⟨done.formed valid.formed, done.exact valid.exact⟩

theorem Valid.store (valid : r.Valid) (active : r.active account = .ok x)
    (isOpen : a.isOpen = x.isOpen) (used : a.used = x.used) (perp : a.perp = x.perp)
    (reserved : a.reservedResting = x.reservedResting)
    (done : r.store account a = .ok r') : r'.Valid := by
  obtain ⟨found, -, opened⟩ := active_eq_ok.1 active
  exact Quiet.valid (.stored found opened perp isOpen used reserved done) valid

section

variable (valid : r.Valid) (account)
include valid

theorem setMarginMode_atomic (mode : MarginMode) :
    Atomic r (InPlace.setMarginMode r account mode) Valid := by
  apply Atomic.after
  intro x active
  apply Atomic.change (active_eq_ok.1 active).1 rfl
  intro r' stored
  exact valid.store (a := { x with marginMode := mode }) active rfl rfl rfl rfl stored

variable {account} in
theorem setCollateral_atomic (active : r.active account = .ok x) (collateral : Amount) :
    Atomic r (InPlace.setCollateral r account (x, collateral)) Valid := by
  apply Atomic.change (active_eq_ok.1 active).1 rfl
  intro r' stored
  exact valid.store (a := { x with collateral := collateral }) active rfl rfl rfl rfl stored

theorem creditCollateral_atomic (amount : Amount) :
    Atomic r (InPlace.creditCollateral r account amount) Valid := by
  apply Atomic.after
  intro v checked
  simp only [ok_iff] at checked
  obtain ⟨-, -, x, active, updated, -, rfl⟩ := checked
  exact setCollateral_atomic valid active updated

theorem debitCollateral_atomic (amount : Amount) :
    Atomic r (InPlace.debitCollateral r account amount) Valid := by
  apply Atomic.after
  intro v checked
  simp only [ok_iff] at checked
  obtain ⟨-, -, x, active, -, -, -, -, updated, -, rfl⟩ := checked
  exact setCollateral_atomic valid active updated

theorem applyFunding_atomic (amount : Amount) :
    Atomic r (InPlace.applyFunding r account amount) Valid := by
  apply Atomic.after
  intro v checked
  simp only [ok_iff] at checked
  obtain ⟨x, active, updated, -, rfl⟩ := checked
  exact setCollateral_atomic valid active updated

theorem applyFee_atomic (fee : Amount) :
    Atomic r (InPlace.applyFee r account fee) Valid := by
  apply Atomic.after
  intro v checked
  simp only [ok_iff] at checked
  obtain ⟨-, -, x, active, updated, -, rfl⟩ := checked
  exact setCollateral_atomic valid active updated

end

theorem growAccounts_of_inside (inside : account.val < r.accounts.length)
    (done : r.growAccounts account = .ok r') : r' = r := by
  simp only [growAccounts, ok_iff] at done
  obtain ⟨-, -, rfl⟩ := done
  have nothing : account.val + 1 - r.accounts.length = 0 := by omega
  rw [nothing, replicate_zero, append_nil]

/-- Columns of collateral alone cannot overflow, and a slot in use was there before. -/
theorem openAccount_atomic (valid : r.Valid) (account : AccountId) (collateral : Amount) :
    Atomic r (InPlace.openAccount r account collateral) Valid := by
  apply Atomic.after
  intro _ positive
  apply Atomic.after
  intro grown grew
  obtain ⟨-, -, slots, ⟨x, found⟩, -, -⟩ := growAccounts_ok grew
  by_cases used : x.used = true
  · have inside : account.val < r.accounts.length := by
      obtain same | ⟨-, fresh⟩ := slots account
      · exact slot_lt (same.symm.trans found)
      · rw [found] at fresh
        cases fresh
        cases used
    rw [found, require, if_neg (by simp [used])]
    exact growAccounts_of_inside inside grew
  · rw [Bool.not_eq_true] at used
    rw [found, any_some, require, if_pos used]
    rw [InPlace.recompute, recompute_modifySlot found]
    have opened : r.openAccount account collateral = grown.store account { x with
        used := true, isOpen := true, marginMode := .isolated, collateral := collateral, perp :=
          [], payout := [] } := by
      rw [openAccount, positive, ok_bind, grew, ok_bind]
      simp only [found, getD_some]
      rw [require, if_pos used, ok_bind]
    rw [← opened]
    cases done : r.openAccount account collateral with
    | ok r' => exact ⟨valid.formed.openAccount done, valid.exact.openAccount done⟩
    | error err =>
      rw [opened, store, bare_columns grown rfl rfl] at done
      cases done

/-! ## Markets -/

theorem growMarket_of_inside (inside : m.val < r.markets.length) (done : r.growMarket m = .ok r') :
    r' = r := by
  obtain ⟨-, rfl⟩ := growMarket_eq_ok.1 done
  have nothing : m.val + 1 - r.markets.length = 0 := by omega
  rw [nothing, replicate_zero, append_nil]

theorem modifyMarket_undo {f g : MarketSlot → MarketSlot}
    (restores : ∀ s, r.market m = some s → g (f s) = s) :
    (r.modifyMarket m f).modifyMarket m g = r := by
  have same : (r.markets.modify m.val f).modify m.val g = r.markets := by
    apply ext_getElem?
    intro i
    simp only [getElem?_modify]
    cases found : r.markets[i]? with
    | none => rfl
    | some s =>
      split_ifs with here
      · subst here
        simp [restores s found]
      · rfl
  exact congrArg (fun l => { r with markets := l }) same

theorem slot_modifySlot_of (r : RiskEngine) (account : AccountId) (f : Account → Account)
    (b : AccountId) :
    (r.modifySlot account f).slot b = if b = account then (r.slot b).map f else r.slot b := by
  rw [slot, modifySlot, getElem?_modify]
  split_ifs with at_b same same
  · rfl
  · exact absurd (Fin.ext at_b.symm) same
  · exact absurd (congrArg Fin.val same.symm) at_b
  · exact map_id'

/-- Writing columns changes no other columns: they do not depend on what is cached. -/
theorem columnsOf_writeColumns (r : RiskEngine) (w : AccountId × CachedColumns) (b : AccountId) :
    InPlace.columnsOf (InPlace.writeColumns r w) b = InPlace.columnsOf r b := by
  have view : ∀ a, (InPlace.writeColumns r w).computeColumns a = r.computeColumns a :=
    SameView.columns ⟨rfl, fun _ => rfl, fun _ => rfl⟩
  simp only [InPlace.columnsOf, view]
  rw [InPlace.writeColumns, slot_modifySlot_of]
  split_ifs
  · cases r.slot b <;> rfl
  · rfl

/-- Computing all columns first comes to the same as recomputing account by account. -/
theorem foldlM_recompute {accounts : List AccountId} {computed : List (AccountId × CachedColumns)}
    (done : accounts.mapM (InPlace.columnsOf r) = .ok computed) :
    accounts.foldlM recompute r = .ok (computed.foldl InPlace.writeColumns r) := by
  induction accounts generalizing computed r with
  | nil =>
    cases done
    rfl
  | cons b accounts ih =>
    simp only [mapM_cons, ok_iff] at done
    obtain ⟨w, first, rest, later, rfl⟩ := done
    simp only [InPlace.columnsOf, ok_iff] at first
    obtain ⟨x, found, columns, computed, rfl⟩ := first
    have step : r.recompute b = .ok (InPlace.writeColumns r (b, columns)) := by
      rw [recompute, found]
      apply store_eq_ok.2
      exact ⟨columns, computed, modifySlot_eq found _⟩
    rw [foldlM_cons, step]
    apply ih
    rw [← later]
    exact congrArg (accounts.mapM ·) (funext (columnsOf_writeColumns r (b, columns)))

/-- Only a market with holders can overflow, and it was there before. -/
theorem setMarkPrice_atomic (valid : r.Valid) (m : MarketId) (price : Price) :
    Atomic r (InPlace.setMarkPrice r m price) Valid := by
  apply Atomic.after
  intro grown grew
  obtain ⟨-, index, inside⟩ := growMarket_ok grew
  rw [InPlace.recomputeHolders]
  set marked := grown.modifyMarket m fun s => { s with mark := some price }
  cases computed : (marked.holders m).keys.mapM (InPlace.columnsOf marked) with
  | ok columns =>
    have done : r.setMarkPrice m price = .ok (columns.foldl InPlace.writeColumns marked) := by
      rw [setMarkPrice, grew, ok_bind, recomputeHolders, foldlM_recompute computed]
    exact ⟨valid.formed.setMarkPrice done, valid.exact.setMarkPrice valid.formed.indexed done⟩
  | error err =>
    have before : m.val < r.markets.length := by
      by_contra outside
      have none : r.holders m = ∅ := by
        rw [holders, market, getElem?_eq_none (not_lt.1 outside)]
        rfl
      have kept : marked.holders m = ∅ := by
        rw [holders_modifyMarket inside, if_pos rfl]
        exact (congrFun index m).trans none
      rw [kept] at computed
      cases computed
    have same := growMarket_of_inside before grew
    subst same
    apply modifyMarket_undo
    intro s found
    rw [markFor, found]
    rfl

/-! ## Risk groups -/

/-- All slots with new columns. -/
def withColumns (r : RiskEngine) (computed : List CachedColumns) : RiskEngine :=
  { r with accounts := r.accounts.zipWith (fun a cached => { a with cached := cached }) computed }

theorem slot_withColumns (done : r.accounts.mapM r.computeColumns = .ok computed) (b : AccountId) :
    (r.withColumns computed).slot b = none ∧ r.slot b = none ∨
    ∃ x cached, r.slot b = some x ∧ r.computeColumns x = .ok cached ∧
      (r.withColumns computed).slot b = some { x with cached := cached } := by
  rw [mapM_eq_ok, forall₂_iff_get] at done
  obtain ⟨size, pointwise⟩ := done
  have zipped : (r.withColumns computed).slot b = _ := getElem?_zipWith
  rw [zipped]
  by_cases inside : b.val < r.accounts.length
  · have found : r.slot b = some r.accounts[b.val] := getElem?_eq_getElem inside
    have inside' : b.val < computed.length := size ▸ inside
    refine .inr ⟨_, computed[b.val], found, pointwise b.val inside inside', ?_⟩
    rw [getElem?_eq_getElem inside, getElem?_eq_getElem inside']
  · have found : r.slot b = none := getElem?_eq_none (not_lt.1 inside)
    refine .inl ⟨?_, found⟩
    rw [getElem?_eq_none (not_lt.1 inside)]

/-- Recomputing every slot makes a formed engine valid. -/
theorem Formed.withColumns (formed : r.Formed)
    (done : r.accounts.mapM r.computeColumns = .ok computed) : (r.withColumns computed).Valid := by
  have slots := slot_withColumns done
  have size : (r.withColumns computed).accounts.length = r.accounts.length := by
    rw [mapM_eq_ok] at done
    exact length_zipWith.trans (min_eq_left done.length_eq.le)
  have still : r.Still (r.withColumns computed) := by
    have each : ∀ b, (r.withColumns computed).perpOf b = r.perpOf b ∧
        (r.withColumns computed).openAt b = r.openAt b ∧
        (r.withColumns computed).usedAt b = r.usedAt b := by
      intro b
      obtain ⟨none, none'⟩ | ⟨x, cached, found, -, stored⟩ := slots b
      · simp [perpOf, openAt, usedAt, none, none']
      · simp [perpOf, openAt, usedAt, stored, found]
    exact ⟨size, fun b => (each b).1, fun b => (each b).2.1, fun b => (each b).2.2, fun _ => rfl⟩
  refine ⟨{ formed with
    indexed := still.indexed formed.indexed
    tidy := fun b y at_b => ?_
    accountsFit := size.trans_le formed.accountsFit
    queued := fun b listed => (still.opened b).trans (formed.queued b listed) }, fun b y at_b => ?_⟩
  · obtain ⟨none, -⟩ | ⟨x, cached, found, columns, stored⟩ := slots b
    · simp [none] at at_b
    · rw [stored] at at_b
      cases at_b
      exact Tidy.recomputed (formed.tidy b x found) columns
  · obtain ⟨none, -⟩ | ⟨x, cached, found, columns, stored⟩ := slots b
    · simp [none] at at_b
    · rw [stored] at at_b
      cases at_b
      exact columns

/-- Recomputing every slot returns when every slot is exact. -/
theorem Exact.mapM_columns (exact : r.Exact) (fits : r.accounts.length ≤ 2 ^ 32) :
    r.accounts.mapM r.computeColumns = .ok (r.accounts.map Account.cached) := by
  rw [mapM_eq_ok, forall₂_map_right_iff]
  apply forall₂_same.2
  intro x listed
  obtain ⟨i, inside, rfl⟩ := mem_iff_getElem.1 listed
  exact exact ⟨i, inside.trans_le fits⟩ _ (getElem?_eq_getElem inside)

theorem recomputeAll_atomic (valid : r.Valid) : Atomic r (InPlace.recomputeAll r) Valid := by
  apply Atomic.commit
  intro r' done
  simp only [ok_iff] at done
  obtain ⟨computed, columns, rfl⟩ := done
  exact valid.formed.withColumns columns

/-- No position is in a market that is new, so its group changes no columns. -/
theorem setRiskGroup_atomic (valid : r.Valid) (m : MarketId) (group : U32) :
    Atomic r (InPlace.setRiskGroup r m group) Valid := by
  apply Atomic.after
  intro grown grew
  have larger := valid.formed.growMarket grew
  set after := grown.modifyMarket m fun s => { s with riskGroup := some group }
  have grouped : after.Formed := by
    apply larger.modifyMarket
    · exact fun s => rfl
    · exact fun s capped => capped
  rw [InPlace.recomputeAll]
  cases computed : after.accounts.mapM after.computeColumns with
  | ok columns => exact grouped.withColumns computed
  | error err =>
    by_cases before : m.val < r.markets.length
    · have same := growMarket_of_inside before grew
      subst same
      apply modifyMarket_undo
      intro s found
      rw [found]
      rfl
    · obtain ⟨accounts, -, -⟩ := growMarket_ok grew
      have exact : after.Exact := by
        intro b x found
        have found' : r.slot b = some x := by rwa [slot, ← accounts]
        rw [← valid.exact b x found', ← (SameView.growMarket grew).columns]
        have marks : ∀ n, after.markFor n = grown.markFor n := modifyMarket_markFor fun s => rfl
        refine computeColumns_congr (r := grown) (a := x) rfl ?_ ?_
        · intro p _
          rw [valuation, marks]
          exact ⟨rfl, rfl⟩
        · intro p held
          have listed := (valid.formed.tidy b x found').listed p held
          have other : m.val ≠ p.market.val := by omega
          rw [groupOf, market]
          simp only [after, modifyMarket, getElem?_modify, if_neg other]
          exact congrArg (fun s => (bind s MarketSlot.riskGroup).getD p.market) map_id'
      simp [exact.mapM_columns grouped.indexed.fits] at computed

/-! ## Limits and reservations -/

section

variable (valid : r.Valid) (account)
include valid

theorem setMarketLimit_atomic (m : MarketId) (cap : Amount) :
    Atomic r (InPlace.setMarketLimit r m cap) Valid := by
  apply Atomic.after
  intro _ positive
  rw [require_eq_ok] at positive
  apply Atomic.after
  intro grown grew
  have larger := valid.formed.growMarket grew
  have view : SameView r (grown.modifyMarket m fun s => { s with marketLimit := some cap }) := by
    apply (SameView.growMarket grew).trans
    apply SameView.modifyMarket
    · exact fun s => rfl
    · exact fun s => rfl
  constructor
  · apply larger.modifyMarket
    · exact fun s => rfl
    · rintro s - cap' ⟨⟩
      exact positive
  · exact valid.exact.sameView view (growMarket_ok grew).1

theorem setPortfolioLimit_atomic (cap : Amount) :
    Atomic r (InPlace.setPortfolioLimit r cap) Valid := by
  apply Atomic.after
  intro _ positive
  rw [require_eq_ok] at positive
  have still : r.Still { r with portfolioLimit := some cap } :=
    ⟨rfl, fun _ => rfl, fun _ => rfl, fun _ => rfl, fun _ => rfl⟩
  refine ⟨{ valid.formed with indexed := still.indexed valid.formed.indexed, portfolio := ?_ },
    valid.exact.sameView ⟨rfl, fun _ => rfl, fun _ => rfl⟩ rfl⟩
  rintro cap' ⟨⟩
  exact positive

theorem reserveResting_atomic (notional : Amount) :
    Atomic r (r.commit (r.reserveResting account notional)) Valid :=
  Atomic.commit fun _ done => (reserveResting_quiet done).valid valid

theorem releaseResting_atomic (notional : Amount) :
    Atomic r (r.commit (r.releaseResting account notional)) Valid :=
  Atomic.commit fun _ done => (releaseResting_quiet done).valid valid

theorem fundInsurance_atomic (amount : Amount) :
    Atomic r (r.commit (r.fundInsurance amount)) Valid :=
  Atomic.commit fun _ done => (fundInsurance_quiet done).valid valid

/-! ## Payouts -/

theorem openPayoutPosition_atomic (payout : List Amount) (qty : Quantity) :
    Atomic r (InPlace.openPayoutPosition r account payout qty) Valid := by
  apply Atomic.after
  intro x active
  have found := (active_eq_ok.1 active).1
  have restored :
      ((r.modifySlot account fun b => { b with payout := b.payout ++ [⟨payout, qty⟩] }).modifySlot
        account fun b => { b with payout := b.payout.take x.payout.length }) = r := by
    apply modifySlot_undo found
    simp
  dsimp only
  rw [restored]
  apply Atomic.after
  intro computed checked
  simp only [ok_iff] at checked
  obtain ⟨pushed, stored, columns, computed', -, -, rfl⟩ := checked
  rw [slot_modifySlot found] at stored
  cases stored
  rw [modifySlot_modifySlot, modifySlot_eq found]
  apply valid.store (a := { x with payout := x.payout ++ [⟨payout, qty⟩] }) active rfl rfl rfl rfl
  exact store_eq_ok.2 ⟨columns, computed', rfl⟩

/-! ## Liquidations -/

theorem liquidate_atomic : Atomic r (InPlace.liquidate r account) Valid := by
  apply Atomic.commit
  intro r' done
  obtain ⟨⟨r'', out⟩, liquidated, rfl⟩ := map_eq_ok.1 done
  exact ⟨valid.formed.liquidate liquidated, valid.exact.liquidate liquidated⟩

/-- Replacing the queue by one of open accounts. -/
theorem Valid.withQueue {q : LiquidationQueue} (queue : q.Valid)
    (queued : ∀ b ∈ q.queue, r.openAt b = true) :
    ({ r with liqQueue := q } : RiskEngine).Valid := by
  have still : r.Still { r with liqQueue := q } :=
    ⟨rfl, fun _ => rfl, fun _ => rfl, fun _ => rfl, fun _ => rfl⟩
  exact ⟨{ valid.formed with
    indexed := still.indexed valid.formed.indexed, queue := queue, queued := queued },
    valid.exact.sameView ⟨rfl, fun _ => rfl, fun _ => rfl⟩ rfl⟩

theorem nextLiquidation_atomic : Atomic r (InPlace.nextLiquidation r) Valid := by
  obtain ⟨queue, left⟩ := valid.formed.queue.pop
  exact valid.withQueue queue fun b listed => valid.formed.queued b (left b listed)

end

theorem isOpen_of_candidate (candidate : account ∈ InPlace.liquidationCandidates r) :
    r.openAt account = true := by
  rw [InPlace.liquidationCandidates, mem_filterMap] at candidate
  obtain ⟨⟨x, i⟩, listed, chosen⟩ := candidate
  split_ifs at chosen with distressed
  rw [accountOf] at chosen
  by_cases inside : i < 2 ^ 32
  · rw [dif_pos inside] at chosen
    cases chosen
    have found : r.slot ⟨i, inside⟩ = some x := mem_zipIdx_iff_getElem?.1 listed
    exact (openAt_eq found).trans distressed.1
  · rw [dif_neg inside] at chosen
    cases chosen

theorem enqueueLiquidations_atomic (valid : r.Valid) :
    Atomic r (InPlace.enqueueLiquidations r) Valid := by
  have queued : ∀ (accounts : List AccountId) (q : LiquidationQueue), q.Valid →
      (∀ b ∈ q.queue, r.openAt b = true) → (∀ b ∈ accounts, r.openAt b = true) →
      (accounts.foldl LiquidationQueue.enqueue q).Valid ∧
        ∀ b ∈ (accounts.foldl LiquidationQueue.enqueue q).queue, r.openAt b = true := by
    intro accounts
    induction accounts with
    | nil => exact fun q queue isOpen _ => ⟨queue, isOpen⟩
    | cons c accounts ih =>
      intro q queue isOpen all
      obtain ⟨queue', grown⟩ := queue.enqueue c
      apply ih _ queue'
      · intro b listed
        obtain rfl | old := grown b listed
        · exact all b mem_cons_self
        · exact isOpen b old
      · exact fun b listed => all b (mem_cons_of_mem _ listed)
  obtain ⟨queue, isOpen⟩ := queued (InPlace.liquidationCandidates r) r.liqQueue valid.formed.queue
    valid.formed.queued fun b candidate => isOpen_of_candidate candidate
  exact valid.withQueue queue isOpen

/-! ## Fills -/

section Positions

variable {perp : List PerpPosition} {i : Nat} {p q : PerpPosition}

/-- A fill starts from its own position, or from a flat one pushed at the end. -/
theorem filledIn_self (slot : perp[i]? = some p ∨ i = perp.length) :
    filledIn perp i p = if i = perp.length then perp ++ [p] else perp := by
  rw [filledIn]
  obtain stored | rfl := slot
  · obtain ⟨inside, rfl⟩ := List.getElem?_eq_some_iff.1 stored
    rw [if_neg inside.ne, if_pos inside, List.set_getElem_self]
  · rw [if_pos rfl, if_neg (lt_irrefl _)]

theorem getElem?_filledIn (within : i ≤ perp.length) : (filledIn perp i p)[i]? = some p := by
  rw [filledIn]
  split_ifs with inside
  · exact getElem?_set_self inside
  · obtain rfl : i = perp.length := le_antisymm within (not_lt.1 inside)
    exact getElem?_concat_length

theorem set_filledIn (within : i ≤ perp.length) :
    (filledIn perp i p).set i q = filledIn perp i q := by
  rw [filledIn, filledIn]
  split_ifs with inside
  · exact set_set ..
  · obtain rfl : i = perp.length := le_antisymm within (not_lt.1 inside)
    rw [set_append_right _ _ le_rfl, Nat.sub_self]
    rfl

/-- The positions that the rollback of a fill leaves. -/
def undoPosition (perp : List PerpPosition) (i : Nat) (p : PerpPosition)
    (left : List PerpPosition) : List PerpPosition :=
  if i = perp.length then left.take perp.length
  else if left.length = i then left ++ [p]
  else left.set i p

/-- A position that was changed in place, or pushed, is restored. -/
theorem undoPosition_filledIn (slot : perp[i]? = some p ∨ i = perp.length) :
    undoPosition perp i p (filledIn perp i q) = perp := by
  rw [undoPosition, filledIn]
  obtain stored | rfl := slot
  · obtain ⟨inside, rfl⟩ := List.getElem?_eq_some_iff.1 stored
    rw [if_neg inside.ne, if_pos inside, List.length_set, if_neg inside.ne', List.set_set,
      set_getElem_self]
  · rw [if_pos rfl, if_neg (lt_irrefl _), take_left]

/-- So is one that the fill closed and dropped from the end. -/
theorem undoPosition_putPosition (slot : perp[i]? = some p ∨ i = perp.length) :
    undoPosition perp i p (putPosition perp i q) = perp := by
  have unfold : putPosition perp i q =
      if q.isFlat && decide (i + 1 = (filledIn perp i q).length) then (filledIn perp i q).dropLast
      else filledIn perp i q := rfl
  rw [unfold]
  split_ifs with last
  · rw [Bool.and_eq_true, decide_eq_true_eq] at last
    obtain stored | rfl := slot
    · obtain ⟨inside, rfl⟩ := List.getElem?_eq_some_iff.1 stored
      have size : i + 1 = perp.length := by
        rw [filledIn, if_pos inside, length_set] at last
        exact last.2
      have dropped : (perp.set i q).dropLast = perp.take i := by
        rw [dropLast_eq_take, length_set, ← size, Nat.add_sub_cancel, take_set,
          set_eq_of_length_le (length_take_le _ _)]
      rw [filledIn, if_pos inside, dropped, undoPosition, if_neg inside.ne,
        if_pos (length_take_of_le inside.le), take_append_getElem, size, take_length]
    · rw [filledIn, if_neg (lt_irrefl _), dropLast_concat, undoPosition, if_pos rfl, take_length]
  · exact undoPosition_filledIn slot

end Positions

/-- A membership set back to what it was. -/
theorem restore_membership {index changed : OrdMap AccountId Unit}
    (others : ∀ b, b ≠ account → changed.get? b = index.get? b) :
    (if index.contains account then changed.insert account () else changed.erase account) =
      index := by
  ext1 b
  by_cases here : b = account
  · subst here
    cases member : index.contains b with
    | true =>
      obtain ⟨⟨⟩, found⟩ := contains_iff.1 member
      rw [if_pos rfl, get?_insert_self, found]
    | false => rw [if_neg Bool.false_ne_true, get?_erase_self, contains_eq_false.1 member]
  · split_ifs with member
    · rw [get?_insert, if_neg here, others b here]
    · rw [get?_erase, if_neg here, others b here]

/-- Market columns that grew, with the membership of the account changed, are restored. -/
theorem undo_markets (r : RiskEngine) (grown : List MarketSlot)
    {change : OrdMap AccountId Unit → OrdMap AccountId Unit}
    (others : ∀ index b, b ≠ account → (change index).get? b = index.get? b) :
    ((((r.markets ++ grown).modify m.val fun s => { s with holders := change s.holders }).take
        r.markets.length).modify m.val fun s => { s with
          holders := if (r.holders m).contains account then s.holders.insert account ()
            else s.holders.erase account }) = r.markets := by
  apply ext_getElem?
  intro i
  rw [getElem?_modify]
  by_cases inside : i < r.markets.length
  · rw [getElem?_take_of_lt inside, getElem?_modify, getElem?_append_left inside,
      getElem?_eq_getElem inside]
    by_cases here : m.val = i
    · subst here
      have index : r.holders m = r.markets[m.val].holders := by
        rw [holders, market, getElem?_eq_getElem inside]
        rfl
      simp only [Option.map_eq_map, Option.map_some, if_true, index]
      rw [restore_membership (others _)]
    · simp [here]
  · rw [getElem?_take_eq_none (not_lt.1 inside), getElem?_eq_none (not_lt.1 inside)]
    rfl

theorem undo_same_markets (r : RiskEngine) (account : AccountId) (m : MarketId) :
    ((r.markets.take r.markets.length).modify m.val fun s => { s with
      holders := if (r.holders m).contains account then s.holders.insert account ()
        else s.holders.erase account }) = r.markets := by
  have nothing : ∀ (index : OrdMap AccountId Unit) (b : AccountId), b ≠ account →
      (id index).get? b = index.get? b := fun _ _ _ => rfl
  have restored := undo_markets (m := m) r [] nothing
  have same : (r.markets.modify m.val fun s => { s with holders := id s.holders }) = r.markets :=
    modify_id ..
  rwa [append_nil, same] at restored

/-- What the steps of a fill have changed when one of them fails. -/
theorem undoFill_restores {collateral : Amount} {left : List PerpPosition}
    {markets : List MarketSlot} {i : Nat} {p : PerpPosition} (found : r.slot account = some a)
    (positions : undoPosition a.perp i p left = a.perp)
    (index : (markets.take r.markets.length).modify m.val (fun s => { s with
        holders := if (r.holders m).contains account then s.holders.insert account ()
          else s.holders.erase account }) = r.markets) :
    InPlace.undoFill account m a i p r.markets.length ((r.holders m).contains account)
      { r.setSlot account { a with collateral := collateral, perp := left } with
        markets := markets } = r := by
  have undone :
      (r.setSlot account { a with collateral := collateral, perp := left }).modifySlot account
      (fun b => { b with collateral := a.collateral, perp := undoPosition a.perp i p b.perp }) =
        r := by
    rw [← modifySlot_eq (f := fun b => { b with collateral := collateral, perp := left }) found]
    apply modifySlot_undo found
    rw [positions]
  have accounts := congrArg RiskEngine.accounts undone
  rw [InPlace.undoFill, modifyMarket]
  cases r
  simp only [setSlot, modifySlot, RiskEngine.mk.injEq] at accounts index ⊢
  exact ⟨trivial, accounts, index, trivial, trivial, trivial, trivial⟩

theorem syncMarketHolder_setSlot (r : RiskEngine) (account : AccountId) (x : Account) (m : MarketId)
    (holds : Bool) : (r.setSlot account x).syncMarketHolder account m holds =
      (r.syncMarketHolder account m holds).map (·.setSlot account x) := by
  have capacity : (r.setSlot account x).maxMarkets = r.maxMarkets := rfl
  simp only [syncMarketHolder, growMarket, capacity]
  by_cases below : m.val < r.maxMarkets
  · rw [require, if_pos below]
    rfl
  · rw [require, if_neg below]
    rfl

/-- A fill in place is the fill, or leaves the engine as it was. -/
theorem fillIndex_atomic (r : RiskEngine) (account : AccountId) (m : MarketId) (qty : Quantity)
    (price : Price) :
    Atomic r (InPlace.fillIndex r account m qty price)
      (r.fillIndex account m qty price = .ok ·) := by
  apply Atomic.after
  intro a found
  rw [orError_eq_ok] at found
  obtain ⟨market, place⟩ := positionSlot_spec a.perp m
  have within := (positionSlot_place a.perp m).le
  have filling : r.fillIndex account m qty price = (do
      let filled ← (positionSlot a.perp m).2.applyFill qty price
      let collateral ← arith (Scalar.checkedAdd a.collateral filled.2)
      let e ← r.syncMarketHolder account m (!filled.1.isFlat)
      e.store account { a with
        collateral := collateral
        perp := putPosition a.perp (positionSlot a.perp m).1 filled.1 }) := by
    rw [fillIndex, found]
    rfl
  dsimp only
  generalize (positionSlot a.perp m).1 = i at place within filling ⊢
  generalize (positionSlot a.perp m).2 = p at market place filling ⊢
  have slot : a.perp[i]? = some p ∨ i = a.perp.length := place.imp_right And.left
  have unmoved := undo_same_markets r account m
  -- The flat position that a market not held yet gets stands where the fill puts its own.
  have pushed : (r.modifySlot account fun b =>
      { b with perp := if i = a.perp.length then b.perp ++ [p] else b.perp }) =
      r.setSlot account { a with perp := filledIn a.perp i p } := by
    rw [modifySlot_eq found, filledIn_self slot]
  have slots : ∀ x, (r.setSlot account x).slot account = some x := fun x => by
    rw [slot_setSlot found, if_pos rfl]
  rw [pushed, InPlace.fillApply, slots]
  simp only [orError, after, getElem?_filledIn within]
  cases applied : p.applyFill qty price with
  | error err => exact undoFill_restores found (undoPosition_filledIn slot) unmoved
  | ok filled =>
    simp only [applied, ok_bind] at filling
    simp only
    rw [modifySlot_eq (slots _), setSlot_setSlot, set_filledIn within]
    cases sum : arith (Scalar.checkedAdd a.collateral filled.2) with
    | error err => exact undoFill_restores found (undoPosition_filledIn slot) unmoved
    | ok collateral =>
      simp only [sum, ok_bind] at filling
      simp only
      rw [modifySlot_eq (slots _), setSlot_setSlot, market, syncMarketHolder_setSlot]
      cases sync : r.syncMarketHolder account m (!filled.1.isFlat) with
      | error err => exact undoFill_restores found (undoPosition_putPosition slot) unmoved
      | ok synced =>
        simp only [sync, ok_bind] at filling
        have found' : synced.slot account = some a := by
          rwa [RiskEngine.slot, (syncMarketHolder_ok sync).1]
        have recomputed : (synced.setSlot account { a with
            collateral := collateral
            perp := putPosition a.perp i filled.1 }).recompute account =
              r.fillIndex account m qty price := by
          rw [filling, ← recompute_modifySlot found' (f := fun b => { b with
            collateral := collateral
            perp := putPosition a.perp i filled.1 }), modifySlot_eq found']
        change Atomic r (orUndo (InPlace.recompute (synced.setSlot account { a with
            collateral := collateral
            perp := putPosition a.perp i filled.1 }) account) _) _
        rw [InPlace.recompute, recomputed]
        cases done : r.fillIndex account m qty price with
        | ok r' => exact rfl
        | error err =>
          simp only [syncMarketHolder, ok_iff] at sync
          obtain ⟨grown, grew, rfl⟩ := sync
          obtain ⟨-, rfl⟩ := growMarket_eq_ok.1 grew
          have others : ∀ (index : OrdMap AccountId Unit) (b : AccountId), b ≠ account →
              (if !filled.1.isFlat then index.insert account () else index.erase account).get? b =
                index.get? b := by
            intro index b other
            split_ifs
            · rw [get?_insert, if_neg other]
            · rw [get?_erase, if_neg other]
          exact undoFill_restores found (undoPosition_putPosition slot) (undo_markets r _ others)

theorem applyFill_atomic (valid : r.Valid) (account : AccountId) (m : MarketId) (qty : Quantity)
    (price : Price) : Atomic r (InPlace.applyFill r account m qty price) Valid := by
  apply Atomic.after
  intro x active
  obtain ⟨found, -, isOpen⟩ := active_eq_ok.1 active
  apply (fillIndex_atomic r account m qty price).mono
  intro r' done
  exact ⟨(valid.formed.fill ((openAt_eq found).trans isOpen) done).1, valid.exact.fill done⟩

/-! ## Every operation -/

/-- An operation succeeds and leaves a valid engine, or fails and leaves the one that it found. -/
theorem perform_atomic (valid : r.Valid) (op : RiskOp) : Atomic r (r.perform op) Valid := by
  cases op with
  | openAccount => exact openAccount_atomic valid _ _
  | setMarginMode => exact setMarginMode_atomic _ valid _
  | creditCollateral => exact creditCollateral_atomic _ valid _
  | debitCollateral => exact debitCollateral_atomic _ valid _
  | applyFunding => exact applyFunding_atomic _ valid _
  | applyFee => exact applyFee_atomic _ valid _
  | setMarkPrice => exact setMarkPrice_atomic valid _ _
  | setRiskGroup => exact setRiskGroup_atomic valid _ _
  | setMarketLimit => exact setMarketLimit_atomic valid _ _
  | setPortfolioLimit => exact setPortfolioLimit_atomic valid _
  | applyFill => exact applyFill_atomic valid _ _ _ _
  | openPayoutPosition => exact openPayoutPosition_atomic _ valid _ _
  | reserveResting => exact reserveResting_atomic _ valid _
  | releaseResting => exact releaseResting_atomic _ valid _
  | liquidate => exact liquidate_atomic _ valid
  | enqueueLiquidations => exact enqueueLiquidations_atomic valid
  | nextLiquidation => exact nextLiquidation_atomic valid
  | fundInsurance => exact fundInsurance_atomic valid _
  | recomputeAll => exact recomputeAll_atomic valid

theorem Performed.valid {config : RiskConfig} (valid : config.Valid) (path : Performed config r) :
    r.Valid := by
  induction path with
  | new => exact new_valid valid
  | step op before ih => exact (perform_atomic ih op).kept ih

end RiskEngine

end Dexos.Risk
