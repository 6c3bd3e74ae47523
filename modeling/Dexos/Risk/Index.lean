import Dexos.Risk.Paths

/-!
# The exact index of holders

The positions of every account, seen market by market. A fill moves one holding of one account,
and the index of a market lists exactly the accounts whose holding there is not zero. Only open
accounts keep positions, and a flat position has no entry price.
-/

namespace Dexos.Risk

open Foundations Clob List Scalar PerpPosition

/-! ## Holdings of a position list -/

/-- The net quantity that a list of positions holds in a market. -/
def holdingOf (perp : List PerpPosition) (m : MarketId) : Int :=
  ((perp.find? fun p => p.market = m).map fun p => p.netQty.val).getD 0

section Lists

variable {perp perp' : List PerpPosition} {m : MarketId} {p : PerpPosition}

theorem holdingOf_of_mem (distinct : (perp.map market).Nodup) (held : p ∈ perp) :
    holdingOf perp p.market = p.netQty.val := by
  rw [holdingOf]
  cases found : perp.find? fun q => q.market = p.market with
  | none =>
    have absent := find?_eq_none.1 found p held
    simp at absent
  | some q =>
    have market : q.market = p.market := by simpa using find?_some found
    rw [inj_on_of_nodup_map distinct (mem_of_find?_eq_some found) held market]
    rfl

theorem holdingOf_of_absent (absent : ∀ q ∈ perp, q.market ≠ m) : holdingOf perp m = 0 := by
  have none : perp.find? (fun q => q.market = m) = none := by
    apply find?_eq_none.2
    intro q held
    simpa using absent q held
  rw [holdingOf, none]
  rfl

/-- A holding comes from a position of the list. -/
theorem exists_of_holdingOf (held : holdingOf perp m ≠ 0) :
    ∃ p ∈ perp, p.market = m ∧ p.netQty.val = holdingOf perp m := by
  rw [holdingOf] at held ⊢
  cases found : perp.find? fun q => q.market = m with
  | none =>
    rw [found] at held
    exact absurd rfl held
  | some q =>
    have market : q.market = m := by simpa using find?_some found
    exact ⟨q, mem_of_find?_eq_some found, market, rfl⟩

/-- Two lists hold the same in a market where they have the same positions. -/
theorem holdingOf_congr (distinct : (perp.map market).Nodup)
    (distinct' : (perp'.map market).Nodup)
    (same : ∀ q : PerpPosition, q.market = m → (q ∈ perp' ↔ q ∈ perp)) :
    holdingOf perp' m = holdingOf perp m := by
  by_cases held : ∃ q ∈ perp, q.market = m
  · obtain ⟨q, listed, rfl⟩ := held
    rw [holdingOf_of_mem distinct listed, holdingOf_of_mem distinct' ((same q rfl).2 listed)]
  · have absent : ∀ q ∈ perp, q.market ≠ m := fun q listed here => held ⟨q, listed, here⟩
    rw [holdingOf_of_absent absent, holdingOf_of_absent]
    intro q listed here
    exact absent q ((same q here).1 listed) here

end Lists

namespace RiskEngine

variable {victim : AccountId} {price : Price}

section Positions

variable {perp : List PerpPosition} {m : MarketId} {i : Nat} {p : PerpPosition}

/-- A market that the list lacks is filled from flat. -/
theorem positionSlot_absent (absent : ∀ q ∈ perp, q.market ≠ m) :
    positionSlot perp m = (perp.length, flat m) := by
  have none : perp.findIdx? (fun p => p.market = m) = none := by
    apply findIdx?_eq_none_iff.2
    intro q held
    simpa using absent q held
  rw [positionSlot, none]

/-- The position to fill holds what the list holds. -/
theorem positionSlot_netQty (distinct : (perp.map PerpPosition.market).Nodup) :
    (positionSlot perp m).2.netQty.val = holdingOf perp m := by
  obtain ⟨market, stored | ⟨beyond, absent⟩⟩ := positionSlot_spec perp m
  · rw [← holdingOf_of_mem distinct (mem_of_getElem? stored), market]
  · rw [holdingOf_of_absent absent, positionSlot_absent absent]
    rfl

variable (market : p.market = m) (place : PlaceFor perp m i)
  (distinct : (perp.map PerpPosition.market).Nodup)
include market place distinct

/-- The only position of its market after a fill is the filled one. -/
theorem of_mem_putPosition {q : PerpPosition} (held : q ∈ putPosition perp i p)
    (here : q.market = m) : q = p := by
  have listed : q ∈ filledIn perp i p := by
    obtain kept | ⟨-, dropped⟩ := putPosition_cases perp i p place.le
    · exact kept ▸ held
    · rw [dropped]
      exact mem_append_left _ held
  exact inj_on_of_nodup_map (filledIn_markets market place distinct) listed mem_filledIn_self
    (here.trans market.symm)

/-- A fill sets the holding of its market and no other. -/
theorem holdingOf_putPosition (n : MarketId) :
    holdingOf (putPosition perp i p) n = if n = m then p.netQty.val else holdingOf perp n := by
  obtain ⟨nodup, self, others, all⟩ := putPosition_spec market place distinct
  split_ifs with here
  · subst here
    by_cases flat : p.netQty.val = 0
    · by_contra held
      rw [flat] at held
      obtain ⟨q, listed, same, amount⟩ := exists_of_holdingOf held
      rw [of_mem_putPosition market place distinct listed same, flat] at amount
      exact held amount.symm
    · rw [← market, holdingOf_of_mem nodup (self flat)]
  · apply holdingOf_congr distinct nodup
    rintro q rfl
    constructor
    · intro listed
      obtain rfl | before := all q listed
      · exact absurd market here
      · exact before
    · exact fun listed => others q listed here

end Positions

/-! ## Holdings of an engine -/

/-- The positions of an account, none beyond the slab. -/
def perpOf (r : RiskEngine) (b : AccountId) : List PerpPosition :=
  ((r.slot b).map Account.perp).getD []

/-- Whether an account is open. -/
def openAt (r : RiskEngine) (b : AccountId) : Bool := (r.slot b).any Account.isOpen

/-- Whether an account was ever opened. -/
def usedAt (r : RiskEngine) (b : AccountId) : Bool := (r.slot b).any Account.used

/-- The net quantity that an account holds in a market. -/
def holding (r : RiskEngine) (b : AccountId) (m : MarketId) : Int := holdingOf (r.perpOf b) m

variable {r r' : RiskEngine} {account b : AccountId} {a x : Account} {m : MarketId}

variable (found : r.slot b = some x)
include found

theorem perpOf_eq : r.perpOf b = x.perp := by
  rw [perpOf, found]
  rfl

theorem openAt_eq : r.openAt b = x.isOpen := by
  rw [openAt, found]
  rfl

theorem usedAt_eq : r.usedAt b = x.used := by
  rw [usedAt, found]
  rfl

theorem holding_eq (m : MarketId) : r.holding b m = holdingOf x.perp m := by
  rw [holding, perpOf_eq found]

omit found

/-- What the index of holders relies on. -/
structure Indexed (r : RiskEngine) : Prop where
  fits : r.accounts.length ≤ 2 ^ 32
  distinct : ∀ b, ((r.perpOf b).map PerpPosition.market).Nodup
  exact : ∀ m b, (r.holders m).get? b = some () ↔ r.holding b m ≠ 0
  opened : ∀ b, r.perpOf b ≠ [] → r.openAt b = true
  used : ∀ b, r.openAt b = true → r.usedAt b = true
  zeroed : ∀ b, ∀ p ∈ r.perpOf b, p.netQty.val = 0 → p.avgEntry.val = 0

/-- An operation that changes no position, no index and closes nothing. -/
theorem Indexed.congr (indexed : r.Indexed) (fits : r'.accounts.length ≤ 2 ^ 32)
    (perp : ∀ b, r'.perpOf b = r.perpOf b) (holders : ∀ m, r'.holders m = r.holders m)
    (opened : ∀ b, r.openAt b = true → r'.openAt b = true)
    (used : ∀ b, r'.openAt b = true → r'.usedAt b = true) : r'.Indexed where
  fits := fits
  distinct b := perp b ▸ indexed.distinct b
  exact m b := by
    rw [holders, holding, perp]
    exact indexed.exact m b
  opened b held := opened b (indexed.opened b (perp b ▸ held))
  used := used
  zeroed b := perp b ▸ indexed.zeroed b

/-- A holder is an open account. -/
theorem Indexed.active (indexed : r.Indexed) (held : r.holding b m ≠ 0) :
    ∃ x, r.slot b = some x ∧ x.used = true ∧ x.isOpen = true := by
  have some_position : r.perpOf b ≠ [] := by
    intro none
    rw [holding, none] at held
    exact held rfl
  have isOpen := indexed.opened b some_position
  have used := indexed.used b isOpen
  rw [openAt, Option.any_eq_true] at isOpen
  obtain ⟨x, found, isOpen⟩ := isOpen
  rw [usedAt_eq found] at used
  exact ⟨x, found, used, isOpen⟩

/-- The position that the engine reports is the holding. -/
theorem position_returns (found : r.slot b = some x) (used : x.used = true) (m : MarketId) :
    ∃ q, r.position b m = .ok q ∧ q.val = r.holding b m := by
  have read : r.read b = .ok x := by
    rw [RiskEngine.read, found]
    exact if_pos used
  refine ⟨_, by rw [position, read]; rfl, ?_⟩
  rw [holding_eq found, holdingOf]
  cases x.perp.find? fun p => p.market = m <;> rfl

theorem new_indexed (config : RiskConfig) : (new config).Indexed where
  fits := Nat.zero_le _
  distinct _ := nodup_nil
  exact _ _ := ⟨by rintro ⟨⟩, fun held => absurd rfl held⟩
  opened _ held := absurd rfl held
  used _ := by rintro ⟨⟩
  zeroed _ p held := absurd held not_mem_nil

/-- A position that a fill closed has no entry price. -/
theorem applyFill_zeroed {p p' : PerpPosition} {dq : Quantity} {realized : Amount}
    (before : p.netQty.val = 0 → p.avgEntry.val = 0)
    (filled : p.applyFill dq price = .ok (p', realized)) (flat : p'.netQty.val = 0) :
    p'.avgEntry.val = 0 := by
  rw [PerpPosition.applyFill] at filled
  split_ifs at filled with still empty same
  · cases filled
    exact before flat
  · cases filled
    exact absurd flat still
  · simp only [ok_iff, arith_eq_ok, checkedAdd_eq_ok] at filled
    obtain ⟨net, sum, avg, -, rfl, -⟩ := filled
    dsimp only at flat
    omega
  · simp only [ok_iff, arith_eq_ok, checkedAdd_eq_ok] at filled
    obtain ⟨diff, -, profit, -, net, -, rfl, -⟩ := filled
    rw [reducedEntry, if_pos flat]
    rfl

/-- A fill moves the holding of its account and market and keeps the index exact. -/
theorem Indexed.fill {qty : Quantity} (indexed : r.Indexed) (isOpen : r.openAt account = true)
    (done : r.fillIndex account m qty price = .ok r') :
    r'.Indexed ∧ (∀ b, r'.openAt b = r.openAt b) ∧
      ∀ b n, r'.holding b n = r.holding b n + if b = account ∧ n = m then qty.val else 0 := by
  obtain ⟨a, filled, collateral, cached, found, applied, market, size, stored, index⟩ :=
    fillIndex_slots done
  have place := positionSlot_place a.perp m
  have distinct := indexed.distinct account
  rw [perpOf_eq found] at distinct
  have amount : filled.1.netQty.val = r.holding account m + qty.val := by
    rw [PerpPosition.applyFill_netQty applied, positionSlot_netQty distinct, holding_eq found]
  obtain ⟨nodup, -, -, all⟩ := putPosition_spec market place distinct
  have holds : ∀ b n, r'.holding b n =
      r.holding b n + if b = account ∧ n = m then qty.val else 0 := by
    intro b n
    by_cases same : b = account
    · subst same
      rw [holding_eq ((stored b).trans (if_pos rfl)), holdingOf_putPosition market place distinct,
        amount]
      by_cases here : n = m
      · rw [if_pos here, if_pos ⟨rfl, here⟩, here]
      · rw [if_neg here, if_neg fun both => here both.2, add_zero, holding_eq found]
    · rw [if_neg fun both => same both.1, add_zero, holding, perpOf, stored, if_neg same]
      rfl
  have status : ∀ b, r'.openAt b = r.openAt b ∧ r'.usedAt b = r.usedAt b := by
    intro b
    rw [openAt, usedAt, stored]
    split_ifs with same
    · rw [same, openAt, usedAt, found]
      exact ⟨rfl, rfl⟩
    · exact ⟨rfl, rfl⟩
  have self := perpOf_eq ((stored account).trans (if_pos rfl))
  have others : ∀ b, b ≠ account → r'.perpOf b = r.perpOf b := by
    intro b other
    rw [perpOf, stored, if_neg other]
    rfl
  refine ⟨⟨size ▸ indexed.fits, fun b => ?_, fun n b => ?_, fun b held => ?_, fun b isOpen => ?_,
    fun b => ?_⟩, fun b => (status b).1, holds⟩
  · by_cases same : b = account
    · rwa [same, self]
    · rw [others b same]
      exact indexed.distinct b
  · rw [index, holds]
    by_cases here : n = m ∧ b = account
    · obtain ⟨rfl, rfl⟩ := here
      simp only [and_self, if_true]
      rw [← amount, PerpPosition.isFlat]
      by_cases flat : filled.1.netQty.val = 0 <;> simp [flat]
    · rw [if_neg here, if_neg fun both => here both.symm, add_zero]
      exact indexed.exact n b
  · rw [(status b).1]
    by_cases same : b = account
    · rwa [same]
    · exact indexed.opened b (others b same ▸ held)
  · rw [(status b).2]
    exact indexed.used b ((status b).1 ▸ isOpen)
  · by_cases same : b = account
    · subst same
      rw [self]
      intro q listed flat
      have zeroed := indexed.zeroed b
      rw [perpOf_eq found] at zeroed
      obtain rfl | old := all q listed
      · refine applyFill_zeroed (fun empty => ?_) applied flat
        obtain ⟨-, stored | ⟨-, absent⟩⟩ := positionSlot_spec a.perp m
        · exact zeroed _ (mem_of_getElem? stored) empty
        · rw [positionSlot_absent absent]
          rfl
      · exact zeroed q old flat
    · rw [others b same]
      exact indexed.zeroed b

/-! ## Operations that leave the positions alone -/

/-- The positions, the statuses and the index stand still. -/
structure Still (r r' : RiskEngine) : Prop where
  size : r'.accounts.length = r.accounts.length
  perp : ∀ b, r'.perpOf b = r.perpOf b
  opened : ∀ b, r'.openAt b = r.openAt b
  used : ∀ b, r'.usedAt b = r.usedAt b
  holders : ∀ m, r'.holders m = r.holders m

namespace Still

variable {r' : RiskEngine}

theorem refl (r : RiskEngine) : Still r r :=
  ⟨rfl, fun _ => rfl, fun _ => rfl, fun _ => rfl, fun _ => rfl⟩

theorem trans (first : Still r r') (second : Still r' r'') : Still r r'' where
  size := second.size.trans first.size
  perp b := (second.perp b).trans (first.perp b)
  opened b := (second.opened b).trans (first.opened b)
  used b := (second.used b).trans (first.used b)
  holders m := (second.holders m).trans (first.holders m)

theorem holding (still : Still r r') (b : AccountId) (m : MarketId) :
    r'.holding b m = r.holding b m := by
  rw [RiskEngine.holding, still.perp]
  rfl

theorem indexed (still : Still r r') (indexed : r.Indexed) : r'.Indexed :=
  indexed.congr (still.size ▸ indexed.fits) still.perp still.holders
    (fun b isOpen => (still.opened b).trans isOpen)
    fun b isOpen => (still.used b).trans (indexed.used b (still.opened b ▸ isOpen))

theorem setSlot (found : r.slot account = some x) (perp : a.perp = x.perp)
    (isOpen : a.isOpen = x.isOpen) (used : a.used = x.used) : Still r (r.setSlot account a) where
  size := length_set
  perp b := by
    rw [perpOf, slot_setSlot found]
    split_ifs with same
    · rwa [same, perpOf_eq found]
    · rfl
  opened b := by
    rw [openAt, slot_setSlot found]
    split_ifs with same
    · rwa [same, openAt_eq found]
    · rfl
  used b := by
    rw [usedAt, slot_setSlot found]
    split_ifs with same
    · rwa [same, usedAt_eq found]
    · rfl
  holders _ := rfl

theorem store (found : r.slot account = some x) (perp : a.perp = x.perp)
    (isOpen : a.isOpen = x.isOpen)
    (used : a.used = x.used) (done : r.store account a = .ok r') : Still r r' := by
  obtain ⟨cached, -, rfl⟩ := store_eq_ok.1 done
  exact setSlot found perp isOpen used

theorem recompute (done : r.recompute account = .ok r') : Still r r' := by
  rw [RiskEngine.recompute] at done
  cases found : r.slot account with
  | none =>
    rw [found] at done
    cases done
    exact refl r
  | some a =>
    rw [found] at done
    exact store found rfl rfl rfl done

end Still

theorem setMarkPrice_still (done : r.setMarkPrice m price = .ok r') : Still r r' := by
  have index := (setMarkPrice_ok (K := fun _ => True) done).2
  simp only [setMarkPrice, bind_eq_ok] at done
  obtain ⟨grown, grew, refreshed⟩ := done
  obtain ⟨accounts, -, -⟩ := growMarket_ok grew
  let marked := grown.modifyMarket m fun s => { s with mark := some price }
  have still : Still marked r' := by
    refine foldlM_keeps (P := fun s => Still marked s) (.refl marked) ?_ refreshed
    intro b _ s s' so_far step
    exact so_far.trans (.recompute step)
  have slots : ∀ b, marked.slot b = r.slot b := fun b => congrArg (·[b.val]?) accounts
  refine ⟨still.size.trans (congrArg List.length accounts), fun b => ?_, fun b => ?_, fun b => ?_,
    fun n => ?_⟩
  · rw [still.perp, perpOf, slots]
    rfl
  · rw [still.opened, openAt, slots]
    rfl
  · rw [still.used, usedAt, slots]
    rfl
  · rw [index]

/-! ## Single changes -/

theorem Moved.openAt {K : MarketId → Prop} {d : AccountId → Int} {t : AccountId → Prop}
    (moved : r.Moved K r' d t) (b : AccountId) : r'.openAt b = r.openAt b := by
  have status := congrArg (Option.any id) (moved.status b)
  rwa [Option.any_map, Option.any_map] at status

/-- A change of an open account or of the fund that is no fill. -/
inductive Quiet (r : RiskEngine) : RiskEngine → Prop
  | none : Quiet r r
  | stored {r' : RiskEngine} {account : AccountId} {a x : Account} (found : r.slot account = some x)
      (opened : x.isOpen = true) (perp : a.perp = x.perp) (isOpen : a.isOpen = x.isOpen)
      (used : a.used = x.used) (reserved : a.reservedResting = x.reservedResting)
      (stored : r.store account a = .ok r') : Quiet r r'
  | reserved {account : AccountId} {x : Account} {amount : Amount} (found : r.slot account = some x)
      (opened : x.isOpen = true) (kept : 0 ≤ x.reservedResting.val → 0 ≤ amount.val) :
      Quiet r (r.setSlot account { x with reservedResting := amount })
  | funded {insurance socialized : Amount} (fund : 0 ≤ r.insurance.val → 0 ≤ insurance.val)
      (total : 0 ≤ r.socializedTotal.val → 0 ≤ socialized.val) :
      Quiet r { r with insurance := insurance, socializedTotal := socialized }

theorem Quiet.still (done : Quiet r r') : Still r r' := by
  cases done with
  | none => exact .refl r
  | stored found _ perp isOpen used _ stored => exact .store found perp isOpen used stored
  | @reserved _ x amount found =>
    exact .setSlot (a := { x with reservedResting := amount }) found rfl rfl rfl
  | funded => exact ⟨rfl, fun _ => rfl, fun _ => rfl, fun _ => rfl, fun _ => rfl⟩

theorem Quiet.path_still (path : Relation.ReflTransGen Quiet r r') : Still r r' := by
  induction path with
  | refl => exact .refl r
  | tail _ last ih => exact ih.trans last.still

theorem Quiet.markFor (done : Quiet r r') (m : MarketId) : r'.markFor m = r.markFor m := by
  cases done with
  | stored _ _ _ _ _ _ stored => exact store_markFor stored m
  | _ => rfl

theorem Quiet.collateral {collateral : Amount} (active : r.active account = .ok x)
    (stored : r.setCollateral account x collateral = .ok r') : Quiet r r' := by
  obtain ⟨found, -, isOpen⟩ := active_eq_ok.1 active
  exact .stored (a := { x with collateral := collateral }) found isOpen rfl rfl rfl rfl stored

theorem creditCollateral_quiet {amount : Amount}
    (done : r.creditCollateral account amount = .ok r') : Quiet r r' := by
  simp only [creditCollateral, bind_eq_ok] at done
  obtain ⟨-, -, a, active, updated, -, stored⟩ := done
  exact .collateral active stored

theorem fundInsurance_quiet {amount : Amount} (done : r.fundInsurance amount = .ok r') :
    Quiet r r' := by
  simp only [fundInsurance, ok_iff, arith_eq_ok, checkedAdd_eq_ok] at done
  obtain ⟨-, positive, balance, sum, rfl⟩ := done
  exact .funded (by omega) id

theorem reserveResting_quiet {notional : Amount}
    (done : r.reserveResting account notional = .ok r') : Quiet r r' := by
  simp only [reserveResting, ok_iff, active_eq_ok] at done
  obtain ⟨next, checked, x, ⟨found, -, isOpen⟩, rfl⟩ := done
  obtain ⟨positive, y, found', -, sum⟩ := checkedRestingReservation_ok checked
  cases found.symm.trans found'
  exact .reserved found isOpen (by omega)

theorem releaseResting_quiet {notional : Amount}
    (done : r.releaseResting account notional = .ok r') : Quiet r r' := by
  simp only [releaseResting, bind_eq_ok] at done
  obtain ⟨-, -, done⟩ := done
  split_ifs at done
  · cases done
    exact .none
  · simp only [ok_iff, active_eq_ok, arith_eq_ok, checkedSub_eq_ok] at done
    obtain ⟨x, ⟨found, -, isOpen⟩, -, within, left, difference, rfl⟩ := done
    exact .reserved found isOpen (by omega)

/-- Every trade is a quiet change or a pair of fills. -/
theorem Trade.quiet_or_pair (done : Trade r r') :
    Quiet r r' ∨
      ∃ (a b : AccountId) (m : MarketId) (q q' : Quantity) (price : Price) (r₁ : RiskEngine),
      q'.val = -q.val ∧ r.applyFill a m q price = .ok r₁ ∧ r₁.applyFill b m q' price = .ok r' := by
  cases done with
  | credit done => exact .inl (creditCollateral_quiet done)
  | debit done =>
    simp only [debitCollateral, bind_eq_ok] at done
    obtain ⟨-, -, a, active, free, -, -, -, updated, -, stored⟩ := done
    exact .inl (.collateral active stored)
  | funding done =>
    simp only [applyFunding, bind_eq_ok] at done
    obtain ⟨a, active, updated, -, stored⟩ := done
    exact .inl (.collateral active stored)
  | fee done =>
    simp only [applyFee, bind_eq_ok] at done
    obtain ⟨-, -, a, active, updated, -, stored⟩ := done
    exact .inl (.collateral active stored)
  | insurance done => exact .inl (fundInsurance_quiet done)
  | reserve done => exact .inl (reserveResting_quiet done)
  | release done => exact .inl (releaseResting_quiet done)
  | pair opposite first second => exact .inr ⟨_, _, _, _, _, _, _, opposite, first, second⟩

theorem Trade.markFor (done : Trade r r') (m : MarketId) : r'.markFor m = r.markFor m := by
  obtain quiet | ⟨_, _, _, _, _, _, r₁, -, first, second⟩ := done.quiet_or_pair
  · exact quiet.markFor m
  · rw [applyFill_markFor second, applyFill_markFor first]

theorem Trades.markFor (done : Trades r r') (m : MarketId) : r'.markFor m = r.markFor m := by
  induction done with
  | refl => rfl
  | tail _ last ih => rw [last.markFor, ih]

/-- One change of a liquidation. -/
inductive Turn (r : RiskEngine) : RiskEngine → Prop
  | quiet {r' : RiskEngine} (done : Quiet r r') : Turn r r'
  | filled {r' : RiskEngine} {account : AccountId} {m : MarketId} {qty : Quantity} {price : Price}
      (isOpen : r.openAt account = true)
      (done : r.fillIndex account m qty price = .ok r') : Turn r r'

/-- Changes of a liquidation, one after another. -/
abbrev Turns : RiskEngine → RiskEngine → Prop := Relation.ReflTransGen Turn

theorem Turns.openAt (turns : Turns r r') (b : AccountId) : r'.openAt b = r.openAt b := by
  induction turns with
  | refl => rfl
  | tail _ last ih =>
    cases last with
    | quiet done => exact (done.still.opened b).trans ih
    | filled _ done => exact ((fillIndex_ok (K := fun _ => True) trivial done).openAt b).trans ih

theorem Turns.markFor (turns : Turns r r') (m : MarketId) : r'.markFor m = r.markFor m := by
  induction turns with
  | refl => rfl
  | tail _ last ih =>
    cases last with
    | quiet done => exact (done.markFor m).trans ih
    | filled _ done => exact (fillIndex_markFor done m).trans ih

theorem ranked_isOpen {victimQty : Quantity} {mark : Price} {candidates : List Candidate}
    (done : r.ranked victim victimQty m mark = .ok candidates) :
    ∀ c ∈ candidates, r.openAt c.account = true := by
  simp only [ranked, ok_iff] at done
  obtain ⟨found, collected, rfl⟩ := done
  intro c listed
  rw [mem_insertionSort, mem_filterMap] at listed
  obtain ⟨y, listed, rfl⟩ := listed
  obtain ⟨holder, -, done⟩ := of_mem_mapM collected listed
  rw [candidateOf] at done
  cases found : r.slot holder with
  | none =>
    rw [found] at done
    cases done
  | some a =>
    rw [found] at done
    dsimp only at done
    split_ifs at done with skipped
    · cases done
    · rw [not_or, Bool.not_eq_false] at skipped
      simp only [ok_iff, Option.bind_eq_some_iff] at done
      obtain ⟨leg, -, l, -, chosen⟩ := done
      split_ifs at chosen
      cases chosen
      exact (openAt_eq found).trans skipped.2

theorem closeLeg_turns {s s' : RiskEngine × List AdlFill} {leg : PerpPosition}
    (isOpen : s.1.openAt victim = true) (done : closeLeg victim s leg = .ok s') :
    Turns s.1 s'.1 := by
  obtain ⟨-, close, e, -, filled, rfl⟩ | ⟨mark, candidates, after, -, ranking, loop, done⟩ :=
    closeLeg_cases done
  · exact .single (.filled isOpen filled)
  · have transferred : Turns s.1 after.engine := by
      refine foldlM_keeps (P := fun d : Deleveraging => Turns s.1 d.engine) .refl ?_ loop
      intro c listed d d' so_far step
      obtain ⟨rfl, -⟩ | ⟨transfer, counter, own, e, e', -, -, -, -, -, first, second, rfl⟩ :=
        transferTo_cases step
      · exact so_far
      · have half : Turns s.1 e :=
          so_far.tail (.filled ((so_far.openAt _).trans (ranked_isOpen ranking c listed)) first)
        exact half.tail (.filled ((half.openAt victim).trans isOpen) second)
    obtain ⟨-, rfl⟩ | ⟨close, e, -, -, filled, rfl⟩ := done
    · exact transferred
    · exact transferred.tail (.filled ((transferred.openAt victim).trans isOpen) filled)

/-- Covering a shortfall fills nothing. -/
theorem coverShortfall_quiet {finalEquity : Amount}
    {s : RiskEngine × Amount × Amount × Amount × List (AccountId × Amount)}
    (done : r.coverShortfall victim finalEquity = .ok s) : Relation.ReflTransGen Quiet r s.1 := by
  simp only [coverShortfall, ok_iff, arith_eq_ok, checkedSub_eq_ok, checkedAdd_eq_ok] at done
  obtain ⟨shortfall, -, balance, left, uncovered, rest, total, sum, s', shared, rfl⟩ := done
  have drawn : (min r.insurance shortfall : Amount).val = min r.insurance.val shortfall.val :=
    (Subtype.mono_coe _).map_min
  refine socialize_keeps (P := fun s => Relation.ReflTransGen Quiet r s.1) ?_ ?_ shared
  · exact .single (.funded (by omega) (by omega))
  · intro s account debit a collateral e charged so_far isOpen found stored
    refine so_far.tail
      (.stored (a := { a with collateral := collateral }) found ?_ rfl rfl rfl rfl stored)
    rwa [← openAt_eq found, (Quiet.path_still so_far).opened]

/-- A liquidation changes accounts one after another and then closes its own. -/
theorem liquidate_turns {out : LiquidationOutcome} (done : r.liquidate victim = .ok (r', out)) :
    ∃ mid, Turns r mid ∧ mid.openAt victim = true ∧ mid.closeAccount victim = .ok r' := by
  simp only [liquidate, autoDeleverage, ok_iff, active_eq_ok] at done
  obtain ⟨v, ⟨active, -, opened⟩, s, ⟨x, -, legs⟩, a, found, e, stored, a', -, done⟩ := done
  have isOpen : r.openAt victim = true := (openAt_eq active).trans opened
  have sold : Turns r s.1 := by
    refine foldlM_keeps (P := fun s : RiskEngine × List AdlFill => Turns r s.1) .refl ?_ legs
    intro leg _ s s' so_far step
    exact so_far.trans (closeLeg_turns ((so_far.openAt victim).trans isOpen) step)
  have cleared : Turns r e := by
    refine sold.tail
      (.quiet (.stored (a := { a with payout := [] }) found ?_ rfl rfl rfl rfl stored))
    rwa [← openAt_eq found, sold.openAt]
  split_ifs at done with short
  · simp only [ok_iff] at done
    obtain ⟨covered, paid, e', closed, rfl, -⟩ := done
    have whole : Turns r covered.1 :=
        cleared.trans ((coverShortfall_quiet paid).lift id fun _ _ => .quiet)
    exact ⟨covered.1, whole, (whole.openAt victim).trans isOpen, closed⟩
  · simp only [ok_iff] at done
    obtain ⟨e', closed, rfl, -⟩ := done
    exact ⟨e, cleared, (cleared.openAt victim).trans isOpen, closed⟩

/-- A liquidation leaves the marks alone. -/
theorem liquidate_markFor {out : LiquidationOutcome} (done : r.liquidate victim = .ok (r', out))
    (m : MarketId) : r'.markFor m = r.markFor m := by
  obtain ⟨mid, turns, -, closed⟩ := liquidate_turns done
  exact (closeAccount_markFor closed m).trans (turns.markFor m)

theorem growAccounts_ok (done : r.growAccounts account = .ok r') :
    account.val < r.maxAccounts ∧ r'.accounts.length = max r.accounts.length (account.val + 1) ∧
      (∀ b, r'.slot b = r.slot b ∨ r.slot b = none ∧ r'.slot b = some Account.unused) ∧
      (∃ x, r'.slot account = some x) ∧ r'.markets = r.markets ∧ r'.config = r.config := by
  simp only [growAccounts, ok_iff] at done
  obtain ⟨-, below, rfl⟩ := done
  have size :
      (r.accounts ++ List.replicate (account.val + 1 - r.accounts.length) Account.unused).length =
      max r.accounts.length (account.val + 1) := by
    rw [length_append, length_replicate]
    omega
  refine ⟨below, size, fun b => ?_, ⟨_, getElem?_eq_getElem (i := account.val) ?_⟩, rfl, rfl⟩
  · rw [slot, slot, getElem?_append]
    split_ifs with inside
    · exact .inl rfl
    · rw [getElem?_replicate, getElem?_eq_none (not_lt.1 inside)]
      split_ifs
      · exact .inr ⟨rfl, rfl⟩
      · exact .inl rfl
  · rw [size]
    omega

theorem openAccount_indexed {collateral : Amount} (indexed : r.Indexed)
    (done : r.openAccount account collateral = .ok r') :
    r'.Indexed ∧ ∀ b m, r'.holding b m = r.holding b m := by
  simp only [openAccount, ok_iff] at done
  obtain ⟨-, -, grown, grew, -, unused, stored⟩ := done
  obtain ⟨below, size, slots, ⟨x, found⟩, markets, -⟩ := growAccounts_ok grew
  rw [found, Option.getD_some] at unused stored
  obtain ⟨cached, -, rfl⟩ := store_eq_ok.1 stored
  set opened : Account := { x with
    used := true, isOpen := true, marginMode := .isolated, collateral := collateral
    perp := [], payout := [], cached := cached }
  have put := slot_setSlot found opened
  have empty : r.perpOf account = [] := by
    by_contra held
    have used := indexed.used account (indexed.opened account held)
    obtain same | ⟨none, -⟩ := slots account
    · simp [usedAt_eq (same.symm.trans found), unused] at used
    · simp [usedAt, none] at used
  have length : (grown.setSlot account opened).accounts.length =
      max r.accounts.length (account.val + 1) := length_set.trans size
  have index : ∀ m, (grown.setSlot account opened).holders m = r.holders m := fun m =>
    congrArg (fun l : List MarketSlot => ((l[m.val]?).map MarketSlot.holders).getD ∅) markets
  generalize grown.setSlot account _ = r'' at *
  have perp : ∀ b, r''.perpOf b = r.perpOf b := by
    intro b
    by_cases same : b = account
    · rw [same, empty, perpOf_eq ((put account).trans (if_pos rfl))]
    · rw [perpOf, put, if_neg same, perpOf]
      obtain same | ⟨none, fresh⟩ := slots b
      · rw [same]
      · rw [none, fresh]
        rfl
  refine ⟨indexed.congr ?_ perp index (fun b isOpen => ?_) fun b isOpen => ?_, fun b m => ?_⟩
  · rw [length]
    have := account.isLt
    exact max_le indexed.fits this
  · by_cases same : b = account
    · rw [same, openAt_eq ((put account).trans (if_pos rfl))]
    · rw [openAt, put, if_neg same]
      obtain same | ⟨none, -⟩ := slots b
      · rwa [same]
      · simp [openAt, none] at isOpen
  · by_cases same : b = account
    · rw [same, usedAt_eq ((put account).trans (if_pos rfl))]
    · rw [openAt, put, if_neg same] at isOpen
      rw [usedAt, put, if_neg same]
      obtain same | ⟨-, fresh⟩ := slots b
      · rw [same] at isOpen ⊢
        exact indexed.used b isOpen
      · rw [fresh] at isOpen
        cases isOpen
  · rw [holding, perp]
    rfl

end RiskEngine

end Dexos.Risk
