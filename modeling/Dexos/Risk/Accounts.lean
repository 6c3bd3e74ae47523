import Dexos.Foundations.MapSum
import Dexos.Risk.Liquidation

/-!
# What risk operations do to accounts

An operation touches the slots of some accounts and changes their resting reservations by
known amounts. Opening and closing apart, it changes no account's status. The holders index
lists accounts that do hold a position, and no account holds two positions in one market.
-/

namespace Dexos.Risk

open Foundations Clob Option

namespace RiskEngine

variable {amount notional : Amount}

/-- The resting reservation of an account, zero for a slot beyond the slab. -/
def reserved (r : RiskEngine) (account : AccountId) : Int :=
  weightOf (fun a => a.reservedResting.val) (r.slot account)

/-- What holds of every risk engine that operations can reach, when positions are taken in
known markets only. -/
structure Sound (K : MarketId → Prop) (r : RiskEngine) : Prop where
  used : ∀ a x, r.slot a = some x → x.used = true
  distinct : ∀ a x, r.slot a = some x → (x.perp.map PerpPosition.market).Nodup
  holders : ∀ m a, (r.holders m).get? a = some () →
    ∃ x p, r.slot a = some x ∧ p ∈ x.perp ∧ p.market = m ∧ p.netQty.val ≠ 0
  known : ∀ a x, r.slot a = some x → ∀ p ∈ x.perp, K p.market

/-- The effect of an operation on the accounts it touches. -/
structure Moved (K : MarketId → Prop) (r r' : RiskEngine) (delta : AccountId → Int)
    (touched : AccountId → Prop) : Prop where
  size : r'.accounts.length = r.accounts.length
  others : ∀ a, ¬ touched a → r'.slot a = r.slot a
  status : ∀ a, (r'.slot a).map Account.isOpen = (r.slot a).map Account.isOpen
  reserved : ∀ a, r'.reserved a = r.reserved a + delta a
  sound : r.Sound K → r'.Sound K

/-- An amount at one account. -/
def only (account : AccountId) (x : Int) : AccountId → Int := fun a => if a = account then x else 0

namespace Moved

variable {K : MarketId → Prop} {r r' r'' : RiskEngine} {d d' : AccountId → Int}
  {t t' : AccountId → Prop}

theorem refl (r : RiskEngine) : r.Moved K r (fun _ => 0) fun _ => False where
  size := rfl
  others _ _ := rfl
  status _ := rfl
  reserved _ := (add_zero _).symm
  sound h := h

theorem trans (first : r.Moved K r' d t) (second : r'.Moved K r'' d' t') :
    r.Moved K r'' (fun a => d a + d' a) fun a => t a ∨ t' a where
  size := second.size.trans first.size
  others a other := by
    rw [second.others a fun h => other (.inr h), first.others a fun h => other (.inl h)]
  status a := (second.status a).trans (first.status a)
  reserved a := by
    rw [second.reserved, first.reserved]
    ring
  sound h := second.sound (first.sound h)

theorem restate (moved : r.Moved K r' d t) (changes : ∀ a, d a = d' a) (more : ∀ a, t a → t' a) :
    r.Moved K r' d' t' where
  __ := moved
  others a other := moved.others a fun h => other (more a h)
  reserved a := by rw [moved.reserved, changes]

end Moved

/-! ## Slots -/

variable {K : MarketId → Prop} {r r' : RiskEngine} {account : AccountId} {a x : Account}

theorem slot_lt (found : r.slot account = some x) : account.val < r.accounts.length :=
  (List.getElem?_eq_some_iff.1 found).1

theorem slot_setSlot (found : r.slot account = some x) (a : Account) (b : AccountId) :
    (r.setSlot account a).slot b = if b = account then some a else r.slot b := by
  have inside := slot_lt found
  change (r.accounts.set account.val a)[b.val]? = _
  rw [List.getElem?_set]
  by_cases same : b = account
  · subst same
    rw [if_pos rfl, if_pos rfl, if_pos inside]
  · rw [if_neg fun h => same (Fin.ext h.symm), if_neg same]
    rfl

theorem read_eq_ok : r.read account = .ok a ↔ r.slot account = some a ∧ a.used = true := by
  rw [read]
  cases found : r.slot account with
  | none => exact iff_of_false (by rintro ⟨⟩) (by rintro ⟨⟨⟩, -⟩)
  | some x =>
    by_cases used : x.used = true
    · simp only [used, if_true, Except.ok.injEq, some.injEq]
      exact ⟨fun same => ⟨same, same ▸ used⟩, fun both => both.1⟩
    · simp only [used, Bool.false_eq_true, if_false, some.injEq]
      exact iff_of_false (by rintro ⟨⟩) fun both => used (both.1 ▸ both.2)

theorem active_eq_ok : r.active account = .ok a ↔
    r.slot account = some a ∧ a.used = true ∧ a.isOpen = true := by
  simp only [active, ok_iff, read_eq_ok, exists_const]
  constructor
  · rintro ⟨x, ⟨found, used⟩, isOpen, rfl⟩
    exact ⟨found, used, isOpen⟩
  · rintro ⟨found, used, isOpen⟩
    exact ⟨a, ⟨found, used⟩, isOpen, rfl⟩

theorem store_eq_ok : r.store account a = .ok r' ↔ ∃ cached, r.computeColumns a = .ok cached ∧
      r' = r.setSlot account { a with cached := cached } := by
  simp only [store, ok_iff]
  exact exists_congr fun cached => and_congr_right fun _ => eq_comm

variable (found : r.slot account = some x)
include found

theorem Sound.replace (h : r.Sound K)
    (slots : ∀ b, r'.slot b = if b = account then some a else r.slot b) (used : a.used = x.used)
    (distinct : (a.perp.map PerpPosition.market).Nodup) (known : ∀ p ∈ a.perp, K p.market)
    (holders : ∀ m b, (r'.holders m).get? b = some () →
      ∃ y p, r'.slot b = some y ∧ p ∈ y.perp ∧ p.market = m ∧ p.netQty.val ≠ 0) : r'.Sound K := by
  refine ⟨fun b y at_b => ?_, fun b y at_b => ?_, holders, fun b y at_b => ?_⟩
  all_goals
    rw [slots] at at_b
    split_ifs at at_b
    cases at_b
  · exact used.trans (h.used account x found)
  · exact h.used b y at_b
  · exact distinct
  · exact h.distinct b y at_b
  · exact known
  · exact h.known b y at_b

theorem reserved_setSlot (a : Account) (b : AccountId) : (r.setSlot account a).reserved b =
      r.reserved b + only account (a.reservedResting.val - x.reservedResting.val) b := by
  rw [reserved, slot_setSlot found, reserved, only]
  by_cases same : b = account
  · subst same
    rw [if_pos rfl, if_pos rfl, found, weightOf_some, weightOf_some]
    ring
  · rw [if_neg same, if_neg same, add_zero]

theorem moved_setSlot (used : a.used = x.used)
    (isOpen : a.isOpen = x.isOpen) (perp : a.perp = x.perp) :
    r.Moved K (r.setSlot account a)
      (only account (a.reservedResting.val - x.reservedResting.val)) (· = account) where
  size := List.length_set
  others b other := by rw [slot_setSlot found, if_neg other]
  status b := by
    rw [slot_setSlot found]
    by_cases same : b = account
    · rw [if_pos same, same, found, map_some, map_some, isOpen]
    · rw [if_neg same]
  reserved := reserved_setSlot found a
  sound h := by
    refine h.replace found (slot_setSlot found a) used (perp ▸ h.distinct account x found)
      (perp ▸ h.known account x found) fun m b held => ?_
    obtain ⟨y, p, at_b, listed, rest⟩ := h.holders m b held
    rw [slot_setSlot found]
    by_cases same : b = account
    · subst same
      rw [found] at at_b
      cases at_b
      exact ⟨a, p, if_pos rfl, perp ▸ listed, rest⟩
    · exact ⟨y, p, (if_neg same).trans at_b, listed, rest⟩

theorem moved_store (used : a.used = x.used) (isOpen : a.isOpen = x.isOpen) (perp : a.perp = x.perp)
    (reserved : a.reservedResting = x.reservedResting) (done : r.store account a = .ok r') :
    r.Moved K r' (fun _ => 0) (· = account) := by
  obtain ⟨cached, -, rfl⟩ := store_eq_ok.1 done
  refine (moved_setSlot (a := { a with cached := cached }) found used isOpen perp).restate
    (fun b => ?_) fun _ h => h
  rw [reserved, only]
  simp

/-! ## Collateral -/

omit found

theorem setCollateral_moved (found : r.slot account = some a) {collateral : Amount}
    (done : r.setCollateral account a collateral = .ok r') :
    r.Moved K r' (fun _ => 0) (· = account) :=
  moved_store (a := { a with collateral := collateral }) found rfl rfl rfl rfl done

theorem creditCollateral_ok (done : r.creditCollateral account amount = .ok r') :
    r.Moved K r' (fun _ => 0) (· = account) ∧ 0 ≤ amount.val := by
  simp only [creditCollateral, ok_iff, active_eq_ok] at done
  obtain ⟨-, positive, a, ⟨found, -⟩, updated, -, done⟩ := done
  exact ⟨setCollateral_moved found done, positive⟩

theorem debitCollateral_ok (done : r.debitCollateral account amount = .ok r') :
    r.Moved K r' (fun _ => 0) (· = account) ∧ 0 ≤ amount.val := by
  simp only [debitCollateral, ok_iff, active_eq_ok] at done
  obtain ⟨-, positive, a, ⟨found, -⟩, free, -, -, -, updated, -, done⟩ := done
  exact ⟨setCollateral_moved found done, positive⟩

theorem applyFunding_ok (done : r.applyFunding account amount = .ok r') :
    r.Moved K r' (fun _ => 0) (· = account) := by
  simp only [applyFunding, bind_eq_ok, active_eq_ok] at done
  obtain ⟨a, ⟨found, -⟩, updated, -, done⟩ := done
  exact setCollateral_moved found done

theorem moved_of_same (accounts : r'.accounts = r.accounts) (holders : r'.holders = r.holders) :
    r.Moved K r' (fun _ => 0) fun _ => False := by
  have slots : r'.slot = r.slot := by
    funext b
    rw [slot, slot, accounts]
  refine ⟨congrArg _ accounts, fun b _ => congrFun slots b, fun b => by rw [slots],
    fun b => by rw [reserved, reserved, slots, add_zero], fun h => ⟨?_, ?_, ?_, ?_⟩⟩
  · rw [slots]
    exact h.used
  · rw [slots]
    exact h.distinct
  · rw [slots, holders]
    exact h.holders
  · rw [slots]
    exact h.known

theorem fundInsurance_ok (done : r.fundInsurance amount = .ok r') :
    r.Moved K r' (fun _ => 0) fun _ => False := by
  simp only [fundInsurance, ok_iff] at done
  obtain ⟨-, -, balance, -, rfl⟩ := done
  exact moved_of_same rfl rfl

/-! ## Reservations -/

theorem checkedRestingReservation_ok {next : Amount}
    (done : r.checkedRestingReservation account notional = .ok next) :
    0 ≤ notional.val ∧ ∃ a, r.slot account = some a ∧ a.isOpen = true ∧
      next.val = a.reservedResting.val + notional.val := by
  simp only [checkedRestingReservation, ok_iff, active_eq_ok] at done
  obtain ⟨-, positive, a, ⟨found, -, isOpen⟩, done⟩ := done
  refine ⟨positive, a, found, isOpen, ?_⟩
  split_ifs at done with nothing
  · rw [pure_eq_ok] at done
    rw [← done, nothing, add_zero]
  · simp only [bind_eq_ok, arith_eq_ok, Scalar.checkedAdd_eq_ok, Scalar.checkedSub_eq_ok] at done
    obtain ⟨next', sum, im, -, spare, -, free, -, done⟩ := done
    split_ifs at done with short
    · simp only [bind_eq_ok] at done
      obtain ⟨required, -, ⟨⟩⟩ := done
    · simp only [ok_iff] at done
      obtain ⟨projected, -, -, -, most, -, -, -, rfl⟩ := done
      exact sum

theorem reserveResting_ok (done : r.reserveResting account notional = .ok r') :
    r.Moved K r' (only account notional.val) (· = account) ∧ 0 ≤ notional.val := by
  simp only [reserveResting, ok_iff, active_eq_ok] at done
  obtain ⟨next, checked, a, ⟨found, -⟩, rfl⟩ := done
  obtain ⟨positive, x, at_x, -, sum⟩ := checkedRestingReservation_ok checked
  rw [found] at at_x
  cases at_x
  refine ⟨(moved_setSlot (a := { a with reservedResting := next }) found rfl rfl rfl).restate
    (fun b => ?_) fun _ h => h, positive⟩
  rw [sum]
  simp [only]

theorem releaseResting_ok (done : r.releaseResting account notional = .ok r') :
    r.Moved K r' (only account (-notional.val)) (· = account) ∧ 0 ≤ notional.val := by
  simp only [releaseResting, ok_iff] at done
  obtain ⟨-, positive, done⟩ := done
  refine ⟨?_, positive⟩
  split_ifs at done with nothing
  · rw [pure_eq_ok] at done
    rw [← done]
    refine (Moved.refl r).restate (fun b => ?_) fun _ h => h.elim
    simp [only, nothing]
  · simp only [ok_iff, active_eq_ok, arith_eq_ok, Scalar.checkedSub_eq_ok] at done
    obtain ⟨a, ⟨found, -⟩, -, -, left, difference, rfl⟩ := done
    refine (moved_setSlot (a := { a with reservedResting := left }) found rfl rfl rfl).restate
      (fun b => ?_) fun _ h => h
    rw [difference]
    simp [only]

theorem releaseResting_closed (found : r.slot account = some a) (closed : a.isOpen = false)
    (done : r.releaseResting account notional = .ok r') : r' = r := by
  simp only [releaseResting, ok_iff] at done
  obtain ⟨-, -, done⟩ := done
  split_ifs at done
  · exact (pure_eq_ok.1 done).symm
  · simp only [bind_eq_ok, active_eq_ok] at done
    obtain ⟨x, ⟨found', -, isOpen⟩, -⟩ := done
    rw [found] at found'
    cases found'
    simp [closed] at isOpen

end RiskEngine

end Dexos.Risk
