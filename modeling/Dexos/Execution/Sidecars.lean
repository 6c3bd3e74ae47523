import Dexos.Execution.Handlers
import Dexos.Execution.Matched

/-!
# What happens to sidecars

Reserves and escrow records are created, drawn on and released by small steps. Each of them
touches the account of the record and keeps all subsystems in agreement.
-/

namespace Dexos.Execution

open Foundations Clob Risk OrdMap RiskEngine

namespace Engine

variable {sha256 : Sha256} {e e' e'' : Engine sha256} {k : OrderKey}
  {account : AccountId} {risk : RiskEngine} {r : OrderReserve}

/-- A step that keeps every relation and mints nothing. -/
structure Step (S : AccountId → Prop) (e e' : Engine sha256) : Prop where
  touches : Touches S e e'
  matched : Matched e → Matched e'
  locked : e'.mintLocked = e.mintLocked
  trades : e.risk.Trades e'.risk

namespace Step

variable {S T : AccountId → Prop}

theorem refl (S : AccountId → Prop) (e : Engine sha256) : Step S e e :=
  ⟨Touches.refl S e, id, rfl, .refl⟩

theorem append (first : Step S e e') (second : Step S e' e'') : Step S e e'' :=
  ⟨first.touches.append second.touches, fun h => second.matched (first.matched h),
    second.locked.trans first.locked, first.trades.trans second.trades⟩

theorem mono (step : Step S e e') (more : ∀ a, S a → T a) : Step T e e' :=
  ⟨step.touches.mono more, step.matched, step.locked, step.trades⟩

theorem ofRisk {risk : RiskEngine} (moved : e.risk.Moved e.known risk (fun _ => 0) S)
    (trades : e.risk.Trades risk) : Step S e { e with risk := risk } :=
  ⟨Touches.ofRisk moved, fun matched => matched.moveRisk moved, rfl, trades⟩

end Step

/-! ## Reserves -/

theorem eraseReserve_step (found : e.orderReserves.get? k = some r)
    (released : e.risk.releaseResting r.account r.reserved = .ok risk) :
    Step (fun a => a = r.account ∧ r.reserved ≠ I128.zero) e
      { e with orderReserves := e.orderReserves.erase k, risk := risk } := by
  obtain ⟨moved, -⟩ := releaseResting_ok (K := e.known) released
  have same : r.reserved = I128.zero → risk = e.risk := by
    intro nothing
    rw [nothing] at released
    exact (Except.ok.inj released).symm
  have precise : e.risk.Moved e.known risk (only r.account (-r.reserved.val))
      fun a => a = r.account ∧ r.reserved ≠ I128.zero :=
    { moved with
      others := fun a other => by
        by_cases nothing : r.reserved = I128.zero
        · rw [same nothing]
        · exact moved.others a fun mine => other ⟨mine, nothing⟩ }
  refine ⟨{ Touches.ofRisk precise with }, fun matched => ?_, rfl, .single (.release released)⟩
  exact { matched with
    reserved := matched.reserved.change moved (e.orderReserves.changed_erase k)
      (fun q there => congrArg OrderReserve.account (Option.some.inj (there.symm.trans found)))
      (by rintro _ ⟨⟩) (by rw [found, weightOf_none, weightOf_some, zero_sub])
    aligned := matched.aligned.moveRisk moved }

theorem releaseOrderReserve_ok (done : e.releaseOrderReserve k account = .ok e') :
    Step (· = account) e e' ∧ e'.orderReserves = e.orderReserves.erase k ∧
      e'.claimEscrows = e.claimEscrows := by
  rw [releaseOrderReserve] at done
  cases found : e.orderReserves.get? k with
  | none =>
    rw [found] at done
    cases done
    exact ⟨Step.refl _ e, (erase_of_absent found).symm, rfl⟩
  | some r =>
    simp only [found, ok_iff, liftRisk_eq_ok] at done
    obtain ⟨-, rfl, risk, released, rfl⟩ := done
    exact ⟨(eraseReserve_step found released).mono fun a h => h.1, rfl, rfl⟩

theorem dropReserve_ok (done : e.dropReserve k = .ok e') :
    Step (fun a => ∃ r, e.orderReserves.get? k = some r ∧ a = r.account) e e' ∧
      e'.orderReserves = e.orderReserves.erase k ∧ e'.claimEscrows = e.claimEscrows := by
  rw [dropReserve] at done
  cases found : e.orderReserves.get? k with
  | none =>
    rw [found] at done
    cases done
    exact ⟨Step.refl _ e, (erase_of_absent found).symm, rfl⟩
  | some r =>
    simp only [found, ok_iff, liftRisk_eq_ok] at done
    obtain ⟨risk, released, rfl⟩ := done
    exact ⟨(eraseReserve_step found released).mono fun a h => ⟨r, rfl, h.1⟩, rfl, rfl⟩

theorem insertReserve_step (absent : e.orderReserves.get? k = none)
    (reserved : e.risk.reserveResting r.account r.reserved = .ok risk) :
    Step (· = r.account) e
      { e with risk := risk, orderReserves := e.orderReserves.insert k r } := by
  obtain ⟨moved, -⟩ := reserveResting_ok (K := e.known) reserved
  refine ⟨{ Touches.ofRisk moved with }, fun matched => ?_, rfl, .single (.reserve reserved)⟩
  exact { matched with
    reserved := matched.reserved.change moved (e.orderReserves.changed_insert k r)
      (fun q there => absurd (absent.symm.trans there) nofun) (by rintro _ ⟨⟩; rfl)
      (by rw [absent, weightOf_none, weightOf_some, sub_zero])
    aligned := matched.aligned.moveRisk moved }

theorem reserveOrder_ok {notional : Amount} {qty : Quantity}
    (absent : e.orderReserves.get? k = none)
    (done : e.reserveOrder k account notional qty = .ok e') :
    Step (· = account) e e' ∧ e'.claimEscrows = e.claimEscrows ∧ ∀ j, e'.orderReserves.get? j =
        if j = k then (if notional.val = 0 then none else some ⟨account, notional, qty⟩)
        else e.orderReserves.get? j := by
  rw [reserveOrder] at done
  split_ifs at done with nothing
  · cases done
    refine ⟨Step.refl _ e, rfl, fun j => ?_⟩
    split_ifs with same
    · rw [same, absent]
    · rfl
  · simp only [ok_iff, liftRisk_eq_ok] at done
    obtain ⟨risk, reserved, rfl⟩ := done
    refine ⟨insertReserve_step (r := ⟨account, notional, qty⟩) absent reserved, rfl, fun j => ?_⟩
    rw [get?_insert, if_neg nothing]

/-- A fill leaves the reserve of the order's remaining quantity. -/
theorem telescopeReserve_ok {fill : Fill} (done : e.telescopeReserve k fill = .ok e') :
    Step (fun a => ∃ r, e.orderReserves.get? k = some r ∧ a = r.account) e e' ∧
      e'.claimEscrows = e.claimEscrows ∧ ∀ j, e'.orderReserves.get? j =
        if j = k then (e.orderReserves.get? k).bind fun r =>
          let left := r.qtyRemaining.saturatingSub fill.quantity
          if left.val = 0 then none else some ⟨r.account, Price.notional fill.price left, left⟩
        else e.orderReserves.get? j := by
  rw [telescopeReserve] at done
  cases found : e.orderReserves.get? k with
  | none =>
    rw [found] at done
    cases done
    refine ⟨Step.refl _ e, rfl, fun j => ?_⟩
    split_ifs with same
    · rw [same, found, Option.bind_none]
    · rfl
  | some r =>
    simp only [found, ok_iff, liftArith_eq_ok, Scalar.checkedSub_eq_ok, liftRisk_eq_ok] at done
    obtain ⟨release, difference, risk, released, rfl⟩ := done
    obtain ⟨moved, -⟩ := releaseResting_ok (K := e.known) released
    set left := r.qtyRemaining.saturatingSub fill.quantity
    have changed : e.orderReserves.Changed (if left.val = 0 then e.orderReserves.erase k
        else e.orderReserves.insert k ⟨r.account, Price.notional fill.price left, left⟩) k
        (if left.val = 0 then none
          else some ⟨r.account, Price.notional fill.price left, left⟩) := by
      split_ifs with consumed
      · exact changed_erase _ k
      · exact changed_insert _ k _
    refine ⟨⟨{ Touches.ofRisk (moved.restate (fun _ => rfl) fun a mine => ⟨r, rfl, mine⟩) with },
      fun matched => ?_, rfl, .single (.release released)⟩, rfl, changed⟩
    refine { matched with
      reserved := matched.reserved.change moved changed
        (fun q there => congrArg OrderReserve.account (Option.some.inj (there.symm.trans found)))
        (fun q there => ?_) ?_
      aligned := matched.aligned.moveRisk moved }
    · split_ifs at there
      cases there
      rfl
    · rw [found, difference, weightOf_some, neg_sub]
      split_ifs with consumed
      · -- Nothing is left, so all of the reserve is released.
        rw [Price.notional_val, consumed, mul_zero, Int.zero_tdiv, weightOf_none]
      · rw [weightOf_some]

end Engine

end Dexos.Execution
