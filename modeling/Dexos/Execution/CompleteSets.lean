import Dexos.Execution.Removal

/-!
# Minting and redeeming complete sets

A complete set is one claim of every outcome against one unit of locked collateral. Minting and
redeeming shift every outcome of one account and the locked collateral by the same amount.
-/

namespace Dexos.Execution

open Foundations Clob Risk List OrdMap Ledger

variable {claims : OrdMap AccountMarket (List Amount)} {locked : OrdMap AccountMarket Amount}
  {v v' : List Amount}

/-! ## Shifts -/

theorem held_shift {x : Int}
    (shifted : Forall₂ (fun a b => b.val = a.val + x) v v') (i : U16) (below : i.val < v.length) :
    held v' i = held v i + x := by
  have below' : i.val < v'.length := shifted.length_eq ▸ below
  rw [held, held, getElem?_eq_getElem below, getElem?_eq_getElem below']
  exact shifted.get below below'

theorem Conserved.shiftSet {markets : OrdMap MarketId MarketMeta} {asks : OrdMap AskKey Amount}
    {locked' : OrdMap AccountMarket Amount} {a : AccountId} {m : MarketId} {info : MarketMeta}
    {x : Int} (conserved : Conserved noGap markets claims asks locked)
    (market : ClaimMarketOf markets m info)
    (before : ∀ i, weightOf (held · i) (claims.get? ⟨a, m⟩) = held v i)
    (length : v.length = info.count.val) (shifted : Forall₂ (fun a b => b.val = a.val + x) v v')
    (nonneg : ∀ y ∈ v', 0 ≤ y.val) (raised : Raised locked locked' ⟨a, m⟩ x)
    (covered : ∀ y, locked'.get? ⟨a, m⟩ = some y → 0 ≤ y.val) :
    Conserved noGap markets (claims.insert ⟨a, m⟩ v') asks locked' := by
  have set : Conserved (fun n _ => if n = m then x else 0) markets (claims.insert ⟨a, m⟩ v') asks
      locked := by
    refine conserved.setClaims market (shifted.length_eq.symm.trans length) nonneg
      (fun i below => ?_) fun n i other => if_neg other
    have inside : i.val < v.length := length ▸ below
    rw [if_pos rfl, before, held_shift shifted i inside, noGap]
    ring
  refine set.raiseLocked market raised covered fun n i => ?_
  rw [sub_self]
  rfl

namespace Engine

variable {sha256 : Sha256} {e e' : Engine sha256} {kind : ReceiptKind}
  {c : CompleteSetOp}

theorem mintCompleteSet_handled (healthy : Healthy e)
    (done : e.mintCompleteSet c = .ok (e', kind)) : Handled (.mintCompleteSet c) e e' := by
  simp only [mintCompleteSet, ok_iff, liftRisk_eq_ok, mapM_eq_ok, liftArith_eq_ok,
    Scalar.checkedAdd_eq_ok] at done
  obtain ⟨info, found, -, claim, -, -, ledger, locked, risk, debited, entry, shifted, sum, total,
    e₁, committed, rfl, rfl⟩ := done
  have market : ClaimMarketOf e.markets c.market info := ⟨found, claim⟩
  obtain ⟨moved, supply, positive, -⟩ := shift_ok locked
  obtain ⟨risked, -⟩ := RiskEngine.debitCollateral_ok (K := e.known) debited
  have raised : Raised e.mintLocked (e.mintLocked.insert ⟨c.account, c.market⟩ sum)
      ⟨c.account, c.market⟩ c.count.val := by
    have raised := raised_insert e.mintLocked ⟨c.account, c.market⟩ sum
    rwa [total, getD_val, entryOf, add_sub_cancel_left] at raised
  have matched := healthy.matched
  refine Handled.ofCash healthy moved risked (.single (.debit debited)) ?_
    (fun a other m => ?_) ?_ committed (by rw [supply]; exact (add_zero _).symm) rfl
    (by rintro k ⟨⟩) (by rintro a ⟨⟩)
  · apply matched.funded.shift moved supply raised (Raised.refl _ ⟨c.account, c.market⟩) <;>
      simp [entryAt]
  · exact get?_insert_ne _ _ fun same => other (congrArg AccountMarket.account same)
  · obtain ⟨length, nonneg, before⟩ := matched.conserved.claimEntry market c.account
    refine matched.conserved.shiftSet market before length shifted (fun y listed => ?_) raised
      fun y stored => ?_
    · obtain ⟨x, there, equal⟩ := exists_of_forall₂ shifted listed
      have before := nonneg x there
      omega
    · rw [get?_insert_self] at stored
      cases stored
      have kept : 0 ≤ weightOf Subtype.val (e.mintLocked.get? ⟨c.account, c.market⟩) := by
        cases old : e.mintLocked.get? ⟨c.account, c.market⟩ with
        | none => exact le_rfl
        | some z => exact (matched.conserved.minted _ z old).1
      rw [getD_val] at total
      omega

theorem redeemCompleteSet_handled (healthy : Healthy e)
    (done : e.redeemCompleteSet c = .ok (e', kind)) : Handled (.redeemCompleteSet c) e e' := by
  simp only [redeemCompleteSet, ok_iff, liftRisk_eq_ok, mapM_eq_ok, liftArith_eq_ok,
    Scalar.checkedSub_eq_ok] at done
  obtain ⟨info, found, -, claim, -, -, entry, held_, -, enough, burned, shifted, ledger, unlocked,
    risk, credited, -, covered, left, difference, e₁, committed, rfl, rfl⟩ := done
  have market : ClaimMarketOf e.markets c.market info := ⟨found, claim⟩
  obtain ⟨moved, supply, positive, -⟩ := shift_ok unlocked
  obtain ⟨risked, -⟩ := RiskEngine.creditCollateral_ok (K := e.known) credited
  have shifted' : Forall₂ (fun a b => b.val = a.val + -c.count.val) entry burned :=
    shifted.imp fun a b equal => by rw [equal]; ring
  rw [getD_val] at covered difference
  have raised : Raised e.mintLocked
      (if left.val = 0 then e.mintLocked.erase ⟨c.account, c.market⟩
        else e.mintLocked.insert ⟨c.account, c.market⟩ left) ⟨c.account, c.market⟩
          (-c.count.val) := by
    split_ifs with nothing
    · have raised := raised_erase e.mintLocked ⟨c.account, c.market⟩
      rwa [show -entryOf e.mintLocked ⟨c.account, c.market⟩ = -c.count.val by
        rw [entryOf]; omega] at raised
    · have raised := raised_insert e.mintLocked ⟨c.account, c.market⟩ left
      rwa [show left.val - entryOf e.mintLocked ⟨c.account, c.market⟩ = -c.count.val by
        rw [entryOf]; omega] at raised
  have matched := healthy.matched
  refine Handled.ofCash healthy moved risked (.single (.credit credited)) ?_
    (fun a other m => ?_) ?_ committed (by rw [supply]; exact (add_zero _).symm) rfl
    (by rintro k ⟨⟩) (by rintro a ⟨⟩)
  · apply matched.funded.shift moved supply raised (Raised.refl _ ⟨c.account, c.market⟩) <;>
      simp [entryAt]
  · exact get?_insert_ne _ _ fun same => other (congrArg AccountMarket.account same)
  · obtain ⟨info', market', length, -⟩ := matched.conserved.sets _ entry held_
    obtain rfl := market.unique market'
    refine matched.conserved.shiftSet market (fun i => ?_) length shifted'
      (fun y listed => ?_) raised
      fun y stored => ?_
    · rw [held_, weightOf_some]
    · obtain ⟨x, there, equal⟩ := exists_of_forall₂ shifted' listed
      have before := enough x there
      omega
    · split_ifs at stored with nothing
      · simp [get?_erase_self] at stored
      · rw [get?_insert_self] at stored
        cases stored
        omega

end Engine

end Dexos.Execution
