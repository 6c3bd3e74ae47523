import Dexos.Risk.Holders

/-!
# What a liquidation does

A liquidation closes one account for good. It fills the counterparties it reports and debits
the accounts it reports, and leaves every other account alone.
-/

namespace Dexos.Risk

open Foundations Clob List

namespace RiskEngine

variable {K : MarketId → Prop} {r r' : RiskEngine} {victim : AccountId} {leg : PerpPosition}
  {c : Candidate} {s s' : Deleveraging} {mark : Price} {victimQty : Quantity} {m : MarketId}

/-! ## Deleveraging -/

/-- The victim and the counterparties of the fills are all that deleveraging touched. -/
def Deleveraged (K : MarketId → Prop) (r : RiskEngine) (victim : AccountId) (r' : RiskEngine)
    (fills : List AdlFill) : Prop :=
  r.Moved K r' (fun _ => 0) fun b => b = victim ∨ b ∈ fills.map AdlFill.counterparty

/-- A fill of the victim on top of what deleveraging did so far. -/
theorem Deleveraged.fillVictim {s s' : RiskEngine} {fills : List AdlFill}
    {qty : Quantity} {price : Price} (known : K m) (so_far : r.Deleveraged K victim s fills)
    (done : s.fillIndex victim m qty price = .ok s') : r.Deleveraged K victim s' fills := by
  refine (so_far.trans (fillIndex_ok known done)).restate (fun _ => rfl) fun b touched => ?_
  exact touched.elim id .inl

theorem signed_eq_ok {v : Int} {q : Quantity} (done : signed v = .ok q) : q.val = v := by
  rw [signed, arith_eq_ok, orError_eq_ok] at done
  exact Bounded.narrow_eq_some.1 done

/-- One turn of the transfer loop: nothing, or a fill of the counterparty and one of the victim. -/
theorem transferTo_cases (done : transferTo victim victimQty m mark s c = .ok s') :
    (s' = s ∧ (s.remaining = 0 ∨ c.quantity.val = 0)) ∨
      ∃ transfer counterFill victimFill e₁ e₂, s.remaining ≠ 0 ∧
        transfer.val = min |s.remaining| |c.quantity.val| ∧ transfer.val ≠ 0 ∧
        counterFill.val = (if 0 < c.quantity.val then -transfer.val else transfer.val) ∧
        victimFill.val = (if 0 < victimQty.val then -transfer.val else transfer.val) ∧
        s.engine.fillIndex c.account m counterFill mark = .ok e₁ ∧
        e₁.fillIndex victim m victimFill mark = .ok e₂ ∧
        s' = ⟨e₂, s.remaining + victimFill.val, s.fills ++ [⟨c.account, m, transfer, mark⟩]⟩ := by
  rw [transferTo] at done
  by_cases closed : s.remaining = 0
  · rw [if_pos closed] at done
    cases done
    exact .inl ⟨rfl, .inl closed⟩
  · rw [if_neg closed, bind_eq_ok] at done
    obtain ⟨transfer, size, done⟩ := done
    have size := signed_eq_ok size
    by_cases nothing : transfer.val = 0
    · rw [if_pos nothing] at done
      cases done
      refine .inl ⟨rfl, .inr ?_⟩
      have positive : 0 < |s.remaining| := abs_pos.2 closed
      have small : |c.quantity.val| = 0 := by
        omega
      exact abs_eq_zero.1 small
    · rw [if_neg nothing] at done
      simp only [ok_iff] at done
      obtain ⟨counterFill, counterQty, victimFill, victimQty', e₁, counter, e₂, mine, rfl⟩ := done
      exact .inr ⟨transfer, counterFill, victimFill, e₁, e₂, closed, size, nothing,
        signed_eq_ok counterQty, signed_eq_ok victimQty', counter, mine, rfl⟩

/-- The close of a leg: at its own entry without a mark, otherwise by transfers at the mark and,
if they do not suffice, on the victim alone. -/
theorem closeLeg_cases {s s' : RiskEngine × List AdlFill} (done : closeLeg victim s leg = .ok s') :
    (s.1.markFor leg.market = none ∧ ∃ close e, close.val = -leg.netQty.val ∧
      s.1.fillIndex victim leg.market close leg.avgEntry = .ok e ∧ s' = (e, s.2)) ∨
    ∃ mark candidates after, s.1.markFor leg.market = some mark ∧
      s.1.ranked victim leg.netQty leg.market mark = .ok candidates ∧
      candidates.foldlM (transferTo victim leg.netQty leg.market mark) ⟨s.1, leg.netQty.val, s.2⟩ =
        .ok after ∧ (after.remaining = 0 ∧ s' = (after.engine, after.fills) ∨
          ∃ close e, after.remaining ≠ 0 ∧ close.val = -after.remaining ∧
          after.engine.fillIndex victim leg.market close mark = .ok e ∧ s' = (e, after.fills)) := by
  rw [closeLeg] at done
  cases marked : s.1.markFor leg.market with
  | none =>
    simp only [marked, ok_iff, arith_eq_ok] at done
    obtain ⟨close, whole, e, mine, rfl⟩ := done
    exact .inl ⟨rfl, close, e, Bounded.narrow_eq_some.1 whole, mine, rfl⟩
  | some mark =>
    simp only [marked, bind_eq_ok] at done
    obtain ⟨candidates, ranking, after, transferred, done⟩ := done
    refine .inr ⟨mark, candidates, after, rfl, ranking, transferred, ?_⟩
    split_ifs at done with closed
    · cases done
      exact .inl ⟨closed, rfl⟩
    · simp only [ok_iff] at done
      obtain ⟨close, whole, e, mine, rfl⟩ := done
      exact .inr ⟨close, e, closed, signed_eq_ok whole, mine, rfl⟩

theorem transferTo_deleveraged (known : K m) (so_far : r.Deleveraged K victim s.engine s.fills)
    (done : transferTo victim victimQty m mark s c = .ok s') :
    r.Deleveraged K victim s'.engine s'.fills := by
  obtain ⟨rfl, -⟩ | ⟨transfer, counterFill, victimFill, e₁, e₂, -, -, -, -, -, counter, mine,
    rfl⟩ :=
    transferTo_cases done
  · exact so_far
  · refine Deleveraged.fillVictim known ?_ mine
    refine (so_far.trans (fillIndex_ok known counter)).restate (fun _ => rfl) fun b touched => ?_
    rwa [map_append, mem_append, map_singleton, mem_singleton, ← or_assoc]

theorem closeLeg_deleveraged {s s' : RiskEngine × List AdlFill}
    (known : K leg.market) (so_far : r.Deleveraged K victim s.1 s.2)
    (done : closeLeg victim s leg = .ok s') : r.Deleveraged K victim s'.1 s'.2 := by
  obtain ⟨-, close, e, -, mine, rfl⟩ | ⟨mark, candidates, after, -, -, transferred, done⟩ :=
    closeLeg_cases done
  · exact so_far.fillVictim known mine
  · have moved : r.Deleveraged K victim after.engine after.fills :=
      foldlM_keeps (P := fun s : Deleveraging => r.Deleveraged K victim s.engine s.fills) so_far
        (fun _ _ _ _ held step => transferTo_deleveraged known held step) transferred
    obtain ⟨-, rfl⟩ | ⟨close, e, -, -, mine, rfl⟩ := done
    · exact moved
    · exact moved.fillVictim known mine

theorem autoDeleverage_ok {s : RiskEngine × List AdlFill} (sound : r.Sound K)
    (done : r.autoDeleverage victim = .ok s) : r.Deleveraged K victim s.1 s.2 := by
  simp only [autoDeleverage, ok_iff] at done
  obtain ⟨a, found, done⟩ := done
  refine foldlM_keeps (P := fun s : RiskEngine × List AdlFill => r.Deleveraged K victim s.1 s.2)
    ?_ (fun leg listed _ _ held step => closeLeg_deleveraged ?_ held step) done
  · exact (Moved.refl r).restate (fun _ => rfl) fun _ h => h.elim
  · exact sound.known victim a found leg (mem_of_mem_filter listed)

/-! ## The shortfall -/

/-- The pool of a haircut has open accounts only. -/
theorem isOpen_of_solvent {i : Nat} {c : Int} (pooled : (i, c) ∈ r.solvent victim) :
    ∃ x, r.accounts[i]? = some x ∧ x.isOpen = true := by
  rw [solvent, mem_filterMap] at pooled
  obtain ⟨⟨x, j⟩, listed, chosen⟩ := pooled
  split_ifs at chosen with skipped
  cases chosen
  rw [not_or, not_or, Bool.not_eq_false] at skipped
  exact ⟨x, mem_zipIdx_iff_getElem?.1 listed, skipped.2.1⟩

variable {s : RiskEngine × Amount × List (AccountId × Amount)} {amount : Amount}

/-- A haircut keeps what every charge of an account that was open keeps. -/
theorem socialize_keeps {P : RiskEngine × Amount × List (AccountId × Amount) → Prop}
    (start : P (r, I128.zero, []))
    (charge : ∀ s account debit a collateral e charged, P s →
      (r.slot account).any Account.isOpen = true → s.1.slot account = some a →
      s.1.setCollateral account a collateral = .ok e → P (e, charged, s.2.2 ++ [(account, debit)]))
    (done : r.socialize victim amount = .ok s) : P s := by
  rw [socialize] at done
  split_ifs at done with nothing
  · cases done
    exact start
  · simp only [bind_eq_ok] at done
    obtain ⟨total, -, done⟩ := done
    split_ifs at done with empty
    · cases done
      exact start
    · simp only [bind_eq_ok] at done
      obtain ⟨shares, -, loop⟩ := done
      refine foldlM_keeps start ?_ loop
      rintro ⟨i, share⟩ listed s s' so_far step
      rw [chargeShare] at step
      split_ifs at step
      · cases step
        exact so_far
      · simp only [ok_iff] at step
        obtain ⟨account, named, debit, -, a, found, collateral, -, e, stored, charged, -, rfl⟩ :=
          step
        refine charge s account debit a collateral e charged so_far ?_ found stored
        obtain ⟨⟨j, c⟩, pooled, rfl⟩ := mem_map.1 (of_mem_zip listed).1
        obtain ⟨y, here, isOpen⟩ := isOpen_of_solvent pooled
        rw [accountOf] at named
        split_ifs at named with inside
        cases named
        rwa [slot, here]

/-- The debited accounts are all that the haircuts touched. -/
def Charged (K : MarketId → Prop) (r : RiskEngine)
    (s : RiskEngine × Amount × List (AccountId × Amount)) : Prop :=
  r.Moved K s.1 (fun _ => 0) (· ∈ s.2.2.map Prod.fst)

theorem socialize_ok (done : r.socialize victim amount = .ok s) : r.Charged K s := by
  refine socialize_keeps (P := r.Charged K) ?_ ?_ done
  · exact (Moved.refl r).restate (fun _ => rfl) fun _ h => h.elim
  · intro s account debit a collateral e charged so_far _ found stored
    refine (so_far.trans (setCollateral_moved found stored)).restate (fun _ => rfl)
      fun b touched => ?_
    rwa [map_append, mem_append, map_singleton, mem_singleton]

theorem coverShortfall_ok {finalEquity : Amount}
    {s : RiskEngine × Amount × Amount × Amount × List (AccountId × Amount)}
    (done : r.coverShortfall victim finalEquity = .ok s) :
    r.Moved K s.1 (fun _ => 0) (· ∈ s.2.2.2.2.map Prod.fst) := by
  simp only [coverShortfall, ok_iff] at done
  obtain ⟨shortfall, -, balance, -, uncovered, -, total, -, s', shared, rfl⟩ := done
  have drawn : r.Moved K { r with insurance := balance, socializedTotal := total } (fun _ => 0)
      fun _ => False := moved_of_same rfl rfl
  exact (drawn.trans (socialize_ok shared)).restate (fun _ => rfl) fun _ h => h.resolve_left id

/-! ## The close -/

theorem holders_leaveMarkets (m : MarketId) :
    (r.leaveMarkets victim).holders m = (r.holders m).erase victim := by
  simp only [holders, market, leaveMarkets, getElem?_map]
  cases r.markets[m.val]? with
  | none => rfl
  | some s => rfl

/-- A closed account loses its positions, its collateral and its places in the indexes. -/
theorem closeAccount_cases (done : r.closeAccount victim = .ok r') :
    ∃ x a, r.slot victim = some x ∧ a.used = x.used ∧ a.isOpen = false ∧ a.perp = [] ∧
      a.payout = [] ∧ a.collateral = I128.zero ∧ a.reservedResting = I128.zero ∧
      (r.leaveMarkets victim).computeColumns a = .ok a.cached ∧
      r' = { (r.leaveMarkets victim).setSlot victim a with
        liqQueue := r.liqQueue.remove victim } := by
  simp only [closeAccount, ok_iff] at done
  obtain ⟨x, found, e, stored, rfl⟩ := done
  obtain ⟨cached, computed, rfl⟩ := store_eq_ok.1 stored
  exact ⟨x, { x with
      perp := [], payout := [], collateral := I128.zero, reservedResting := I128.zero
      isOpen := false, cached := cached },
    found, rfl, rfl, rfl, rfl, rfl, rfl, computed, rfl⟩

theorem slots_of_close {x a : Account} (found : r.slot victim = some x) (closed : r' =
      { (r.leaveMarkets victim).setSlot victim a with liqQueue := r.liqQueue.remove victim }) :
    r'.accounts.length = r.accounts.length ∧
      (∀ b, r'.slot b = if b = victim then some a else r.slot b) ∧
      ∀ m, r'.holders m = (r.holders m).erase victim := by
  rw [closed]
  exact ⟨length_set, slot_setSlot (r := r.leaveMarkets victim) found a, holders_leaveMarkets⟩

theorem closeAccount_ok (done : r.closeAccount victim = .ok r') :
    r'.accounts.length = r.accounts.length ∧ (∀ b, b ≠ victim → r'.slot b = r.slot b) ∧
      (∃ x a, r.slot victim = some x ∧ r'.slot victim = some a ∧ a.used = x.used ∧
        a.isOpen = false ∧ a.perp = [] ∧ a.reservedResting = I128.zero) ∧
      (r.Sound K → r'.Sound K) := by
  obtain ⟨x, a, found, used, isOpen, perp, -, -, reserved, -, closed⟩ := closeAccount_cases done
  obtain ⟨size, slots, index⟩ := slots_of_close found closed
  refine ⟨size, fun b other => (slots b).trans (if_neg other),
    ⟨x, a, found, (slots victim).trans (if_pos rfl), used, isOpen, perp, reserved⟩, fun sound => ?_⟩
  refine sound.replace found slots used (perp ▸ nodup_nil) (by simp [perp]) fun m b held => ?_
  rw [index, OrdMap.get?_erase] at held
  split_ifs at held with same
  obtain ⟨y, p, at_b, rest⟩ := sound.holders m b held
  exact ⟨y, p, ((slots b).trans (if_neg same)).trans at_b, rest⟩

/-- What a liquidation leaves, and which accounts it touched. -/
theorem liquidate_ok {out : LiquidationOutcome} (sound : r.Sound K)
    (done : r.liquidate victim = .ok (r', out)) :
    ∃ mid : RiskEngine, r.Moved K mid (fun _ => 0) (fun b => b = victim ∨
      b ∈ out.adlFills.map AdlFill.counterparty ∨ b ∈ out.haircuts.map Prod.fst) ∧
      mid.closeAccount victim = .ok r' := by
  simp only [liquidate, ok_iff] at done
  obtain ⟨-, -, deleveraged, legs, a, found, e, stored, a', -, done⟩ := done
  have cleared : r.Deleveraged K victim e deleveraged.2 := by
    have moved := moved_store (K := K) (a := { a with payout := [] }) found rfl rfl rfl rfl stored
    refine ((autoDeleverage_ok sound legs).trans moved).restate (fun _ => rfl) fun b touched => ?_
    exact touched.elim id .inl
  split_ifs at done with short
  · simp only [ok_iff] at done
    obtain ⟨covered, paid, e', closed, rfl, rfl⟩ := done
    refine ⟨covered.1, ?_, closed⟩
    refine (cleared.trans (coverShortfall_ok paid)).restate (fun _ => rfl) fun b touched => ?_
    rwa [← or_assoc]
  · simp only [ok_iff] at done
    obtain ⟨e', closed, rfl, rfl⟩ := done
    exact ⟨e, cleared.restate (fun _ => rfl) fun b touched => touched.imp_right .inl, closed⟩

end RiskEngine

end Dexos.Risk
