import Dexos.Risk.Closing

/-!
# What the engine asks of the risk engine

The exchange engine composes a few operations of the risk engine: changes of collateral, funding
and fees, reservations, fills in opposite pairs, and, one at a time, opened accounts, marks and
liquidations of accounts whose markets are marked. A path is a sequence of them that all returned.
-/

namespace Dexos.Risk.RiskEngine

open Foundations Clob List

/-- The operations that a command composes freely; fills come in opposite pairs. -/
inductive Trade : RiskEngine → RiskEngine → Prop
  | credit {r r' : RiskEngine} {account : AccountId} {amount : Amount}
      (done : r.creditCollateral account amount = .ok r') : Trade r r'
  | debit {r r' : RiskEngine} {account : AccountId} {amount : Amount}
      (done : r.debitCollateral account amount = .ok r') : Trade r r'
  | funding {r r' : RiskEngine} {account : AccountId} {amount : Amount}
      (done : r.applyFunding account amount = .ok r') : Trade r r'
  | fee {r r' : RiskEngine} {account : AccountId} {amount : Amount}
      (done : r.applyFee account amount = .ok r') : Trade r r'
  | insurance {r r' : RiskEngine} {amount : Amount}
      (done : r.fundInsurance amount = .ok r') : Trade r r'
  | reserve {r r' : RiskEngine} {account : AccountId} {notional : Amount}
      (done : r.reserveResting account notional = .ok r') : Trade r r'
  | release {r r' : RiskEngine} {account : AccountId} {notional : Amount}
      (done : r.releaseResting account notional = .ok r') : Trade r r'
  | pair {r r₁ r' : RiskEngine} {a b : AccountId} {m : MarketId} {q q' : Quantity} {price : Price}
      (opposite : q'.val = -q.val) (first : r.applyFill a m q price = .ok r₁)
      (second : r₁.applyFill b m q' price = .ok r') : Trade r r'

/-- Trades, one after another. -/
abbrev Trades : RiskEngine → RiskEngine → Prop := Relation.ReflTransGen Trade

/-- Everything that a command asks of the risk engine. -/
inductive Act : RiskEngine → RiskEngine → Prop
  | trade {r r' : RiskEngine} (done : Trade r r') : Act r r'
  | opened {r r' : RiskEngine} {account : AccountId} {collateral : Amount}
      (done : r.openAccount account collateral = .ok r') : Act r r'
  | marked {r r' : RiskEngine} {m : MarketId} {price : Price}
      (done : r.setMarkPrice m price = .ok r') : Act r r'
  | liquidated {r r' : RiskEngine} {account : AccountId} {outcome : LiquidationOutcome}
      (marked : ∀ x, r.slot account = some x → ∀ p ∈ x.perp, (r.markFor p.market).isSome = true)
      (done : r.liquidate account = .ok (r', outcome)) : Act r r'

/-- Acts, one after another. -/
abbrev Path : RiskEngine → RiskEngine → Prop := Relation.ReflTransGen Act

theorem Trades.path {r r' : RiskEngine} (trades : Trades r r') : Path r r' :=
  Relation.ReflTransGen.mono (fun _ _ done => Act.trade done) _ _ trades

/-! ## Marks -/

section Marks

variable {r r' : RiskEngine} {account : AccountId} {m : MarketId} {price : Price} {qty : Quantity}

/-- Growing the slab adds unmarked markets. -/
theorem growMarket_markFor (done : r.growMarket m = .ok r') (m' : MarketId) :
    r'.markFor m' = r.markFor m' := by
  simp only [growMarket, ok_iff] at done
  obtain ⟨-, -, rfl⟩ := done
  rw [markFor, markFor, market, market, getElem?_append]
  split_ifs with inside
  · rfl
  · rw [getElem?_eq_none (not_lt.1 inside), getElem?_replicate]
    split_ifs <;> rfl

theorem modifyMarket_markFor {f : MarketSlot → MarketSlot} (kept : ∀ s, (f s).mark = s.mark)
    (m' : MarketId) : (r.modifyMarket m f).markFor m' = r.markFor m' := by
  rw [markFor, markFor, market, market, modifyMarket, getElem?_modify]
  cases r.markets[m'.val]? with
  | none => rfl
  | some s =>
    split_ifs
    · exact kept s
    · rfl

theorem syncMarketHolder_markFor {holds : Bool}
    (done : r.syncMarketHolder account m holds = .ok r') (m' : MarketId) :
    r'.markFor m' = r.markFor m' := by
  simp only [syncMarketHolder, ok_iff] at done
  obtain ⟨grown, grew, rfl⟩ := done
  rw [← growMarket_markFor grew]
  refine modifyMarket_markFor ?_ m'
  exact fun s => rfl

theorem store_markFor {a : Account} (done : r.store account a = .ok r') (m' : MarketId) :
    r'.markFor m' = r.markFor m' := by
  obtain ⟨cached, -, rfl⟩ := store_eq_ok.1 done
  rfl

theorem fillIndex_markFor (done : r.fillIndex account m qty price = .ok r') (m' : MarketId) :
    r'.markFor m' = r.markFor m' := by
  simp only [fillIndex, bind_eq_ok] at done
  obtain ⟨a, -, filled, -, collateral, -, synced, sync, stored⟩ := done
  rw [store_markFor stored, syncMarketHolder_markFor sync]

theorem applyFill_markFor (done : r.applyFill account m qty price = .ok r') (m' : MarketId) :
    r'.markFor m' = r.markFor m' := by
  simp only [applyFill, bind_eq_ok] at done
  obtain ⟨-, -, done⟩ := done
  exact fillIndex_markFor done m'

theorem openAccount_markFor {collateral : Amount} (done : r.openAccount account collateral = .ok r')
    (m : MarketId) : r'.markFor m = r.markFor m := by
  simp only [openAccount, growAccounts, ok_iff] at done
  obtain ⟨-, -, grown, ⟨-, -, rfl⟩, -, -, stored⟩ := done
  exact store_markFor stored m

theorem setMarkPrice_markFor (done : r.setMarkPrice m price = .ok r') (m' : MarketId) :
    r'.markFor m' = if m' = m then some price else r.markFor m' := by
  simp only [setMarkPrice, bind_eq_ok] at done
  obtain ⟨grown, grew, refreshed⟩ := done
  have inside := (growMarket_ok grew).2.2
  have kept : r'.markFor m' =
      (grown.modifyMarket m fun s => { s with mark := some price }).markFor m' := by
    refine foldlM_keeps (P := fun s : RiskEngine => s.markFor m' =
      (grown.modifyMarket m fun s => { s with mark := some price }).markFor m') rfl ?_ refreshed
    intro b _ s s' same step
    rw [recompute] at step
    cases found : s.slot b with
    | none =>
      rw [found] at step
      cases step
      exact same
    | some a =>
      rw [found] at step
      exact (store_markFor step m').trans same
  rw [kept, ← growMarket_markFor grew, markFor, markFor, market, market, modifyMarket,
    getElem?_modify]
  by_cases same : m' = m
  · subst same
    rw [getElem?_eq_getElem inside]
    simp
  · have apart : m.val ≠ m'.val := fun equal => same (Fin.ext equal.symm)
    simp only [if_neg same, if_neg apart, id_map']

theorem closeAccount_markFor {victim : AccountId} (done : r.closeAccount victim = .ok r')
    (m : MarketId) :
    r'.markFor m = r.markFor m := by
  simp only [closeAccount, ok_iff] at done
  obtain ⟨a, -, e, stored, rfl⟩ := done
  have left : (r.leaveMarkets victim).markFor m = r.markFor m := by
    rw [markFor, markFor, market, market, leaveMarkets, getElem?_map]
    cases r.markets[m.val]? <;> rfl
  exact (store_markFor stored m).trans left

end Marks

end Dexos.Risk.RiskEngine
