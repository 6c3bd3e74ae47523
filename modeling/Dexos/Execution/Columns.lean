import Dexos.Execution.Orders

/-!
# Sums of columns and sidecars

A column maps keys to amounts. Adding to one key changes its entry, and every sum over the
column that counts the key, by that amount.
-/

namespace Dexos.Execution

open Foundations Clob Risk

section Columns

variable {K : Type} [LinearOrder K]

/-- The amount at a key, zero when there is no entry. -/
def entryOf (c : OrdMap K Amount) (k : K) : Int := weightOf Subtype.val (c.get? k)

/-- The sum of the entries whose keys satisfy a predicate. -/
def columnSum (c : OrdMap K Amount) (p : K → Prop) [DecidablePred p] : Int :=
  c.total fun k x => if p k then x.val else 0

/-- No entry is zero or negative. -/
def AllPositive (c : OrdMap K Amount) : Prop := ∀ k x, c.get? k = some x → 0 < x.val

/-- One column is another with an amount added at one key. -/
structure Raised (c c' : OrdMap K Amount) (k : K) (x : Int) : Prop where
  entry : ∀ k', entryOf c' k' = entryOf c k' + if k' = k then x else 0
  sum : ∀ (p : K → Prop) [DecidablePred p], columnSum c' p = columnSum c p + if p k then x else 0
  others : ∀ k', k' ≠ k → c'.get? k' = c.get? k'

variable {c c' : OrdMap K Amount} {k : K} {x : Amount}

theorem getD_val (o : Option Amount) : (o.getD I128.zero).val = weightOf Subtype.val o := by
  cases o with
  | none => rfl
  | some v => rfl

theorem Raised.refl (c : OrdMap K Amount) (k : K) : Raised c c k 0 where
  entry k' := by rw [ite_self, add_zero]
  sum p _ := by rw [ite_self, add_zero]
  others _ _ := rfl

theorem Raised.of {o : Option Amount} (changed : c.Changed c' k o) :
    Raised c c' k (weightOf Subtype.val o - entryOf c k) where
  entry k' := by
    rw [entryOf, changed]
    split_ifs with same
    · rw [same]
      ring
    · rw [add_zero]
      rfl
  sum p _ := by
    rw [columnSum, changed.total, columnSum, entryOf]
    have share : ∀ q : Option Amount, (weightOf (fun x => if p k then x.val else 0) q) =
        if p k then weightOf Subtype.val q else 0 := by
      intro q
      cases q with
      | none => exact (ite_self 0).symm
      | some v => rfl
    rw [share, share]
    split_ifs <;> ring
  others k' other := by rw [changed, if_neg other]

theorem raised_insert (c : OrdMap K Amount) (k : K) (v : Amount) :
    Raised c (c.insert k v) k (v.val - entryOf c k) := .of (c.changed_insert k v)

theorem raised_erase (c : OrdMap K Amount) (k : K) : Raised c (c.erase k) k (-entryOf c k) := by
  rw [← zero_sub]
  exact .of (c.changed_erase k)

theorem AllPositive.change {o : Option Amount} (positive : AllPositive c)
    (changed : c.Changed c' k o) (new : ∀ v, o = some v → 0 < v.val) : AllPositive c' := by
  intro j v found
  rw [changed] at found
  split_ifs at found with same
  · exact new v found
  · exact positive j v found

theorem columnAdd_ok (done : columnAdd c k x = .ok c') :
    0 ≤ x.val ∧ Raised c c' k x.val ∧ (AllPositive c → AllPositive c') := by
  simp only [columnAdd, ok_iff] at done
  obtain ⟨-, nonneg, done⟩ := done
  refine ⟨nonneg, ?_⟩
  split_ifs at done with nothing
  · cases done
    rw [nothing]
    exact ⟨Raised.refl c k, id⟩
  · simp only [ok_iff, liftArith_eq_ok, Scalar.checkedAdd_eq_ok] at done
    obtain ⟨sum, total, rfl⟩ := done
    rw [getD_val] at total
    constructor
    · have raised := raised_insert c k sum
      rwa [total, entryOf, add_sub_cancel_left] at raised
    · intro positive
      refine positive.change (c.changed_insert k sum) ?_
      rintro _ ⟨⟩
      have before : 0 ≤ weightOf Subtype.val (c.get? k) := by
        cases held : c.get? k with
        | none => exact le_rfl
        | some u => exact (positive k u held).le
      omega

theorem columnSub_ok (done : columnSub c k x = .ok c') :
    0 ≤ x.val ∧ Raised c c' k (-x.val) ∧ (AllPositive c → AllPositive c') := by
  simp only [columnSub, ok_iff] at done
  obtain ⟨-, nonneg, done⟩ := done
  refine ⟨nonneg, ?_⟩
  split_ifs at done with nothing
  · cases done
    rw [nothing]
    exact ⟨Raised.refl c k, id⟩
  · simp only [ok_iff, liftArith_eq_ok, Scalar.checkedSub_eq_ok] at done
    obtain ⟨current, held, -, covered, next, difference, rfl⟩ := done
    have entry : entryOf c k = current.val := by rw [entryOf, held, weightOf_some]
    split_ifs with empty
    · constructor
      · have raised := raised_erase c k
        rwa [show entryOf c k = x.val by omega] at raised
      · exact fun positive => positive.change (c.changed_erase k) (by rintro _ ⟨⟩)
    · constructor
      · have raised := raised_insert c k next
        rwa [show next.val - entryOf c k = -x.val by omega] at raised
      · refine fun positive => positive.change (c.changed_insert k next) ?_
        rintro _ ⟨⟩
        omega

end Columns

/-! ## Claim sets -/

/-- The claims of one outcome in a claim set. -/
def held (v : List Amount) (i : U16) : Int := weightOf Subtype.val v[i.val]?

/-- The live claims of one outcome of a market. -/
def claimSum (claims : OrdMap AccountMarket (List Amount)) (m : MarketId) (i : U16) : Int :=
  claims.total fun k v => if k.market = m then held v i else 0

theorem held_set {v : List Amount} {i : U16} {x y : Amount} (stored : v[i.val]? = some x)
    (j : U16) : held (v.set i.val y) j = held v j + if j = i then y.val - x.val else 0 := by
  have inside := (List.getElem?_eq_some_iff.1 stored).1
  rw [held, held, List.getElem?_set]
  by_cases same : j = i
  · subst same
    rw [if_pos rfl, if_pos rfl, if_pos inside, stored, weightOf_some, weightOf_some]
    ring
  · rw [if_neg fun h => same (Fin.ext h.symm), if_neg same, add_zero]

theorem claimSum_insert (claims : OrdMap AccountMarket (List Amount)) (k : AccountMarket)
    (v : List Amount) (m : MarketId) (i : U16) :
    claimSum (claims.insert k v) m i = claimSum claims m i +
      if k.market = m then held v i - weightOf (held · i) (claims.get? k) else 0 := by
  rw [claimSum, OrdMap.total_insert, claimSum]
  cases found : claims.get? k with
  | none => split_ifs <;> simp
  | some u => split_ifs <;> simp only [weightOf_some] <;> ring

end Dexos.Execution
