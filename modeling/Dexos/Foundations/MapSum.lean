import Mathlib.Algebra.Order.BigOperators.Group.List
import Mathlib.Algebra.Order.Ring.Int
import Mathlib.Tactic.Ring
import Dexos.Foundations.OrdMap

/-!
# Sums over maps and over dense columns

The weight of a map is the sum of a weight of its entries. Storing, replacing or removing
one entry changes the sum by the weights at that key and by nothing else; the same holds of
one entry of a dense column.
-/

namespace Dexos.Foundations

open List

variable {K V A : Type} [LinearOrder K]

def weightOf (w : V → Int) : Option V → Int
  | none => 0
  | some v => w v

@[simp] theorem weightOf_none (w : V → Int) : weightOf w none = 0 := rfl

@[simp] theorem weightOf_some (w : V → Int) (v : V) : weightOf w (some v) = w v := rfl

namespace OrdMap

def total (m : OrdMap K V) (w : K → V → Int) : Int := (m.entries.map fun e => w e.1 e.2).sum

/-- The sum splits into the weight at a key and the sum without the key. -/
theorem total_erase (m : OrdMap K V) (w : K → V → Int) (k : K) :
    (m.erase k).total w = m.total w - weightOf (w k) (m.get? k) := by
  cases found : m.get? k with
  | none => rw [erase_of_absent found, weightOf_none, sub_zero]
  | some v =>
    have split : m.total w = w k v + (m.erase k).total w := by
      rw [total, ((entries_perm found).map _).sum_eq]
      rfl
    rw [split, weightOf_some]
    ring

theorem total_insert (m : OrdMap K V) (w : K → V → Int) (k : K) (v : V) :
    (m.insert k v).total w = m.total w - weightOf (w k) (m.get? k) + w k v := by
  have split : (m.insert k v).total w = w k v + (m.erase k).total w := by
    rw [total, ((entries_insert_perm m k v).map _).sum_eq]
    rfl
  rw [split, total_erase]
  ring

/-- One map is another with what is stored at one key changed. -/
def Changed (m m' : OrdMap K V) (k : K) (o : Option V) : Prop :=
  ∀ j, m'.get? j = if j = k then o else m.get? j

theorem changed_insert (m : OrdMap K V) (k : K) (v : V) : m.Changed (m.insert k v) k (some v) :=
  fun j => get?_insert m k j v

theorem changed_erase (m : OrdMap K V) (k : K) : m.Changed (m.erase k) k none := get?_erase m k

section Changed

variable {m m' : OrdMap K V} {k : K} {o : Option V}

theorem Changed.total (changed : m.Changed m' k o) (w : K → V → Int) :
    m'.total w = m.total w - weightOf (w k) (m.get? k) + weightOf (w k) o := by
  cases o with
  | none =>
    obtain rfl : m' = m.erase k := ext fun j => (changed j).trans (get?_erase m k j).symm
    rw [total_erase, weightOf_none, add_zero]
  | some v =>
    obtain rfl : m' = m.insert k v := ext fun j => (changed j).trans (get?_insert m k j v).symm
    rw [total_insert, weightOf_some]

/-- Where entries count at a place that they name, a change that keeps the place shifts the sum
there and nowhere else. -/
theorem Changed.total_at {J : Type} [DecidableEq J] {w : J → K → V → Int} {f : V → J} {g : V → Int}
    {place : J} (changed : m.Changed m' k o) (counts : ∀ j v, w j k v = if j = f v then g v else 0)
    (old : ∀ v, m.get? k = some v → f v = place) (new : ∀ v, o = some v → f v = place) (j : J) :
    m'.total (w j) = m.total (w j) +
      if j = place then weightOf g o - weightOf g (m.get? k) else 0 := by
  have share : ∀ p : Option V, (∀ v, p = some v → f v = place) →
      weightOf (w j k) p = if j = place then weightOf g p else 0 := by
    intro p here
    cases p with
    | none => exact (ite_self 0).symm
    | some v => rw [weightOf_some, counts, here v rfl, weightOf_some]
  rw [changed.total, share _ old, share _ new]
  split_ifs <;> ring

end Changed

theorem total_congr {m : OrdMap K V} {w w' : K → V → Int}
    (same : ∀ k v, m.get? k = some v → w k v = w' k v) : m.total w = m.total w' := by
  refine congrArg List.sum (map_congr_left fun e he => ?_)
  exact same e.1 e.2 (mem_entries.1 he)

theorem total_eq_zero {m : OrdMap K V} {w : K → V → Int}
    (zero : ∀ k v, m.get? k = some v → w k v = 0) : m.total w = 0 := by
  rw [total_congr zero, total]
  simp

/-- The sum of the entries that satisfy a predicate. -/
theorem total_filter (m : OrdMap K V) (p : K → V → Bool) (w : K → V → Int) :
    (m.filter p).total w = m.total fun k v => if p k v then w k v else 0 := by
  rw [total, total, filter]
  dsimp only
  induction m.entries with
  | nil => rfl
  | cons e rest ih =>
    rw [filter_cons, map_cons, sum_cons, ← ih]
    split_ifs with kept
    · rw [map_cons, sum_cons]
    · rw [zero_add]

end OrdMap

/-! ## Dense columns -/

/-- The sum of a weight over a column. -/
def columnTotal (l : List A) (w : A → Int) : Int := (l.map w).sum

theorem columnTotal_set (w : A → Int) {l : List A} {i : Nat} {a : A} (stored : l[i]? = some a)
    (b : A) : columnTotal (l.set i b) w = columnTotal l w - w a + w b := by
  induction l generalizing i with
  | nil => exact absurd stored (by simp)
  | cons x rest ih =>
    cases i with
    | zero =>
      obtain rfl : x = a := by simpa using stored
      simp only [columnTotal, set_cons_zero, map_cons, sum_cons]
      ring
    | succ i =>
      have shifted := ih (i := i) (by simpa using stored)
      simp only [columnTotal, set_cons_succ, map_cons, sum_cons] at shifted ⊢
      rw [shifted]
      ring

end Dexos.Foundations
