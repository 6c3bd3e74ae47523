import Mathlib.Algebra.Order.Ring.Int
import Mathlib.Tactic.Ring
import Mathlib.Tactic.Linarith

/-!
# Integers with machine bounds

A bounded integer is an integer with a proof that it lies between its bounds.
Checked operations return nothing when the exact result leaves the range;
saturating operations return the nearest bound. The bytes of a number are listed
least significant first.
-/

namespace Dexos.Foundations

def u32Max : Nat := 2 ^ 32 - 1

/-- The integers between two bounds, both included. -/
abbrev Bounded (lo hi : Int) := { v : Int // lo ≤ v ∧ v ≤ hi }

namespace Bounded

variable {lo hi : Int} {v : Int}

def narrow (v : Int) : Option (Bounded lo hi) :=
  if h : lo ≤ v ∧ v ≤ hi then some ⟨v, h⟩ else none

/-- The nearest value in a range that has some element. -/
def clamp (inhabited : lo ≤ hi) (v : Int) : Bounded lo hi :=
  ⟨max lo (min hi v), le_max_left _ _, max_le inhabited (min_le_left _ _)⟩

/-- The exact sum, or nothing on overflow. -/
def checkedAdd (a b : Bounded lo hi) : Option (Bounded lo hi) := narrow (a.val + b.val)

/-- The exact difference, or nothing on overflow. -/
def checkedSub (a b : Bounded lo hi) : Option (Bounded lo hi) := narrow (a.val - b.val)

/-- The sum, replaced by the nearest bound on overflow. -/
def saturatingAdd (a b : Bounded lo hi) : Bounded lo hi :=
  clamp (a.property.1.trans a.property.2) (a.val + b.val)

/-- The difference, replaced by the nearest bound on overflow. -/
def saturatingSub (a b : Bounded lo hi) : Bounded lo hi :=
  clamp (a.property.1.trans a.property.2) (a.val - b.val)

/-- The opposite, replaced by the nearest bound on overflow. -/
def saturatingNeg (a : Bounded lo hi) : Bounded lo hi :=
  clamp (a.property.1.trans a.property.2) (-a.val)

variable {a b c : Bounded lo hi}

theorem narrow_eq_some : (narrow v : Option (Bounded lo hi)) = some c ↔ c.val = v := by
  rw [narrow]
  split_ifs with inside
  · rw [Option.some.injEq, Subtype.ext_iff]
    exact eq_comm
  · refine iff_of_false (by simp) fun same => inside ?_
    rw [← same]
    exact c.property

theorem narrow_eq_none : (narrow v : Option (Bounded lo hi)) = none ↔ v < lo ∨ hi < v := by
  rw [narrow]
  split_ifs with inside
  · refine iff_of_false (by simp) ?_
    rintro (below | above)
    · exact absurd inside.1 (not_le.2 below)
    · exact absurd inside.2 (not_le.2 above)
  · refine iff_of_true rfl ?_
    rwa [not_and_or, not_le, not_le] at inside

theorem clamp_val (inhabited : lo ≤ hi) (lower : lo ≤ v) (upper : v ≤ hi) :
    (clamp inhabited v).val = v := by
  change max lo (min hi v) = v
  rw [min_eq_right upper, max_eq_right lower]

theorem checkedAdd_eq_some : a.checkedAdd b = some c ↔ c.val = a.val + b.val :=
  narrow_eq_some

theorem checkedSub_eq_some : a.checkedSub b = some c ↔ c.val = a.val - b.val :=
  narrow_eq_some

theorem saturatingSub_val (lower : lo ≤ a.val - b.val) (upper : a.val - b.val ≤ hi) :
    (a.saturatingSub b).val = a.val - b.val :=
  clamp_val _ lower upper

theorem saturatingAdd_val (lower : lo ≤ a.val + b.val) :
    (a.saturatingAdd b).val = min hi (a.val + b.val) := by
  have inhabited := a.property.1.trans a.property.2
  exact max_eq_right (le_min inhabited lower)

end Bounded

def leBytes : Nat → Nat → List UInt8
  | 0, _ => []
  | w + 1, n => UInt8.ofNat n :: leBytes w (n / 256)

def asciiBytes (text : String) : List UInt8 := text.toList.map fun c => UInt8.ofNat c.toNat

/-- The unsigned word of a signed number in two's complement. -/
def toWord (w : Nat) (v : Int) : Nat := (v % (256 ^ w : Nat)).toNat

end Dexos.Foundations
