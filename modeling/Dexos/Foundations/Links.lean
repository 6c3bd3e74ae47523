import Mathlib.Data.List.Nodup

/-!
# Doubly linked queues in a heap

A heap maps addresses to cells that carry an item and the addresses of the two
neighbours. `Segment heap before q after` says that the addresses of `q` hold its
items, linked in order, from the neighbour `before` to the neighbour `after`.
-/

namespace Dexos.Foundations

open Function List

variable {α : Type} {z : Nat} {x : Nat × α}

/-- An item with the addresses of its neighbours. -/
structure Cell (α : Type) where
  item : α
  prev : Nat
  next : Nat

/-- The first address of a queue, or the address that follows it. -/
def firstAddress (after : Nat) : List (Nat × α) → Nat
  | [] => after
  | x :: _ => x.1

/-- The last address of a queue, or the address that precedes it. -/
def lastAddress (before : Nat) : List (Nat × α) → Nat
  | [] => before
  | x :: rest => lastAddress x.1 rest

/-- The cells at the addresses of the queue hold its items and link it in order. -/
def Segment (heap : Nat → Option (Cell α)) : Nat → List (Nat × α) → Nat → Prop
  | _, [], _ => True
  | before, x :: rest, after =>
    heap x.1 = some ⟨x.2, before, firstAddress after rest⟩ ∧ Segment heap x.1 rest after

variable {heap heap' : Nat → Option (Cell α)} {before after : Nat} {q q' : List (Nat × α)}

@[simp] theorem segment_nil : Segment heap before [] after := trivial

theorem segment_cons :
    Segment heap before (x :: q) after ↔
      heap x.1 = some ⟨x.2, before, firstAddress after q⟩ ∧ Segment heap x.1 q after :=
  Iff.rfl

@[simp] theorem firstAddress_append :
    firstAddress after (q ++ q') = firstAddress (firstAddress after q') q := by
  cases q <;> rfl

@[simp] theorem lastAddress_append :
    lastAddress before (q ++ q') = lastAddress (lastAddress before q) q' := by
  induction q generalizing before with
  | nil => rfl
  | cons x rest ih => exact ih

theorem segment_append :
    Segment heap before (q ++ q') after ↔ Segment heap before q (firstAddress after q') ∧
        Segment heap (lastAddress before q) q' after := by
  induction q generalizing before with
  | nil => simp [lastAddress]
  | cons x rest ih =>
    rw [cons_append, segment_cons, segment_cons, ih, firstAddress_append, and_assoc]
    rfl

theorem lastAddress_mem (before : Nat) : lastAddress before (x :: q) ∈ (x :: q).map Prod.fst := by
  induction q generalizing x before with
  | nil => simp [lastAddress]
  | cons y rest ih => exact mem_cons_of_mem _ (ih x.1)

/-- A segment depends only on the cells at its own addresses. -/
theorem Segment.congr (same : ∀ s ∈ q.map Prod.fst, heap' s = heap s)
    (h : Segment heap before q after) : Segment heap' before q after := by
  induction q generalizing before with
  | nil => trivial
  | cons x rest ih =>
    refine ⟨?_, ih (fun s hs => same s (mem_cons_of_mem _ hs)) h.2⟩
    rw [same x.1 (by simp)]
    exact h.1

theorem Segment.exists_cell (h : Segment heap before q after) (hx : x ∈ q) :
    ∃ c, heap x.1 = some c ∧ c.item = x.2 := by
  induction q generalizing before with
  | nil => simp at hx
  | cons y rest ih =>
    rcases mem_cons.1 hx with rfl | later
    · exact ⟨_, h.1, rfl⟩
    · exact ih h.2 later

/-- Point the successor link of an address elsewhere. -/
def setNext (heap : Nat → Option (Cell α)) (s next : Nat) : Nat → Option (Cell α) :=
  update heap s ((heap s).map fun c => { c with next := next })

/-- Point the predecessor link of an address elsewhere. -/
def setPrev (heap : Nat → Option (Cell α)) (s prev : Nat) : Nat → Option (Cell α) :=
  update heap s ((heap s).map fun c => { c with prev := prev })

theorem Segment.setNext_last {after' : Nat} (distinct : ((x :: q).map Prod.fst).Nodup)
    (h : Segment heap before (x :: q) after) :
    Segment (setNext heap (lastAddress before (x :: q)) after') before (x :: q) after' := by
  induction q generalizing x before with
  | nil =>
    refine ⟨?_, trivial⟩
    rw [setNext, lastAddress, lastAddress, update_self, h.1]
    rfl
  | cons y rest ih =>
    obtain ⟨fresh, distinct⟩ := nodup_cons.1 distinct
    refine ⟨?_, ih distinct h.2⟩
    have other : x.1 ≠ lastAddress before (x :: y :: rest) := fun same =>
      fresh (same ▸ lastAddress_mem x.1)
    rw [setNext, update_of_ne other, h.1]
    rfl

theorem Segment.setPrev_first {before' : Nat} (distinct : ((x :: q).map Prod.fst).Nodup)
    (h : Segment heap before (x :: q) after) :
    Segment (setPrev heap x.1 before') before' (x :: q) after := by
  obtain ⟨fresh, -⟩ := nodup_cons.1 distinct
  refine ⟨?_, h.2.congr fun s hs => ?_⟩
  · rw [setPrev, update_self, h.1]
    rfl
  · have other : s ≠ x.1 := fun same => fresh (same ▸ hs)
    rw [setPrev, update_of_ne other]

/-! ## Relative to a sentinel -/

theorem lastAddress_eq_iff (proper : z ∉ q.map Prod.fst) : lastAddress z q = z ↔ q = [] := by
  cases q with
  | nil => simp [lastAddress]
  | cons x rest =>
    refine iff_of_false (fun same => proper ?_) (by simp)
    rw [← same]
    exact lastAddress_mem z

theorem firstAddress_eq_iff (proper : z ∉ q.map Prod.fst) : firstAddress z q = z ↔ q = [] := by
  cases q with
  | nil => simp [firstAddress]
  | cons x rest =>
    refine iff_of_false (fun same => proper ?_) (by simp)
    rw [← same]
    exact mem_cons_self

/-- Moving the end of a segment that starts at the sentinel. -/
theorem Segment.retarget_last (after' : Nat) (distinct : (q.map Prod.fst).Nodup)
    (proper : z ∉ q.map Prod.fst) (h : Segment heap z q after) :
    Segment (if lastAddress z q = z then heap else setNext heap (lastAddress z q) after') z q
      after' := by
  cases q with
  | nil => trivial
  | cons x rest =>
    rw [if_neg ((lastAddress_eq_iff proper).not.2 (by simp))]
    exact h.setNext_last distinct

/-- Moving the start of a segment that ends at the sentinel. -/
theorem Segment.retarget_first (before' : Nat) (distinct : (q.map Prod.fst).Nodup)
    (proper : z ∉ q.map Prod.fst) (h : Segment heap before q z) :
    Segment (if firstAddress z q = z then heap else setPrev heap (firstAddress z q) before')
      before' q z := by
  cases q with
  | nil => trivial
  | cons x rest =>
    rw [if_neg ((firstAddress_eq_iff proper).not.2 (by simp))]
    exact h.setPrev_first distinct

end Dexos.Foundations
