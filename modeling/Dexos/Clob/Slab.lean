import Mathlib.Data.List.Nodup
import Dexos.Clob.Types

/-!
# The slab allocator

A fixed-capacity arena whose free slots form a linked stack. A slot is a `u32`;
`nil`, the largest one, ends every chain. An indexing panic is the result `none`.
-/

namespace Dexos.Clob

open Foundations List Option Function

variable {α : Type}

/-- `NIL`: the sentinel slot. -/
def nil : Nat := u32Max

/-- One arena slot. -/
inductive Entry (α : Type) where
  | occupied (value : α)
  | free (next : Nat)
deriving DecidableEq

/-- The value of an occupied entry. -/
def Entry.value? : Entry α → Option α
  | .occupied v => some v
  | .free _ => none

def Entry.isOccupied (e : Entry α) : Bool := e.value?.isSome

def Entry.isFree (e : Entry α) : Bool := !e.isOccupied

structure Slab (α : Type) where
  entries : List (Entry α)
  freeHead : Nat
  len : Nat
  capacity : Nat
deriving DecidableEq

namespace Slab

variable {i : Nat} {v : α} {slots : List Nat}

def withCapacity (capacity : Nat) : Slab α := ⟨[], nil, 0, capacity⟩

def get (s : Slab α) (index : Nat) : Option α := s.entries[index]?.bind Entry.value?

/-- A write through `Slab::get_mut`. -/
def modify (s : Slab α) (index : Nat) (f : α → α) : Slab α :=
  match s.entries[index]? with
  | some (.occupied v) => { s with entries := s.entries.set index (.occupied (f v)) }
  | _ => s

def insert (s : Slab α) (value : α) : Option (Except SlabError (Nat × Slab α)) :=
  if s.freeHead ≠ nil then
    match s.entries[s.freeHead]? with
    | none => none
    | some (.occupied _) => some (.error .invalidSlot)
    | some (.free next) =>
      some (.ok (s.freeHead, { s with
          entries := s.entries.set s.freeHead (.occupied value)
          freeHead := next
          len := s.len + 1 }))
  else if s.capacity ≤ s.entries.length then some (.error .capacityExhausted)
  else if s.entries.length ≤ u32Max then
    some (.ok (s.entries.length,
      { s with entries := s.entries ++ [.occupied value], len := s.len + 1 }))
  else some (.error .capacityExhausted)

def remove (s : Slab α) (index : Nat) : Except SlabError (α × Slab α) :=
  match s.entries[index]? with
  | none => .error .invalidSlot
  | some (.free _) => .error .notOccupied
  | some (.occupied v) =>
    .ok (v, { s with
        entries := s.entries.set index (.free s.freeHead)
        freeHead := index
        len := s.len - 1 })

/-! ## The allocator invariant -/

/-- Following the free links from a slot visits exactly the listed slots. -/
def FreeChain (entries : List (Entry α)) : Nat → List Nat → Prop
  | cur, [] => cur = nil
  | cur, s :: rest => cur = s ∧ ∃ next, entries[s]? = some (.free next) ∧
      FreeChain entries next rest

/-- The allocator is sound: the live count is right, the free list visits every free
slot once, and every slot is below the sentinel. -/
structure Sound (s : Slab α) : Prop where
  len_eq : s.len = s.entries.countP Entry.isOccupied
  bounded : s.entries.length ≤ s.capacity
  addressable : s.entries.length ≤ nil
  chain : ∃ slots, FreeChain s.entries s.freeHead slots ∧ slots.Nodup ∧
    slots.length = s.entries.countP Entry.isFree

theorem FreeChain.free_of_mem {entries : List (Entry α)} {cur : Nat}
    (h : FreeChain entries cur slots) {s : Nat} (hs : s ∈ slots) :
    ∃ next, entries[s]? = some (.free next) := by
  induction slots generalizing cur with
  | nil => simp at hs
  | cons head rest ih =>
    obtain ⟨-, next, stored, tail⟩ := h
    rcases mem_cons.1 hs with rfl | later
    · exact ⟨next, stored⟩
    · exact ih tail later

theorem FreeChain.congr {entries entries' : List (Entry α)} {cur : Nat}
    (same : ∀ s ∈ slots, entries'[s]? = entries[s]?) (h : FreeChain entries cur slots) :
    FreeChain entries' cur slots := by
  induction slots generalizing cur with
  | nil => exact h
  | cons head rest ih =>
    obtain ⟨here, next, stored, tail⟩ := h
    refine ⟨here, next, ?_, ih (fun s hs => same s (mem_cons_of_mem _ hs)) tail⟩
    rwa [same head (by simp)]

theorem countP_free_add_occupied (entries : List (Entry α)) :
    entries.countP Entry.isFree + entries.countP Entry.isOccupied = entries.length := by
  rw [Nat.add_comm, length_eq_countP_add_countP Entry.isOccupied]
  congr 2
  ext e
  simp [Entry.isFree]

theorem countP_set {p : Entry α → Bool} {entries : List (Entry α)} {i : Nat} {old new : Entry α}
    (h : entries[i]? = some old) :
    (entries.set i new).countP p + (p old).toNat = entries.countP p + (p new).toNat := by
  induction entries generalizing i with
  | nil => simp at h
  | cons head rest ih =>
    cases i with
    | zero =>
      obtain rfl : head = old := by simpa using h
      simp only [set_cons_zero, countP_cons]
      cases p head <;> cases p new <;> simp
    | succ i =>
      have := ih (by simpa using h)
      simp only [set_cons_succ, countP_cons]
      omega

theorem withCapacity_sound (capacity : Nat) : (withCapacity capacity : Slab α).Sound where
  len_eq := rfl
  bounded := Nat.zero_le _
  addressable := Nat.zero_le _
  chain := ⟨[], rfl, nodup_nil, rfl⟩

variable {s : Slab α}

theorem get_eq_some : s.get i = some v ↔ s.entries[i]? = some (.occupied v) := by
  rw [get]
  rcases s.entries[i]? with _ | (_ | _) <;> simp [Entry.value?]

theorem get_set (inside : i < s.entries.length) (e : Entry α) :
    get { s with entries := s.entries.set i e } = update s.get i e.value? := by
  ext1 j
  by_cases here : j = i
  · subst here
    simp [get, inside]
  · rw [update_of_ne here, get, get, getElem?_set_ne (Ne.symm here)]

/-- A live slot is never the sentinel. -/
theorem Sound.lt_nil (h : s.Sound) (live : s.get i = some v) : i < nil := by
  obtain ⟨inside, -⟩ := List.getElem?_eq_some_iff.1 (get_eq_some.1 live)
  exact lt_of_lt_of_le inside h.addressable

/-! ## Specifications -/

theorem Sound.insert_ok (h : s.Sound) (room : s.len < s.capacity) (small : s.len < u32Max)
    (value : α) :
    ∃ slot s', s.insert value = some (.ok (slot, s')) ∧ s'.Sound ∧ s.get slot = none ∧
      s'.get = update s.get slot (some value) ∧ s'.len = s.len + 1 ∧ s'.capacity = s.capacity := by
  obtain ⟨slots, chain, distinct, covers⟩ := h.chain
  have total := countP_free_add_occupied s.entries
  have counted := h.len_eq
  cases slots with
  | nil =>
    -- No slot is free, so every entry is occupied and the arena grows.
    have head : s.freeHead = nil := chain
    have full : s.entries.length = s.len := by
      simp only [length_nil] at covers
      omega
    refine ⟨s.entries.length,
      { s with entries := s.entries ++ [.occupied value], len := s.len + 1 }, ?_, ?_, ?_, ?_,
      rfl, rfl⟩
    · rw [insert, if_neg (not_not.2 head), if_neg (by omega), if_pos (by omega)]
    · constructor
      · simp [countP_append, Entry.isOccupied, Entry.value?, counted]
      · simp only [length_append, length_singleton]
        omega
      · simp only [length_append, length_singleton, nil]
        omega
      · exact ⟨[], head, nodup_nil, by
          simpa [countP_append, Entry.isFree, Entry.isOccupied, Entry.value?] using covers⟩
    · simp [get]
    · ext1 i
      by_cases here : i = s.entries.length
      · subst here
        simp [get, Entry.value?]
      · rw [update_of_ne here]
        rcases Nat.lt_or_gt_of_ne here with before | after
        · simp [get, getElem?_append_left before]
        · rw [get, get, getElem?_eq_none (Nat.le_of_lt after), getElem?_eq_none]
          simpa using Nat.succ_le_of_lt after
  | cons slot rest =>
    obtain ⟨head, next, stored, tail⟩ := chain
    obtain ⟨fresh, distinct⟩ := List.nodup_cons.1 distinct
    obtain ⟨inside, -⟩ := List.getElem?_eq_some_iff.1 stored
    have below : slot < nil := lt_of_lt_of_le inside h.addressable
    refine ⟨slot, { s with
        entries := s.entries.set slot (.occupied value)
        freeHead := next
        len := s.len + 1 }, ?_, ?_, ?_, ?_, rfl, rfl⟩
    · rw [insert, head, if_pos below.ne, stored]
    · have occupied := @countP_set α Entry.isOccupied _ _ _ (.occupied value) stored
      have free := @countP_set α Entry.isFree _ _ _ (.occupied value) stored
      constructor
      · rw [counted]
        exact occupied.symm
      · exact length_set.trans_le h.bounded
      · exact length_set.trans_le h.addressable
      · refine ⟨rest, tail.congr fun i hi => ?_, distinct, ?_⟩
        · rw [getElem?_set_ne]
          rintro rfl
          exact fresh hi
        · exact Nat.succ_injective (covers.trans free.symm)
    · simp [get, stored, Entry.value?]
    · exact get_set inside _

theorem Sound.insert_full (h : s.Sound) (full : s.capacity ≤ s.len) (value : α) :
    s.insert value = some (.error .capacityExhausted) := by
  obtain ⟨slots, chain, -, covers⟩ := h.chain
  have total := countP_free_add_occupied s.entries
  have counted := h.len_eq
  have bounded := h.bounded
  have none_free : slots = [] := by
    apply eq_nil_of_length_eq_zero
    omega
  subst none_free
  have head : s.freeHead = nil := chain
  rw [insert, if_neg (not_not.2 head), if_pos (by omega)]

theorem Sound.remove_ok (h : s.Sound) (live : s.get i = some v) :
    ∃ s', s.remove i = .ok (v, s') ∧ s'.Sound ∧ s'.get = update s.get i none ∧
      s'.len + 1 = s.len ∧ s'.capacity = s.capacity := by
  have stored := get_eq_some.1 live
  obtain ⟨slots, chain, distinct, covers⟩ := h.chain
  have occupied := @countP_set α Entry.isOccupied _ _ _ (.free s.freeHead) stored
  have free := @countP_set α Entry.isFree _ _ _ (.free s.freeHead) stored
  simp only [Entry.isOccupied, Entry.isFree, Entry.value?, isSome_none,
    isSome_some, Bool.not_true, Bool.not_false, Bool.toNat_false, Bool.toNat_true] at occupied free
  have counted := h.len_eq
  -- An occupied slot is not on the free list, so pushing it keeps the list duplicate free.
  have fresh : i ∉ slots := by
    intro listed
    obtain ⟨next, clash⟩ := chain.free_of_mem listed
    simp [stored] at clash
  refine ⟨{ s with
      entries := s.entries.set i (.free s.freeHead)
      freeHead := i
      len := s.len - 1 }, ?_, ?_, ?_, ?_, rfl⟩
  · rw [remove, stored]
  · constructor
    · rw [counted]
      exact Nat.sub_eq_of_eq_add occupied.symm
    · exact length_set.trans_le h.bounded
    · exact length_set.trans_le h.addressable
    · obtain ⟨inside, -⟩ := List.getElem?_eq_some_iff.1 stored
      refine ⟨i :: slots, ⟨rfl, s.freeHead, ?_, ?_⟩, List.nodup_cons.2 ⟨fresh, distinct⟩, ?_⟩
      · simp [inside]
      · refine chain.congr fun j hj => getElem?_set_ne ?_
        rintro rfl
        exact fresh hj
      · rw [length_cons, covers]
        exact free.symm
  · exact get_set (List.getElem?_eq_some_iff.1 stored).1 _
  · change s.len - 1 + 1 = s.len
    omega

theorem get_modify (s : Slab α) (i : Nat) (f : α → α) :
    (s.modify i f).get = update s.get i ((s.get i).map f) := by
  rw [modify]
  split
  · rename_i v stored
    rw [get_eq_some.2 stored]
    exact get_set (List.getElem?_eq_some_iff.1 stored).1 _
  · rename_i unstored
    have absent : s.get i = none := by
      rw [eq_none_iff_forall_ne_some]
      intro v live
      exact unstored v (get_eq_some.1 live)
    rw [absent, map_none, ← absent, update_eq_self]

@[simp] theorem len_modify (s : Slab α) (i : Nat) (f : α → α) : (s.modify i f).len = s.len := by
  rw [modify]
  split <;> rfl

@[simp] theorem capacity_modify (s : Slab α) (i : Nat) (f : α → α) :
    (s.modify i f).capacity = s.capacity := by
  rw [modify]
  split <;> rfl

theorem Sound.modify (h : s.Sound) (i : Nat) (f : α → α) : (s.modify i f).Sound := by
  rw [Slab.modify]
  split
  · rename_i v stored
    have occupied := @countP_set α Entry.isOccupied _ _ _ (.occupied (f v)) stored
    have free := @countP_set α Entry.isFree _ _ _ (.occupied (f v)) stored
    simp only [Entry.isOccupied, Entry.isFree, Entry.value?, isSome_some,
      Nat.add_right_cancel_iff] at occupied free
    obtain ⟨slots, chain, distinct, covers⟩ := h.chain
    constructor
    · exact h.len_eq.trans occupied.symm
    · exact length_set.trans_le h.bounded
    · exact length_set.trans_le h.addressable
    · refine ⟨slots, chain.congr fun j hj => getElem?_set_ne ?_, distinct, covers.trans free.symm⟩
      rintro rfl
      obtain ⟨next, clash⟩ := chain.free_of_mem hj
      simp [stored] at clash
  · exact h

end Slab

end Dexos.Clob
