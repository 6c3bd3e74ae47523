import Mathlib.Data.List.Pairwise
import Mathlib.Data.List.Sort

/-!
# Ordered finite maps

An ordered map is its list of entries in strictly increasing key order. Two maps
with the same lookups are equal, iteration is in key order, and every operation
evaluates on closed terms.
-/

namespace Dexos.Foundations

open List Option

variable {K V W : Type} [LinearOrder K] {k : K} {l : List (K × V)} {v : V}

/-! ## Lists that grow at the end -/

theorem forall_mem_snoc {l : List V} {p : V → Prop} :
    (∀ x ∈ l ++ [v], p x) ↔ (∀ x ∈ l, p x) ∧ p v := by
  rw [forall_mem_append, forall_mem_singleton]

theorem pairwise_snoc {l : List V} {r : V → V → Prop} :
    (l ++ [v]).Pairwise r ↔ l.Pairwise r ∧ ∀ x ∈ l, r x v := by
  simp [pairwise_append]

theorem nodup_snoc {l : List V} : (l ++ [v]).Nodup ↔ l.Nodup ∧ v ∉ l := by
  rw [← concat_eq_append, nodup_concat, and_comm]

/-! ## Entries -/

/-- Lookup in an entry list. -/
def findEntry (k : K) : List (K × V) → Option V
  | [] => none
  | e :: rest => if k = e.1 then some e.2 else findEntry k rest

/-- Sorted insertion that replaces an entry with the same key. -/
def putEntry (k : K) (v : V) : List (K × V) → List (K × V)
  | [] => [(k, v)]
  | e :: rest =>
    if k < e.1 then (k, v) :: e :: rest
    else if k = e.1 then (k, v) :: rest
    else e :: putEntry k v rest

/-- A finite map, stored as its entries in strictly increasing key order. -/
structure OrdMap (K V : Type) [LinearOrder K] where
  entries : List (K × V)
  sorted : entries.Pairwise fun a b => a.1 < b.1
deriving DecidableEq

theorem mem_putEntry {e : K × V} (h : e ∈ putEntry k v l) : e = (k, v) ∨ e ∈ l := by
  induction l with
  | nil => simpa [putEntry] using h
  | cons a rest ih =>
    rw [putEntry] at h
    split_ifs at h <;> grind

theorem putEntry_sorted (k : K) (v : V) (h : l.Pairwise fun a b => a.1 < b.1) :
    (putEntry k v l).Pairwise fun a b => a.1 < b.1 := by
  induction l with
  | nil => simp [putEntry]
  | cons e rest ih =>
    obtain ⟨head, tail⟩ := pairwise_cons.1 h
    rw [putEntry]
    split_ifs with below same
    · exact pairwise_cons.2
        ⟨forall_mem_cons.2 ⟨below, fun a ha => below.trans (head a ha)⟩, h⟩
    · subst same
      exact pairwise_cons.2 ⟨head, tail⟩
    · refine pairwise_cons.2 ⟨fun a ha => ?_, ih tail⟩
      rcases mem_putEntry ha with rfl | ha
      · exact lt_of_le_of_ne (not_lt.1 below) (Ne.symm same)
      · exact head a ha

theorem findEntry_putEntry (k k' : K) (v : V) (l : List (K × V)) :
    findEntry k' (putEntry k v l) = if k' = k then some v else findEntry k' l := by
  induction l with
  | nil => rfl
  | cons e rest ih =>
    by_cases hit : k' = k
    · rw [putEntry]
      split_ifs with below same <;> simp_all [findEntry]
    · rw [putEntry]
      split_ifs with below same <;> simp_all [findEntry]

theorem mem_iff_findEntry (h : l.Pairwise fun a b => a.1 < b.1) :
    (k, v) ∈ l ↔ findEntry k l = some v := by
  induction l with
  | nil => simp [findEntry]
  | cons e rest ih =>
    obtain ⟨head, tail⟩ := pairwise_cons.1 h
    rw [findEntry, mem_cons]
    split_ifs with same
    · subst same
      constructor
      · rintro (hit | later)
        · rw [← hit]
        · exact absurd (head _ later) (lt_irrefl _)
      · intro hit
        exact .inl (by rw [← Option.some.inj hit])
    · rw [ih tail]
      refine or_iff_right fun hit => same ?_
      rw [← hit]

namespace OrdMap

def empty : OrdMap K V := ⟨[], List.Pairwise.nil⟩

instance : EmptyCollection (OrdMap K V) := ⟨empty⟩

instance : Inhabited (OrdMap K V) := ⟨empty⟩

variable {m : OrdMap K V}

section

variable (m)

def get? (k : K) : Option V := findEntry k m.entries

def contains (k : K) : Bool := (m.get? k).isSome

/-- Store a value, replacing the one at the same key. -/
def insert (k : K) (v : V) : OrdMap K V :=
  ⟨putEntry k v m.entries, putEntry_sorted k v m.sorted⟩

/-- Keep the entries that satisfy a predicate. -/
def filter (p : K → V → Bool) : OrdMap K V :=
  ⟨m.entries.filter fun e => p e.1 e.2, m.sorted.filter _⟩

def erase (k : K) : OrdMap K V := m.filter fun k' _ => k' ≠ k

/-- Apply a function to every value. -/
def mapValues (f : V → W) : OrdMap K W :=
  ⟨m.entries.map fun e => (e.1, f e.2), m.sorted.map _ fun _ _ h => h⟩

/-- The keys in increasing order. -/
def keys : List K := m.entries.map Prod.fst

def values : List V := m.entries.map Prod.snd

def size : Nat := m.entries.length

def isEmpty : Bool := m.entries.isEmpty

end

theorem mem_entries : (k, v) ∈ m.entries ↔ m.get? k = some v :=
  mem_iff_findEntry m.sorted

@[simp] theorem get?_empty (k : K) : (∅ : OrdMap K V).get? k = none := rfl

@[simp] theorem entries_empty : (∅ : OrdMap K V).entries = [] := rfl

section

variable (m)

theorem get?_insert (k k' : K) (v : V) :
    (m.insert k v).get? k' = if k' = k then some v else m.get? k' :=
  findEntry_putEntry k k' v m.entries

@[simp] theorem get?_insert_self (k : K) (v : V) : (m.insert k v).get? k = some v := by
  simp [get?_insert]

theorem get?_insert_ne {k' : K} (v : V) (h : k' ≠ k) : (m.insert k v).get? k' = m.get? k' := by
  simp [get?_insert, h]

theorem get?_filter (p : K → V → Bool) (k : K) : (m.filter p).get? k = (m.get? k).filter (p k) := by
  refine Option.ext fun v => ?_
  rw [← mem_entries, filter_eq_some_iff, ← mem_entries]
  simp [filter]

theorem get?_erase (k k' : K) : (m.erase k).get? k' = if k' = k then none else m.get? k' := by
  rw [erase, get?_filter]
  split_ifs with h
  · simp [h]
  · cases m.get? k' <;> simp [h]

@[simp] theorem get?_erase_self (k : K) : (m.erase k).get? k = none := by
  simp [get?_erase]

theorem get?_mapValues (f : V → W) (k : K) : (m.mapValues f).get? k = (m.get? k).map f := by
  have lookup : ∀ l : List (K × V),
      findEntry k (l.map fun e => (e.1, f e.2)) = (findEntry k l).map f := by
    intro l
    induction l with
    | nil => rfl
    | cons e rest ih =>
      simp only [map_cons, findEntry, ih]
      split_ifs <;> rfl
  exact lookup m.entries

end

theorem contains_iff : m.contains k = true ↔ ∃ v, m.get? k = some v := by
  rw [contains, isSome_iff_exists]

theorem contains_eq_false : m.contains k = false ↔ m.get? k = none := by
  rw [contains, isSome_eq_false_iff, isNone_iff_eq_none]

theorem mem_keys : k ∈ m.keys ↔ ∃ v, m.get? k = some v := by
  simp [keys, mem_entries]

theorem mem_insert_keys {k' : K} : k' ∈ (m.insert k v).keys ↔ k' = k ∨ k' ∈ m.keys := by
  rw [mem_keys, get?_insert, mem_keys]
  by_cases same : k' = k
  · simp [same]
  · simp [same]

theorem mem_foldl_insert {l : List K} {m : OrdMap K Unit} :
    k ∈ (l.foldl (fun m a => m.insert a ()) m).keys ↔ k ∈ l ∨ k ∈ m.keys := by
  induction l generalizing m with
  | nil => exact (or_iff_right not_mem_nil).symm
  | cons a rest ih =>
    rw [foldl_cons, ih, mem_insert_keys, mem_cons]
    tauto

theorem mem_values : v ∈ m.values ↔ ∃ k, m.get? k = some v := by
  simp [values, mem_entries]

theorem keys_sorted (m : OrdMap K V) : m.keys.Pairwise (· < ·) :=
  pairwise_map.2 m.sorted

theorem keys_nodup (m : OrdMap K V) : m.keys.Nodup :=
  m.keys_sorted.imp ne_of_lt

@[ext] theorem ext {m' : OrdMap K V} (h : ∀ k, m.get? k = m'.get? k) : m = m' := by
  have same : m.entries = m'.entries := by
    refine List.Perm.eq_of_pairwise (fun a b _ _ hab hba => absurd hab hba.asymm)
      m.sorted m'.sorted ?_
    refine (perm_ext_iff_of_nodup ?_ ?_).2 fun e => ?_
    · exact m.sorted.imp fun hlt heq => by simp [heq] at hlt
    · exact m'.sorted.imp fun hlt heq => by simp [heq] at hlt
    · rw [mem_entries, mem_entries, h]
  cases m
  cases same
  rfl

theorem insert_get?_self (h : m.get? k = some v) : m.insert k v = m := by
  ext1 k'
  rw [get?_insert]
  split_ifs with hk
  · rw [hk, h]
  · rfl

theorem erase_of_absent (h : m.get? k = none) : m.erase k = m := by
  ext1 k'
  rw [get?_erase]
  split_ifs with hk
  · rw [hk, h]
  · rfl

theorem erase_insert_of_absent (v : V) (h : m.get? k = none) : (m.insert k v).erase k = m := by
  ext1 k'
  rw [get?_erase, get?_insert]
  split_ifs with hk
  · rw [hk, h]
  · rfl

theorem entries_nodup (m : OrdMap K V) : m.entries.Nodup :=
  m.sorted.imp fun hlt heq => by simp [heq] at hlt

/-- A stored entry and the entries at the other keys are all the entries. -/
theorem entries_perm (h : m.get? k = some v) : m.entries.Perm ((k, v) :: (m.erase k).entries) := by
  have fresh : (k, v) ∉ (m.erase k).entries := by simp [mem_entries]
  refine (perm_ext_iff_of_nodup m.entries_nodup
    (nodup_cons.2 ⟨fresh, entries_nodup _⟩)).2 fun e => ?_
  rw [mem_cons, mem_entries, mem_entries, get?_erase, Prod.mk.injEq]
  split_ifs with here
  · subst here
    simp [h, eq_comm]
  · simp [here]

theorem entries_insert_perm (m : OrdMap K V) (k : K) (v : V) :
    (m.insert k v).entries.Perm ((k, v) :: (m.erase k).entries) := by
  have same : (m.insert k v).erase k = m.erase k := by
    ext1 k'
    rw [get?_erase, get?_erase, get?_insert]
    split_ifs <;> rfl
  have stored := entries_perm (get?_insert_self m k v)
  rwa [same] at stored

/-- A key above all others is inserted at the end. -/
theorem entries_insert_last (v : V) (above : ∀ k' v', m.get? k' = some v' → k' < k) :
    (m.insert k v).entries = m.entries ++ [(k, v)] := by
  have last : ∀ l : List (K × V), (∀ e ∈ l, e.1 < k) → putEntry k v l = l ++ [(k, v)] := by
    intro l
    induction l with
    | nil => exact fun _ => rfl
    | cons e rest ih =>
      intro below
      have head : e.1 < k := below e mem_cons_self
      rw [putEntry, if_neg head.asymm, if_neg head.ne', cons_append]
      rw [ih fun a ha => below a (mem_cons_of_mem e ha)]
  exact last m.entries fun e he => above e.1 e.2 (mem_entries.1 he)

theorem entries_erase_first {rest : List (K × V)} (first : m.entries = (k, v) :: rest) :
    (m.erase k).entries = rest := by
  have sorted := m.sorted
  rw [first] at sorted
  have others : ∀ e ∈ rest, e.1 ≠ k := fun e he => (rel_of_pairwise_cons sorted he).ne'
  change m.entries.filter (fun e => decide (e.1 ≠ k)) = rest
  rw [first]
  simpa [filter_eq_self] using others

theorem mapValues_insert (m : OrdMap K V) (f : V → W) (k : K) (v : V) :
    (m.insert k v).mapValues f = (m.mapValues f).insert k (f v) := by
  ext1 k'
  rw [get?_mapValues, get?_insert, get?_insert, get?_mapValues]
  split_ifs <;> rfl

theorem mapValues_erase (m : OrdMap K V) (f : V → W) (k : K) :
    (m.erase k).mapValues f = (m.mapValues f).erase k := by
  ext1 k'
  rw [get?_mapValues, get?_erase, get?_erase, get?_mapValues]
  split_ifs <;> rfl

theorem mem_keys_filter {p : K → V → Bool} :
    k ∈ (m.entries.filter fun x => p x.1 x.2).map Prod.fst ↔ ∃ v, m.get? k = some v ∧
      p k v = true := by
  simp [mem_entries]

/-- Erasing the keys that satisfy a predicate. -/
theorem eq_filter_of_erased {m' : OrdMap K V} (p : K → V → Bool)
    (erased : ∀ k, m'.get? k = if k ∈ (m.entries.filter fun x => p x.1 x.2).map Prod.fst then none
      else m.get? k) : m' = m.filter fun k v => !p k v := by
  ext1 k
  rw [erased, get?_filter]
  cases found : m.get? k with
  | none => rw [ite_self, filter_none]
  | some v =>
    rw [filter_some]
    by_cases gone : p k v = true
    · rw [if_pos (mem_keys_filter.2 ⟨v, found, gone⟩), gone]
      rfl
    · rw [if_neg, Bool.eq_false_iff.2 gone]
      · rfl
      · intro listed
        obtain ⟨v', found', gone'⟩ := mem_keys_filter.1 listed
        rw [found] at found'
        cases found'
        exact gone gone'

end OrdMap

end Dexos.Foundations
