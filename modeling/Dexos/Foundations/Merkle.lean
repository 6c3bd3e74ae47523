import Mathlib.Data.Nat.Log
import Mathlib.Data.List.Basic
import Mathlib.Data.List.Induction
import Mathlib.Tactic.Ring

/-!
# Incremental Merkle trees

A complete binary tree in level order: the root is node one, the children of node `j` are
`2 * j` and `2 * j + 1`, and the leaves are the last `2 ^ depth` nodes. A tree carries the
proof that every internal node combines its children, so a tree is its leaves: updates along
one root path and a rebuild from scratch give the same nodes, and the siblings along a root
path recompute the root.
-/

namespace Dexos.Foundations

open List

variable {H : Type} {i : Nat}

/-- The node at a position of the level order. -/
def nodeAt (zero : H) (nodes : List H) (j : Nat) : H := nodes.getD j zero

theorem nodeAt_set (zero : H) (nodes : List H) (inside : i < nodes.length) (h : H) (j : Nat) :
    nodeAt zero (nodes.set i h) j = if j = i then h else nodeAt zero nodes j := by
  rw [nodeAt, getD_eq_getElem?_getD, getElem?_set]
  split_ifs with here there there
  · rfl
  · exact absurd here.symm there
  · exact absurd there.symm here
  · rw [nodeAt, getD_eq_getElem?_getD]

section

variable (combine : H → H → H) (zero : H)

/-- Recompute one internal node from its children. -/
def refresh (nodes : List H) (j : Nat) : List H :=
  nodes.set j (combine (nodeAt zero nodes (2 * j)) (nodeAt zero nodes (2 * j + 1)))

/-- Recompute the nodes of a root path, from a node upwards. -/
def climb : Nat → Nat → List H → List H
  | 0, _, nodes => nodes
  | n + 1, i, nodes => climb n (i / 2) (refresh combine zero nodes i)

/-- Recompute the internal nodes from the last one to the root. -/
def rebuild : Nat → List H → List H
  | 0, nodes => nodes
  | j + 1, nodes => rebuild j (refresh combine zero nodes (j + 1))

/-- A complete tree whose internal nodes all combine their children. -/
structure MerkleTree where
  depth : Nat
  nodes : List H
  size : nodes.length = 2 * 2 ^ depth
  combined : ∀ j, 0 < j → j < 2 ^ depth → nodeAt zero nodes j =
    combine (nodeAt zero nodes (2 * j)) (nodeAt zero nodes (2 * j + 1))

end

section

variable {combine : H → H → H} {zero : H} {nodes : List H} {j : Nat} {limit : Nat}

theorem length_refresh (nodes : List H) (j : Nat) :
    (refresh combine zero nodes j).length = nodes.length :=
  length_set

theorem nodeAt_refresh (inside : i < nodes.length) (j : Nat) :
    nodeAt zero (refresh combine zero nodes i) j =
      if j = i then combine (nodeAt zero nodes (2 * i)) (nodeAt zero nodes (2 * i + 1))
      else nodeAt zero nodes j :=
  nodeAt_set zero nodes inside _ j

/-- A node that combines its children. -/
def Combined (combine : H → H → H) (zero : H) (nodes : List H) (j : Nat) : Prop :=
  nodeAt zero nodes j = combine (nodeAt zero nodes (2 * j)) (nodeAt zero nodes (2 * j + 1))

theorem combined_refresh (inside : i < nodes.length) (positive : 0 < i) :
    Combined combine zero (refresh combine zero nodes i) i := by
  rw [Combined, nodeAt_refresh inside, nodeAt_refresh inside, nodeAt_refresh inside,
    if_pos rfl, if_neg (by omega), if_neg (by omega)]

/-- Recomputing a node keeps the nodes that are neither it nor its parent. -/
theorem Combined.refresh (held : Combined combine zero nodes j) (inside : i < nodes.length)
    (other : j ≠ i) (left : 2 * j ≠ i) (right : 2 * j + 1 ≠ i) :
    Combined combine zero (refresh combine zero nodes i) j := by
  rw [Combined, nodeAt_refresh inside, nodeAt_refresh inside, nodeAt_refresh inside,
    if_neg other, if_neg left, if_neg right]
  exact held

theorem length_climb (n i : Nat) (nodes : List H) :
    (climb combine zero n i nodes).length = nodes.length := by
  induction n generalizing i nodes with
  | zero => rfl
  | succ n ih => rw [climb, ih, length_refresh]

theorem nodeAt_climb_of_lt (n : Nat) (inside : i < nodes.length) (later : i < j) :
    nodeAt zero (climb combine zero n i nodes) j = nodeAt zero nodes j := by
  induction n generalizing i nodes with
  | zero => rfl
  | succ n ih =>
    rw [climb, ih (by rw [length_refresh]; omega) (by omega), nodeAt_refresh inside,
      if_neg (by omega)]

/-- Climbing repairs a tree in which only one root path is out of date. -/
theorem combined_climb {n : Nat} (range : 2 ^ n ≤ 2 * i ∧ i < 2 ^ n) (long : 2 ^ n ≤ nodes.length)
    (held : ∀ j, 0 < j → j < limit → (∀ k, j ≠ i / 2 ^ k) → Combined combine zero nodes j) :
    ∀ j, 0 < j → j < limit → Combined combine zero (climb combine zero n i nodes) j := by
  -- The induction moves up the path; the nodes still out of date are the ancestors of `i`.
  induction n generalizing i nodes with
  | zero => omega
  | succ n ih =>
    have inside : i < nodes.length := by omega
    have positive : 0 < i := by omega
    rcases Nat.eq_zero_or_pos n with rfl | deeper
    · -- The root is the only node left.
      obtain rfl : i = 1 := by omega
      intro j above below
      by_cases here : j = 1
      · rw [here]
        exact combined_refresh inside positive
      · refine (held j above below fun k => ?_).refresh inside here (by omega) (by omega)
        rcases Nat.eq_zero_or_pos k with rfl | hk
        · simpa using here
        · have : (1 : Nat) / 2 ^ k = 0 := Nat.div_eq_of_lt (Nat.one_lt_two_pow (by omega))
          omega
    · have even : 2 ^ n = 2 * 2 ^ (n - 1) := by rw [← pow_succ', Nat.sub_add_cancel deeper]
      refine ih ⟨by omega, by omega⟩ (by rw [length_refresh]; omega) fun j above below off => ?_
      by_cases here : j = i
      · rw [here]
        exact combined_refresh inside positive
      · have parent : j ≠ i / 2 := by simpa using off 0
        refine (held j above below fun k => ?_).refresh inside here (by omega) (by omega)
        rcases k with _ | k
        · simpa using here
        · rw [pow_succ', ← Nat.div_div_eq_div_mul]
          exact off k

theorem length_rebuild (j : Nat) (nodes : List H) :
    (rebuild combine zero j nodes).length = nodes.length := by
  induction j generalizing nodes with
  | zero => rfl
  | succ j ih => rw [rebuild, ih, length_refresh]

theorem nodeAt_rebuild_of_lt (inside : i < nodes.length) (later : i < j) :
    nodeAt zero (rebuild combine zero i nodes) j = nodeAt zero nodes j := by
  induction i generalizing nodes with
  | zero => rfl
  | succ i ih =>
    rw [rebuild, ih (by rw [length_refresh]; omega) (by omega), nodeAt_refresh inside,
      if_neg (by omega)]

theorem combined_rebuild (inside : i < nodes.length)
    (held : ∀ j, i < j → j < limit → Combined combine zero nodes j) :
    ∀ j, 0 < j → j < limit → Combined combine zero (rebuild combine zero i nodes) j := by
  induction i generalizing nodes with
  | zero => exact held
  | succ i ih =>
    refine ih (by rw [length_refresh]; omega) fun j later below => ?_
    by_cases here : j = i + 1
    · rw [here]
      exact combined_refresh inside (by omega)
    · exact (held j (by omega) below).refresh inside here (by omega) (by omega)

namespace MerkleTree

variable {idx : Nat} {t u : MerkleTree combine zero}

section

variable (t)

def capacity : Nat := 2 ^ t.depth

def leaf (i : Nat) : H := nodeAt zero t.nodes (t.capacity + i)

def root : H := nodeAt zero t.nodes 1

/-- The tree of a depth over given leaves, rebuilt from the leaves to the root. -/
def ofLeaves (combine : H → H → H) (zero : H) (depth : Nat) (leaves : Nat → H) :
    MerkleTree combine zero where
  depth := depth
  nodes := rebuild combine zero (2 ^ depth - 1)
    (replicate (2 ^ depth) zero ++ (range (2 ^ depth)).map leaves)
  size := by
    rw [length_rebuild, length_append, length_replicate, length_map, length_range, two_mul]
  combined := by
    have positive := Nat.two_pow_pos depth
    refine combined_rebuild ?_ fun j later below => by omega
    rw [length_append, length_replicate]
    omega

/-- The smallest tree with room for some leaves, all of them zero. -/
def new (combine : H → H → H) (zero : H) (minLeaves : Nat) : MerkleTree combine zero :=
  ofLeaves combine zero (Nat.clog 2 minLeaves) fun _ => zero

/-- Store a leaf and recompute its root path. -/
def set (index : Nat) (leaf : H) (inside : index < t.capacity) : MerkleTree combine zero where
  depth := t.depth
  nodes := climb combine zero t.depth ((t.capacity + index) / 2)
    (t.nodes.set (t.capacity + index) leaf)
  size := by rw [length_climb, length_set, t.size]
  combined := by
    have size := t.size
    rw [capacity] at inside ⊢
    have slot : 2 ^ t.depth + index < t.nodes.length := by omega
    rcases Nat.eq_zero_or_pos t.depth with flat | deep
    · rw [flat]
      intro j above below
      omega
    · have even : 2 ^ t.depth = 2 * 2 ^ (t.depth - 1) := by
        rw [← pow_succ', Nat.sub_add_cancel deep]
      refine combined_climb ⟨by omega, by omega⟩ (by rw [length_set]; omega) ?_
      intro j above below off
      have parent : j ≠ (2 ^ t.depth + index) / 2 := by simpa using off 0
      rw [Combined, nodeAt_set zero _ slot, nodeAt_set zero _ slot, nodeAt_set zero _ slot,
        if_neg (by omega), if_neg (by omega), if_neg (by omega)]
      exact t.combined j above below

theorem capacity_pos : 0 < t.capacity := Nat.two_pow_pos t.depth

theorem leaf_set (index : Nat) (h : H) (inside : index < t.capacity) (i : Nat) :
    (t.set index h inside).leaf i = if i = index then h else t.leaf i := by
  have size := t.size
  have positive := t.capacity_pos
  rw [capacity] at inside positive
  change nodeAt zero (climb combine zero t.depth ((t.capacity + index) / 2)
    (t.nodes.set (t.capacity + index) h)) (t.capacity + i) = _
  rw [capacity, nodeAt_climb_of_lt _ (by rw [length_set]; omega) (by omega),
    nodeAt_set zero _ (by omega), leaf, capacity]
  simp only [Nat.add_left_cancel_iff]

end

theorem leaf_ofLeaves (depth : Nat) (leaves : Nat → H) (inside : i < 2 ^ depth) :
    (ofLeaves combine zero depth leaves).leaf i = leaves i := by
  change nodeAt zero (rebuild combine zero (2 ^ depth - 1)
    (replicate (2 ^ depth) zero ++ (range (2 ^ depth)).map leaves)) (2 ^ depth + i) = _
  rw [nodeAt_rebuild_of_lt (by rw [length_append, length_replicate]; omega) (by omega)]
  rw [nodeAt, getD_eq_getElem?_getD,
    getElem?_append_right (by rw [length_replicate]; omega), length_replicate,
    Nat.add_sub_cancel_left, getElem?_map, getElem?_range inside]
  rfl

theorem leaf_of_le (t : MerkleTree combine zero) (beyond : t.capacity ≤ i) : t.leaf i = zero := by
  have size := t.size
  rw [capacity] at beyond
  rw [leaf, nodeAt, getD_eq_getElem?_getD, getElem?_eq_none (by rw [capacity]; omega)]
  rfl

theorem leaf_new (minLeaves i : Nat) : (new combine zero minLeaves).leaf i = zero := by
  by_cases inside : i < 2 ^ Nat.clog 2 minLeaves
  · exact leaf_ofLeaves _ _ inside
  · exact leaf_of_le _ (Nat.le_of_not_lt inside)

/-- Trees of one depth with the same leaves have the same nodes. -/
theorem nodeAt_eq_of_leaf (depth : t.depth = u.depth)
    (leaves : ∀ i < t.capacity, t.leaf i = u.leaf i) (positive : 0 < j)
    (inside : j < 2 * t.capacity) : nodeAt zero t.nodes j = nodeAt zero u.nodes j := by
  -- The induction runs from the leaves to the root.
  induction gap : 2 * t.capacity - j using Nat.strong_induction_on generalizing j with
  | _ gap ih =>
    rw [capacity] at inside gap leaves
    by_cases internal : j < 2 ^ t.depth
    · rw [t.combined j positive internal, u.combined j positive (depth ▸ internal)]
      congr 1
      · exact ih (2 * 2 ^ t.depth - 2 * j) (by omega) (by omega) (by rw [capacity]; omega)
          (by rw [capacity])
      · exact ih (2 * 2 ^ t.depth - (2 * j + 1)) (by omega) (by omega) (by rw [capacity]; omega)
          (by rw [capacity])
    · have stored := leaves (j - 2 ^ t.depth) (by omega)
      rwa [leaf, leaf, capacity, capacity, ← depth, Nat.add_sub_cancel' (by omega)] at stored

theorem root_eq_of_leaf (depth : t.depth = u.depth)
    (leaves : ∀ i < t.capacity, t.leaf i = u.leaf i) : t.root = u.root :=
  nodeAt_eq_of_leaf depth leaves Nat.one_pos (by have := t.capacity_pos; omega)

/-- Any tree has the root of a rebuild from its leaves. -/
theorem root_eq_ofLeaves (t : MerkleTree combine zero) {leaves : Nat → H}
    (stored : ∀ i < t.capacity, t.leaf i = leaves i) :
    t.root = (ofLeaves combine zero t.depth leaves).root :=
  root_eq_of_leaf rfl fun i inside => by rw [stored i inside, leaf_ofLeaves _ _ inside]

/-! ## Inclusion proofs -/

/-- The node with the same parent. -/
def sibling (i : Nat) : Nat := if i % 2 = 0 then i + 1 else i - 1

/-- The siblings along a root path, from a node upwards. -/
def siblings (t : MerkleTree combine zero) : Nat → Nat → List H
  | 0, _ => []
  | n + 1, i => nodeAt zero t.nodes (sibling i) :: t.siblings n (i / 2)

/-- The inclusion proof of a leaf. -/
def path (t : MerkleTree combine zero) (index : Nat) : List H :=
  t.siblings t.depth (t.capacity + index)

/-- Fold a leaf through its siblings to the root. -/
def foldPath (combine : H → H → H) : Nat → H → List H → H
  | _, current, [] => current
  | idx, current, s :: rest =>
    foldPath combine (idx / 2) (if idx % 2 = 0 then combine current s else combine s current) rest

section

variable (t)

@[simp] theorem length_siblings (n i : Nat) : (t.siblings n i).length = n := by
  induction n generalizing i with
  | zero => rfl
  | succ n ih => rw [siblings, length_cons, ih]

@[simp] theorem length_path (index : Nat) : (t.path index).length = t.depth :=
  t.length_siblings _ _

/-- Folding a node through its siblings gives its ancestor. -/
theorem foldPath_siblings {n : Nat} (deep : 2 ^ n ≤ i)
    (inside : i < 2 * t.capacity) (same : i % 2 ^ n = idx % 2 ^ n) :
    foldPath combine idx (nodeAt zero t.nodes i) (t.siblings n i) =
      nodeAt zero t.nodes (i / 2 ^ n) := by
  induction n generalizing i idx with
  | zero => simp [siblings, foldPath]
  | succ n ih =>
    have shape : 2 ^ (n + 1) = 2 * 2 ^ n := by ring
    rw [capacity] at inside
    have bit : i % 2 = idx % 2 := by
      have even : 2 ∣ 2 ^ (n + 1) := Dvd.intro _ shape.symm
      rw [← Nat.mod_mod_of_dvd i even, same, Nat.mod_mod_of_dvd idx even]
    have tail : i / 2 % 2 ^ n = idx / 2 % 2 ^ n := by
      rw [← Nat.mod_mul_right_div_self, ← Nat.mod_mul_right_div_self, ← shape, same]
    have parent : (if idx % 2 = 0 then
          combine (nodeAt zero t.nodes i) (nodeAt zero t.nodes (sibling i))
        else combine (nodeAt zero t.nodes (sibling i)) (nodeAt zero t.nodes i)) =
        nodeAt zero t.nodes (i / 2) := by
      rw [t.combined (i / 2) (by omega) (by omega), ← bit]
      split_ifs with left
      · rw [sibling, if_pos left, show 2 * (i / 2) = i by omega]
      · rw [sibling, if_neg left, show 2 * (i / 2) + 1 = i by omega,
          show 2 * (i / 2) = i - 1 by omega]
    rw [siblings, foldPath, parent, ih (by omega) (by rw [capacity]; omega) tail,
      Nat.div_div_eq_div_mul, ← shape]

/-- The proof of a leaf recomputes the root. -/
theorem foldPath_path {index : Nat} (inside : index < t.capacity) :
    foldPath combine index (t.leaf index) (t.path index) = t.root := by
  rw [capacity] at inside
  have whole : (2 ^ t.depth + index) / 2 ^ t.depth = 1 := by
    rw [Nat.add_div_left _ (Nat.two_pow_pos _), Nat.div_eq_of_lt inside]
  rw [leaf, path, capacity, t.foldPath_siblings (Nat.le_add_right _ _)
    (by rw [capacity]; omega) (Nat.add_mod_left _ _), whole, root]

end

/-! ## Binding -/

/-- The last sibling of a path is combined last. -/
theorem foldPath_concat (idx : Nat) (x : H) (proof : List H) (s : H) :
    foldPath combine idx x (proof ++ [s]) =
      if idx / 2 ^ proof.length % 2 = 0 then combine (foldPath combine idx x proof) s
      else combine s (foldPath combine idx x proof) := by
  induction proof generalizing idx x with
  | nil => simp [foldPath]
  | cons a rest ih =>
    rw [cons_append, foldPath, ih, foldPath, length_cons, pow_succ', Nat.div_div_eq_div_mul]

/-- Only the leaves of the tree are no combinations. -/
theorem capacity_le_of_plain {x : H} (plain : ∀ l r, x ≠ combine l r)
    {k : Nat} (positive : 0 < k) (same : x = nodeAt zero t.nodes k) : t.capacity ≤ k := by
  by_contra internal
  apply plain (nodeAt zero t.nodes (2 * k)) (nodeAt zero t.nodes (2 * k + 1))
  rw [same, t.combined k positive (Nat.lt_of_not_le internal)]

section

variable (injective : ∀ l r l' r', combine l r = combine l' r' → l = l' ∧ r = r')
  (leaves : ∀ i < t.capacity, ∀ l r, t.leaf i ≠ combine l r)

include injective leaves

variable {proof : List H}

/-- A combination is at an internal node, whose children it determines. -/
theorem children_of_combine {l r : H} (positive : 0 < j) (inside : j < 2 * t.capacity)
    (same : combine l r = nodeAt zero t.nodes j) :
    2 * j + 1 < 2 * t.capacity ∧ l = nodeAt zero t.nodes (2 * j) ∧
      r = nodeAt zero t.nodes (2 * j + 1) := by
  have internal : j < 2 ^ t.depth := by
    by_contra outside
    have index : t.capacity + (j - t.capacity) = j := Nat.add_sub_cancel' (Nat.le_of_not_lt outside)
    apply leaves (j - t.capacity) (by omega) l r
    rw [leaf, index, same]
  rw [t.combined j positive internal] at same
  obtain ⟨left, right⟩ := injective _ _ _ _ same
  rw [capacity]
  exact ⟨by omega, left, right⟩

/-- A value that folds to a node of the tree is the node below it that the index addresses,
whatever the siblings and the length of the path are. -/
theorem nodeAt_of_foldPath {x : H} (positive : 0 < j) (inside : j < 2 * t.capacity)
    (folded : foldPath combine idx x proof = nodeAt zero t.nodes j) :
    j * 2 ^ proof.length + idx % 2 ^ proof.length < 2 * t.capacity ∧
      x = nodeAt zero t.nodes (j * 2 ^ proof.length + idx % 2 ^ proof.length) := by
  -- The induction descends from the root: the last sibling is the first one that is peeled off.
  induction proof using reverseRecOn generalizing j with
  | nil => simpa [foldPath, Nat.mod_one] using And.intro inside folded
  | append_singleton proof s ih =>
    have below : ∀ bit, idx / 2 ^ proof.length % 2 = bit →
        j * 2 ^ (proof.length + 1) + idx % 2 ^ (proof.length + 1) =
          (2 * j + bit) * 2 ^ proof.length + idx % 2 ^ proof.length := by
      rintro bit rfl
      rw [Nat.mod_pow_succ]
      ring
    rw [foldPath_concat] at folded
    rw [length_append, length_singleton]
    split_ifs at folded with even
    · obtain ⟨room, left, -⟩ := children_of_combine injective leaves positive inside folded
      rw [below 0 even]
      exact ih (by omega) (by omega) left
    · obtain ⟨room, -, right⟩ := children_of_combine injective leaves positive inside folded
      rw [below 1 (by omega)]
      exact ih (by omega) room right

variable {x : H} (plain : ∀ l r, x ≠ combine l r)

include plain

/-- A value that is not a combination and that folds to the root is a leaf, whatever the length of
the proof and the index are. -/
theorem exists_leaf_of_foldPath (folded : foldPath combine idx x proof = t.root) :
    ∃ i < t.capacity, t.leaf i = x := by
  have positive := t.capacity_pos
  obtain ⟨below, same⟩ := nodeAt_of_foldPath injective leaves Nat.one_pos (by omega) folded
  have outer := capacity_le_of_plain plain (by omega) same
  refine ⟨_, Nat.sub_lt_left_of_lt_add outer (by omega), ?_⟩
  rw [leaf, Nat.add_sub_cancel' outer, same]

/-- When the index fits the path, the value is the leaf at the index. -/
theorem leaf_of_foldPath (fits : idx < 2 ^ proof.length)
    (folded : foldPath combine idx x proof = t.root) : idx < t.capacity ∧ t.leaf idx = x := by
  have positive := t.capacity_pos
  obtain ⟨below, same⟩ := nodeAt_of_foldPath injective leaves Nat.one_pos (by omega) folded
  rw [one_mul, Nat.mod_eq_of_lt fits] at below same
  have outer := capacity_le_of_plain plain (by omega) same
  have depth : proof.length = t.depth := by
    rw [capacity] at below outer
    have upper : 2 ^ proof.length < 2 ^ (t.depth + 1) := by omega
    have lower : 2 ^ t.depth < 2 ^ (proof.length + 1) := by omega
    have := (Nat.pow_lt_pow_iff_right (by omega)).1 upper
    have := (Nat.pow_lt_pow_iff_right (by omega)).1 lower
    omega
  rw [depth] at fits same
  exact ⟨fits, same.symm⟩

end

end MerkleTree

end

end Dexos.Foundations
