import Dexos.Foundations.Merkle

/-!
# The state tree

A state tree commits to account leaves and to market leaves, each in a hash tree of its own, under
one root. A proof is the path of a leaf in its half of the tree, followed by the root of the other
half.

## Implementation notes

The engine hashes bytes and the light client what the bytes say, so the hashes are parameters. The
lazily recomputed root is recomputed at every use. The operations on accounts and on markets are the
same up to the half of the tree, and clearing a leaf is an update to no bytes.
-/

namespace Dexos

open Foundations List MerkleTree

variable {H : Type}

/-- `LeafKind`: the halves of a state tree. -/
inductive Half where
  | accounts
  | markets
deriving DecidableEq

namespace Half

def other : Half → Half
  | .accounts => .markets
  | .markets => .accounts

/-- `DOMAIN_ACCOUNT` and `DOMAIN_MARKET`. -/
def domain : Half → String
  | .accounts => "dexos:account:v1"
  | .markets => "dexos:market:v1"

end Half

/-- The hash of two nodes, the hash of an empty leaf and the hashes of the leaves of a half. -/
structure StateHashes (H : Type) where
  node : H → H → H
  zero : H
  leaf : Half → List UInt8 → H

namespace StateHashes

variable (S : StateHashes H)

/-- The hash of a leaf, or of an empty one. -/
def digest (h : Half) : Option (List UInt8) → H
  | some bytes => S.leaf h bytes
  | none => S.zero

/-- The root over the roots of a half and of the other one; accounts are the left child. -/
def join : Half → H → H → H
  | .accounts, own, other => S.node own other
  | .markets, own, other => S.node other own

end StateHashes

/-! ## The tree -/

inductive StateError where
  | idOutOfRange

/-- A capacity is a power of two that an index can have, so a path has less than 64 siblings. -/
structure StateTree (S : StateHashes H) where
  accounts : MerkleTree S.node S.zero
  markets : MerkleTree S.node S.zero
  shallow : accounts.depth < 64 ∧ markets.depth < 64

namespace StateTree

variable {S : StateHashes H} {t t' : StateTree S} {h : Half} {id : Nat} {leaf : Option (List UInt8)}

theorem depth_new_lt {node : H → H → H} {zero : H} {capacity : Nat} (fits : capacity ≤ 2 ^ 63) :
    (MerkleTree.new node zero (max capacity 1)).depth < 64 := by
  have le : Nat.clog 2 (max capacity 1) ≤ 63 :=
    (Nat.clog_le_iff_le_pow (by decide)).2 (max_le fits (by decide))
  exact Nat.lt_succ_of_le le

def new (S : StateHashes H) (accountCapacity marketCapacity : Nat)
    (accountsFit : accountCapacity ≤ 2 ^ 63) (marketsFit : marketCapacity ≤ 2 ^ 63) :
    StateTree S where
  accounts := MerkleTree.new _ _ (max accountCapacity 1)
  markets := MerkleTree.new _ _ (max marketCapacity 1)
  shallow := ⟨depth_new_lt accountsFit, depth_new_lt marketsFit⟩

section

variable (t)

def half : Half → MerkleTree S.node S.zero
  | .accounts => t.accounts
  | .markets => t.markets

/-- Replace a half by a tree of the same depth. -/
def put : (h : Half) → (m : MerkleTree S.node S.zero) → m.depth = (t.half h).depth → StateTree S
  | .accounts, m, same => ⟨m, t.markets, same.trans_lt t.shallow.1, t.shallow.2⟩
  | .markets, m, same => ⟨t.accounts, m, t.shallow.1, same.trans_lt t.shallow.2⟩

/-- Store the hash of a leaf, or of an empty one. -/
def update (h : Half) (id : Nat) (leaf : Option (List UInt8)) : Except StateError (StateTree S) :=
  if inside : id < (t.half h).capacity then
    .ok (t.put h ((t.half h).set id (S.digest h leaf) inside) rfl)
  else .error .idOutOfRange

def setAccount (id : Nat) (bytes : List UInt8) : Except StateError (StateTree S) :=
  t.update .accounts id (some bytes)

def setMarket (id : Nat) (bytes : List UInt8) : Except StateError (StateTree S) :=
  t.update .markets id (some bytes)

def clearAccount (id : Nat) : Except StateError (StateTree S) :=
  t.update .accounts id none

def clearMarket (id : Nat) : Except StateError (StateTree S) :=
  t.update .markets id none

def root : H := S.node t.accounts.root t.markets.root

/-- The path of a leaf and the root of the other half. -/
def proof (h : Half) (id : Nat) : Except StateError (List H) :=
  if id < (t.half h).capacity then .ok ((t.half h).path id ++ [(t.half h.other).root])
  else .error .idOutOfRange

def accountProof (id : Nat) : Except StateError (List H) := t.proof .accounts id

def marketProof (id : Nat) : Except StateError (List H) := t.proof .markets id

/-- The tree of the same depths over given leaves, rebuilt from scratch. -/
def rebuilt (leaves : Half → Nat → H) : StateTree S where
  accounts := .ofLeaves _ _ t.accounts.depth (leaves .accounts)
  markets := .ofLeaves _ _ t.markets.depth (leaves .markets)
  shallow := t.shallow

theorem shallow_half : ∀ h, (t.half h).depth < 64
  | .accounts => t.shallow.1
  | .markets => t.shallow.2

theorem root_eq_join (h : Half) : t.root = S.join h (t.half h).root (t.half h.other).root := by
  cases h <;> rfl

theorem root_eq_rebuilt {leaves : Half → Nat → H} (held : ∀ h i, (t.half h).leaf i = leaves h i) :
    t.root = (t.rebuilt leaves).root :=
  congrArg₂ S.node (t.accounts.root_eq_ofLeaves fun i _ => held .accounts i)
    (t.markets.root_eq_ofLeaves fun i _ => held .markets i)

end

theorem update_ok (done : t.update h id leaf = .ok t') :
    id < (t.half h).capacity ∧ (t'.half h).depth = (t.half h).depth ∧
      t'.half h.other = t.half h.other ∧
      ∀ i, (t'.half h).leaf i = if i = id then S.digest h leaf else (t.half h).leaf i := by
  rw [update] at done
  split_ifs at done with inside
  cases done
  cases h with
  | accounts => exact ⟨inside, rfl, rfl, t.accounts.leaf_set _ _ inside⟩
  | markets => exact ⟨inside, rfl, rfl, t.markets.leaf_set _ _ inside⟩

/-! ## Verification -/

section

variable [DecidableEq H] (S)

def foldSubtree (index : Nat) (leaf : H) (siblings : List H) : Option H :=
  if 64 ≤ siblings.length ∨ index >>> siblings.length ≠ 0 then none
  else some (foldPath S.node index leaf siblings)

/-- The check of a leaf, or of an empty one, against a root. -/
def verifies (h : Half) (root : H) (id : Nat) (leaf : Option (List UInt8))
    (proof : List H) : Bool :=
  match proof.getLast? with
  | none => false
  | some other =>
    (foldSubtree S id (S.digest h leaf) proof.dropLast).any fun own => S.join h own other = root

def verifyAccount (root : H) (id : Nat) (bytes : List UInt8) (proof : List H) : Bool :=
  verifies S .accounts root id (some bytes) proof

def verifyMarket (root : H) (id : Nat) (bytes : List UInt8) (proof : List H) : Bool :=
  verifies S .markets root id (some bytes) proof

end

variable [DecidableEq H] {root : H} {proof : List H}

/-- An accepted proof is a path of the named half and the root of the other one. -/
theorem verifies_iff : verifies S h root id leaf proof = true ↔
    ∃ path other, proof = path ++ [other] ∧ path.length < 64 ∧ id < 2 ^ path.length ∧
      S.join h (foldPath S.node id (S.digest h leaf) path) other = root := by
  rcases eq_nil_or_concat' proof with rfl | ⟨path, other, rfl⟩
  · simp [verifies]
  · simp only [verifies, getLast?_concat, dropLast_concat, foldSubtree, ne_eq,
      Nat.shiftRight_eq_div_pow, Nat.div_eq_zero_iff, (Nat.two_pow_pos _).ne', false_or]
    constructor
    · intro accepted
      split_ifs at accepted with bad
      · cases accepted
      · rw [not_or, not_le, not_not] at bad
        exact ⟨path, other, rfl, bad.1, bad.2, of_decide_eq_true accepted⟩
    · rintro ⟨path', other', same, short, fits, joined⟩
      obtain ⟨rfl, last⟩ := append_inj' same rfl
      cases last
      rw [if_neg (by omega)]
      exact decide_eq_true joined

/-- The proof of an id verifies the leaf that the tree commits to. -/
theorem verifies_proof (made : t.proof h id = .ok proof)
    (committed : (t.half h).leaf id = S.digest h leaf) :
    verifies S h t.root id leaf proof = true := by
  rw [StateTree.proof] at made
  split_ifs at made with inside
  cases made
  refine verifies_iff.2 ⟨_, _, rfl, ?_, ?_, ?_⟩
  · rw [length_path]
    exact t.shallow_half h
  · rwa [length_path]
  · rw [← committed, (t.half h).foldPath_path inside, t.root_eq_join h]

end StateTree

end Dexos
