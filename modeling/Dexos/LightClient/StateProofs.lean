import Dexos.StateTree
import Dexos.Crypto.Ideal

/-!
# State proofs

Under the root of a state tree a proof of any length establishes what the tree holds and nothing
else; the absence of a leaf is proven as the presence of the zero hash. A root that belongs to no
tree may open one index at several depths.
-/

namespace Dexos.LightClient

open Foundations Minimmit Function List MerkleTree StateTree

variable {C : Crypto}

/-- The hashes of the state tree: `hash_node`, the zero hash, `hash_account_leaf` and
`hash_market_leaf`. -/
def stateHashes (D : Digests C) : StateHashes C.Hash where
  node := hashNode D
  zero := D.zero
  leaf h bytes := D.hashData h.domain (bytes.map .byte)

def accountAbsenceVerifies (D : Digests C) (root : C.Hash) (id : Nat)
    (proof : List C.Hash) : Bool :=
  verifies (stateHashes D) .accounts root id none proof

def marketAbsenceVerifies (D : Digests C) (root : C.Hash) (id : Nat) (proof : List C.Hash) : Bool :=
  verifies (stateHashes D) .markets root id none proof

section

variable {D : Digests C} {t : StateTree (stateHashes D)} {leaves : Half → Nat → Option (List UInt8)}
  {proof : List C.Hash}

/-! ## Trees and their leaves -/

/-- A tree that updates have built, with the leaf that each id was last given. -/
inductive Holds : StateTree (stateHashes D) → (Half → Nat → Option (List UInt8)) → Prop
  | new (accountCapacity marketCapacity : Nat) (accountsFit : accountCapacity ≤ 2 ^ 63)
      (marketsFit : marketCapacity ≤ 2 ^ 63) :
      Holds (.new _ accountCapacity marketCapacity accountsFit marketsFit) fun _ _ => none
  | updated {t t' : StateTree (stateHashes D)} {leaves : Half → Nat → Option (List UInt8)}
      {h : Half} {id : Nat} {leaf : Option (List UInt8)} (before : Holds t leaves)
      (done : t.update h id leaf = .ok t') : Holds t' (update leaves h (update (leaves h) id leaf))

theorem Half.eq_or_other (h h' : Half) : h' = h ∨ h' = h.other := by
  cases h <;> cases h' <;> decide

theorem Holds.leaf (held : Holds t leaves) (h : Half) (id : Nat) :
    (t.half h).leaf id = (stateHashes D).digest h (leaves h id) := by
  induction held with
  | new =>
    cases h with
    | accounts => exact MerkleTree.leaf_new _ _
    | markets => exact MerkleTree.leaf_new _ _
  | @updated t t' leaves h' id' leaf before done ih =>
    obtain ⟨-, -, other, stored⟩ := update_ok done
    rcases Half.eq_or_other h' h with rfl | rfl
    · rw [stored, update_self, update_apply]
      split_ifs with here
      · rfl
      · exact ih
    · rw [other, update_of_ne (by cases h' <;> decide)]
      exact ih

/-! ## Binding -/

theorem join_inj (free : D.CollisionFree) (h : Half) {l r l' r' : C.Hash}
    (same : (stateHashes D).join h l r = (stateHashes D).join h l' r') : l = l' ∧ r = r' := by
  cases h with
  | accounts => exact hashNode_inj free _ _ _ _ same
  | markets => exact (hashNode_inj free _ _ _ _ same).symm

variable (free : D.CollisionFree) (fresh : ∀ d fs, D.hashData d fs ≠ D.zero)

include free fresh

theorem digest_ne_hashNode (h : Half) (leaf : Option (List UInt8)) (l r : C.Hash) :
    (stateHashes D).digest h leaf ≠ hashNode D l r := by
  intro same
  cases leaf with
  | none => exact fresh _ _ same.symm
  | some bytes =>
    obtain ⟨domains, -⟩ := free _ _ _ _ same
    cases h <;> exact absurd domains (by decide)

theorem digest_inj (h : Half) {leaf leaf' : Option (List UInt8)}
    (same : (stateHashes D).digest h leaf = (stateHashes D).digest h leaf') : leaf = leaf' := by
  cases leaf with
  | none =>
    cases leaf' with
    | none => rfl
    | some bytes => exact absurd same.symm (fresh _ _)
  | some bytes =>
    cases leaf' with
    | none => exact absurd same (fresh _ _)
    | some bytes' =>
      have fields := (free _ _ _ _ same).2 (.bytes bytes bytes')
      exact congrArg some (map_injective_iff.2 (fun _ _ => Datum.byte.inj) fields)

/-- A proof of any length that is accepted under the root of a tree establishes the leaf of the tree
or its absence. -/
theorem Holds.leaf_of_verifies (held : Holds t leaves) {h : Half} {id : Nat}
    {leaf : Option (List UInt8)}
    (accepted : verifies (stateHashes D) h t.root id leaf proof = true) : leaves h id = leaf := by
  obtain ⟨path, other, -, -, fits, joined⟩ := verifies_iff.1 accepted
  rw [t.root_eq_join h] at joined
  have plain : ∀ i < (t.half h).capacity, ∀ l r, (t.half h).leaf i ≠ hashNode D l r := by
    intro i _ l r
    rw [held.leaf]
    exact digest_ne_hashNode free fresh h _ l r
  have stored := (leaf_of_foldPath (hashNode_inj free) plain
    (digest_ne_hashNode free fresh h leaf) fits (join_inj free h joined).1).2
  exact digest_inj free fresh h ((held.leaf h id).symm.trans stored)

/-- Under the root of a tree that any updates have built, the accepted proofs establish exactly the
leaves that it holds, and it has a proof for every id in its range. -/
theorem proofs_bind_and_cover (held : Holds t leaves) :
    t.root = (t.rebuilt fun h i => (stateHashes D).digest h (leaves h i)).root ∧
      (∀ h id leaf proof, verifies (stateHashes D) h t.root id leaf proof = true →
        leaves h id = leaf) ∧
      ∀ h id, id < (t.half h).capacity → ∃ proof, t.proof h id = .ok proof ∧
        ∀ leaf, verifies (stateHashes D) h t.root id leaf proof = true ↔ leaves h id = leaf := by
  refine ⟨t.root_eq_rebuilt held.leaf, fun h id leaf proof => held.leaf_of_verifies free fresh,
    fun h id inside => ⟨_, if_pos inside, fun leaf => ?_⟩⟩
  constructor
  · exact held.leaf_of_verifies free fresh
  · rintro rfl
    exact verifies_proof (if_pos inside) (held.leaf h id)

end

/-! ## Concrete trees -/

theorem idealDigests_fresh (d : String) (fs : List (Datum ideal)) :
    idealDigests.hashData d fs ≠ idealDigests.zero := by
  have positive : 0 < Nat.pair (Ideal.packList (d.toList.map Char.toNat))
      (Ideal.packList (fs.map Ideal.encodeDatum)) := by
    calc 0 < Ideal.baseOf (d.toList.map Char.toNat) := Nat.succ_pos _
      _ ≤ Ideal.packList (d.toList.map Char.toNat) := Nat.left_le_pair _ _
      _ ≤ _ := Nat.left_le_pair _ _
  exact positive.ne'

theorem four_fits : 4 ≤ 2 ^ 63 := by decide

/-- A tree of four accounts and four markets. -/
def smallTree : StateTree (stateHashes idealDigests) := .new _ 4 4 four_fits four_fits

theorem proofs_bind_and_cover_oneAccount : ∃ t proof, smallTree.setAccount 1 [7] = .ok t ∧
    t.proof .accounts 1 = .ok proof ∧
      verifyAccount (stateHashes idealDigests) t.root 1 [7] proof = true ∧
      ∀ proof', accountAbsenceVerifies idealDigests t.root 1 proof' = false := by
  have inside : 1 < (smallTree.half .accounts).capacity := by decide
  have done : StateTree.update _ .accounts 1 (some [7]) = .ok _ := dif_pos inside
  obtain ⟨-, binds, covers⟩ := proofs_bind_and_cover idealDigests_collisionFree idealDigests_fresh
    (.updated (.new 4 4 _ _) done)
  obtain ⟨proof, made, exactly⟩ := covers .accounts 1 inside
  refine ⟨_, proof, done, made, (exactly (some [7])).2 rfl, fun proof' => ?_⟩
  rw [Bool.eq_false_iff]
  intro accepted
  cases binds .accounts 1 none proof' accepted

/-- A second leaf below the sibling of the first one, on the right, opens at the same index. -/
theorem verifyAccount_twice {H : Type} [DecidableEq H] (S : StateHashes H)
    (bytes bytes' : List UInt8) : ∃ root proof proof', verifyAccount S root 1 bytes proof = true ∧
      verifyAccount S root 1 bytes' proof' = true := by
  let first := S.leaf .accounts bytes
  let inner := S.node S.zero (S.leaf .accounts bytes')
  refine ⟨S.node (S.node inner first) S.zero, [inner, S.zero], [S.zero, first, S.zero], ?_, ?_⟩
  · exact verifies_iff.2 ⟨[inner], S.zero, rfl, by simp, by simp, rfl⟩
  · exact verifies_iff.2 ⟨[S.zero, first], S.zero, rfl, by simp, by simp, rfl⟩

/-- A root that belongs to no tree opens an account at two depths. -/
theorem root_opens_twice : idealDigests.CollisionFree ∧
    (∀ d fs, idealDigests.hashData d fs ≠ idealDigests.zero) ∧
    ∃ root proof proof' bytes bytes', bytes ≠ bytes' ∧
      verifyAccount (stateHashes idealDigests) root 1 bytes proof = true ∧
      verifyAccount (stateHashes idealDigests) root 1 bytes' proof' = true := by
  obtain ⟨root, proof, proof', opens, again⟩ :=
    verifyAccount_twice (stateHashes idealDigests) [1] [2]
  exact ⟨idealDigests_collisionFree, idealDigests_fresh, root, proof, proof', [1], [2], by decide,
    opens, again⟩

end Dexos.LightClient
