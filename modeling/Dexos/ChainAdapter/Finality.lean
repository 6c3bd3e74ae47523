import Dexos.Custody.Withdrawal

/-!
# Deposit finality

A deposit is final when a run of hash-linked headers from its block is deep enough and an inclusion
proof leads from the deposit to the root that the first header commits to. Neither the length of
the proof nor the index is checked against a tree: a path can stop at no inner node, because no
deposit has the hash of one.
-/

namespace Dexos.ChainAdapter

open Foundations Minimmit Custody Clob

variable {C : Crypto} {D : Digests C}

structure BlockHeader (C : Crypto) where
  number : U64
  parentHash : C.Hash
  inclusionRoot : C.Hash

structure DepositEvent where
  sourceChain : Nat
  sourceTx : List UInt8
  sourceEventIndex : Nat
  asset : Nat
  amount : Amount
  destinationAccount : Nat

/-- `ChainCommit`: the hashes of a chain. -/
structure ChainCommit (C : Crypto) where
  headerHash : BlockHeader C → C.Hash
  depositLeaf : DepositEvent → C.Hash

structure InclusionProof (C : Crypto) where
  leafIndex : Nat
  siblings : List C.Hash

structure FinalityWitness (C : Crypto) where
  headers : List (BlockHeader C)
  inclusion : InclusionProof C

structure FinalityProof (C : Crypto) where
  blockNumber : U64
  blockHash : C.Hash
  confirmations : Nat

structure FinalityPolicy where
  minConfirmations : Nat

inductive AdapterError where
  | invalidWitness
  | invalidInclusion
  | notFinal (reached need : Nat)

/-- The loop of `verify_finality` over neighbouring headers. -/
def checkLinks (commit : ChainCommit C) : List (BlockHeader C) → Except AdapterError Unit
  | parent :: child :: rest => do
    require ((parent.number : Nat) + 1 < 2 ^ 64) .invalidWitness
    require ((child.number : Nat) = parent.number + 1) .invalidWitness
    require (child.parentHash = commit.headerHash parent) .invalidWitness
    checkLinks commit (child :: rest)
  | _ => .ok ()

def verifyFinality (D : Digests C) (commit : ChainCommit C) (event : DepositEvent)
    (witness : FinalityWitness C) (policy : FinalityPolicy) :
    Except AdapterError (FinalityProof C) := do
  let base ← orError witness.headers.head? .invalidWitness
  checkLinks commit witness.headers
  require (verifyProof D base.inclusionRoot witness.inclusion.leafIndex (commit.depositLeaf event)
    witness.inclusion.siblings = true) .invalidInclusion
  require (witness.headers.length ≤ u32Max) .invalidWitness
  require (policy.minConfirmations ≤ witness.headers.length)
    (.notFinal witness.headers.length policy.minConfirmations)
  return ⟨base.number, commit.headerHash base, witness.headers.length⟩

/-- A header is the next one after its parent. -/
def Links (commit : ChainCommit C) (parent child : BlockHeader C) : Prop :=
  (child.number : Nat) = parent.number + 1 ∧ child.parentHash = commit.headerHash parent

theorem checkLinks_ok {commit : ChainCommit C} {headers : List (BlockHeader C)}
    (checked : checkLinks commit headers = .ok ()) : headers.IsChain (Links commit) := by
  induction headers with
  | nil => exact .nil
  | cons parent rest ih =>
    cases rest with
    | nil => exact .singleton parent
    | cons child rest =>
      simp only [checkLinks, ok_iff] at checked
      obtain ⟨-, -, -, next, -, linked, later⟩ := checked
      exact .cons_cons ⟨next, linked⟩ (ih later)

/-- No two deposits have one leaf, and neither a deposit nor the padding is an inner node. -/
structure ChainCommit.CollisionFree (D : Digests C) (commit : ChainCommit C) : Prop where
  deposits : Function.Injective commit.depositLeaf
  leaves : ∀ event l r, commit.depositLeaf event ≠ hashNode D l r
  padding : ∀ l r, D.zero ≠ hashNode D l r

/-- An accepted witness is a linked chain from the deposit's block, as deep as the policy asks for,
and the deposit is at a leaf of every tree of deposits with the committed root. -/
theorem verifyFinality_sound {commit : ChainCommit C} {event : DepositEvent}
    {witness : FinalityWitness C} {policy : FinalityPolicy} {proof : FinalityProof C}
    (free : D.CollisionFree) (commits : commit.CollisionFree D)
    (accepted : verifyFinality D commit event witness policy = .ok proof) :
    ∃ base rest, witness.headers = base :: rest ∧
      proof = ⟨base.number, commit.headerHash base, witness.headers.length⟩ ∧
      witness.headers.IsChain (Links commit) ∧ policy.minConfirmations ≤ witness.headers.length ∧
      ∀ t : MerkleTree (hashNode D) D.zero,
        (∀ i < t.capacity, t.leaf i = D.zero ∨ ∃ e, t.leaf i = commit.depositLeaf e) →
        base.inclusionRoot = t.root → ∃ i < t.capacity, t.leaf i = commit.depositLeaf event ∧
          ∀ e, t.leaf i = commit.depositLeaf e → e = event := by
  simp only [verifyFinality, ok_iff, exists_const] at accepted
  obtain ⟨base, first, _, linked, included, -, deep, rfl⟩ := accepted
  obtain ⟨rest, shape⟩ := List.head?_eq_some_iff.1 first
  refine ⟨base, rest, shape, rfl, checkLinks_ok linked, deep, fun t listed root => ?_⟩
  have folded : MerkleTree.foldPath (hashNode D) witness.inclusion.leafIndex
      (commit.depositLeaf event) witness.inclusion.siblings = t.root := by
    rw [verifyProof] at included
    split_ifs at included
    exact (of_decide_eq_true included).trans root
  have outer : ∀ i < t.capacity, ∀ l r, t.leaf i ≠ hashNode D l r := by
    intro i inside l r
    obtain none | ⟨e, some⟩ := listed i inside
    · rw [none]
      exact commits.padding l r
    · rw [some]
      exact commits.leaves e l r
  obtain ⟨i, inside, here⟩ := MerkleTree.exists_leaf_of_foldPath (hashNode_inj free) outer
    (commits.leaves event) folded
  exact ⟨i, inside, here, fun e same => commits.deposits (same.symm.trans here)⟩

/-! ## The commitments of the SVM chain -/

def DepositEvent.encode (event : DepositEvent) : List (Datum C) :=
  [.word 8 event.sourceChain, .word 8 event.sourceTx.length] ++ event.sourceTx.map .byte ++
    [.word 4 event.sourceEventIndex, .word 4 event.asset, .word 16 event.amount.val,
      .word 4 event.destinationAccount]

def svmCommit (D : Digests C) : ChainCommit C where
  headerHash h := D.hashData "dexos.svm.header"
    [.word 8 h.number, .hash h.parentHash, .hash h.inclusionRoot]
  depositLeaf event := D.hashData "dexos.svm.deposit.leaf" event.encode

theorem svmCommit_collisionFree (free : D.CollisionFree)
    (padding : ∀ l r, D.zero ≠ hashNode D l r) : (svmCommit D).CollisionFree D where
  deposits event event' same := by
    obtain ⟨chain, tx, index, asset, amount, account⟩ := event
    obtain ⟨chain', tx', index', asset', amount', account'⟩ := event'
    have fields := (free _ _ _ _ same).2 <| .cons rfl fun _ => .cons rfl fun length =>
      .of_kinds <| by
        simp only [Datum.word.injEq, Int.natCast_inj, true_and] at length
        simp [Datum.kind, Function.comp_def, length]
    simp only [DepositEvent.encode, List.cons_append, List.nil_append, List.cons.injEq,
      Datum.word.injEq, true_and, Int.natCast_inj] at fields
    obtain ⟨rfl, length, fields⟩ := fields
    obtain ⟨bytes, rest⟩ := List.append_inj fields (by simpa using length)
    obtain rfl := List.map_injective_iff.2 (fun _ _ h => Datum.byte.inj h) bytes
    simp only [List.cons.injEq, Datum.word.injEq, true_and, Int.natCast_inj, and_true] at rest
    obtain ⟨rfl, rfl, amounts, rfl⟩ := rest
    rw [Subtype.ext amounts]
  leaves event l r same := absurd (free _ _ _ _ same).1 (by decide)
  padding := padding

/-! ## Three deposits under two headers -/

def sampleDeposit (i : Nat) : DepositEvent := ⟨1, [7], i, 2, micros 100, 3⟩

/-- The tree of the deposits, with a padded leaf. -/
def depositTree : MerkleTree (hashNode idealDigests) idealDigests.zero :=
  .ofLeaves _ _ 2 fun i =>
    if i < 3 then (svmCommit idealDigests).depositLeaf (sampleDeposit i) else idealDigests.zero

/-- The block of the deposits, and its child. -/
def depositHeaders : List (BlockHeader ideal) :=
  let base : BlockHeader ideal := ⟨5, (0 : Nat), depositTree.root⟩
  [base, ⟨6, (svmCommit idealDigests).headerHash base, (0 : Nat)⟩]

/-- The second deposit is accepted with its path of two siblings. -/
theorem verifyFinality_depositTree :
    ∃ proof, verifyFinality idealDigests (svmCommit idealDigests) (sampleDeposit 1)
      ⟨depositHeaders, ⟨1, depositTree.path 1⟩⟩ ⟨2⟩ = .ok proof := by
  have inside : 1 < depositTree.capacity := by decide
  have leaf : depositTree.leaf 1 = (svmCommit idealDigests).depositLeaf (sampleDeposit 1) :=
    MerkleTree.leaf_ofLeaves 2 _ (by decide)
  have included : verifyProof idealDigests depositTree.root 1
      ((svmCommit idealDigests).depositLeaf (sampleDeposit 1)) (depositTree.path 1) = true := by
    rw [← leaf, verifyProof, MerkleTree.length_path, if_neg (by decide), if_neg (by decide),
      depositTree.foldPath_path inside]
    exact decide_eq_true rfl
  simp [verifyFinality, orError, checkLinks, require, depositHeaders, included, u32Max]

/-- It is a leaf of the tree that the first of the linked headers commits to. -/
theorem verifyFinality_sound_second :
    depositHeaders.length = 2 ∧ (depositTree.path 1).length = 2 ∧
      depositHeaders.IsChain (Links (svmCommit idealDigests)) ∧
      ∃ i < depositTree.capacity,
        depositTree.leaf i = (svmCommit idealDigests).depositLeaf (sampleDeposit 1) ∧
        ∀ e, depositTree.leaf i = (svmCommit idealDigests).depositLeaf e → e = sampleDeposit 1 := by
  have padding : ∀ l r : ideal.Hash, idealDigests.zero ≠ hashNode idealDigests l r := by
    intro l r same
    have first : Nat.pair 0 0 = Nat.pair _ _ := same
    exact absurd (Nat.pair_eq_pair.1 first).1 (by decide)
  obtain ⟨proof, accepted⟩ := verifyFinality_depositTree
  obtain ⟨base, rest, shape, -, linked, -, bound⟩ := verifyFinality_sound idealDigests_collisionFree
    (svmCommit_collisionFree idealDigests_collisionFree padding) accepted
  obtain ⟨rfl, -⟩ := List.cons.inj shape
  refine ⟨rfl, MerkleTree.length_path .., linked, bound depositTree (fun i inside => ?_) rfl⟩
  rw [depositTree, MerkleTree.leaf_ofLeaves 2 _ inside]
  split_ifs
  · exact .inr ⟨_, rfl⟩
  · exact .inl rfl

end Dexos.ChainAdapter
