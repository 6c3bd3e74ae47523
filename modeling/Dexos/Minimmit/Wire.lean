import Mathlib.Algebra.GroupWithZero.Nat
import Dexos.Foundations.OrdMap

/-!
# Minimmit headers, digests and messages

The signed vocabulary of the consensus core: block headers, the domain-separated
digests, the six wire messages and the errors and evidence they give rise to.

## Implementation notes

The hash function and the signature scheme are parameters. A digest is a hash of a
domain string and a list of fields, in the source's order; the fields have fixed
widths in the source, so the list carries the same information as the bytes.
-/

namespace Dexos.Minimmit

open Foundations

inductive Field (Hash : Type) where
  | u64 (value : Nat)
  | hash (value : Hash)
deriving DecidableEq

/-- The cryptographic primitives the consensus core calls. -/
structure Crypto where
  Hash : Type
  Signature : Type
  PublicKey : Type
  KeyPair : Type
  [hashOrder : LinearOrder Hash]
  [signatureEq : DecidableEq Signature]
  [publicKeyEq : DecidableEq PublicKey]
  [keyPairEq : DecidableEq KeyPair]
  /-- Domain-separated hash of a preimage. -/
  hashDomain : String → List (Field Hash) → Hash
  /-- Whether the bytes are the encoding of a verification key. -/
  parses : PublicKey → Bool
  verify : PublicKey → Hash → Signature → Bool
  sign : KeyPair → Hash → Signature
  publicKey : KeyPair → PublicKey

attribute [instance] Crypto.hashOrder Crypto.signatureEq Crypto.publicKeyEq Crypto.keyPairEq

instance Crypto.lawfulBEqHash (C : Crypto) : LawfulBEq C.Hash := inferInstance

variable {C : Crypto} {a b c : Nat}

/-! ## Machine words -/

def u64Max : Nat := 2 ^ 64 - 1

def satAdd (a b : Nat) : Nat := min (a + b) u64Max

def checkedAdd (a b : Nat) : Option Nat := if a + b ≤ u64Max then some (a + b) else none

def checkedMul (a b : Nat) : Option Nat := if a * b ≤ u64Max then some (a * b) else none

theorem satAdd_of_le {a b : Nat} (h : a + b ≤ u64Max) : satAdd a b = a + b :=
  min_eq_left h

theorem satAdd_le_add (a b : Nat) : satAdd a b ≤ a + b := min_le_left _ _

theorem checkedAdd_eq_some :
    checkedAdd a b = some c ↔ a + b ≤ u64Max ∧ a + b = c := by
  simp [checkedAdd]

theorem checkedMul_eq_some :
    checkedMul a b = some c ↔ a * b ≤ u64Max ∧ a * b = c := by
  simp [checkedMul]

/-! ## Headers and digests -/

def domainBlock : String := "dexos:consensus:minimmit:block:v1"
def domainPropose : String := "dexos:consensus:minimmit:propose:v1"
def domainNotarize : String := "dexos:consensus:minimmit:notarize:v1"
def domainNullify : String := "dexos:consensus:minimmit:nullify:v1"
def domainExecCommit : String := "dexos:consensus:exec-commit:v1"

structure BlockHeader (C : Crypto) where
  height : Nat
  parentHash : C.Hash
  payloadRoot : C.Hash
deriving DecidableEq

def BlockHeader.hash (block : BlockHeader C) : C.Hash :=
  C.hashDomain domainBlock
    [.u64 block.height, .hash block.parentHash, .hash block.payloadRoot]

def notarizeDigest (epoch view : Nat) (blockHash : C.Hash) : C.Hash :=
  C.hashDomain domainNotarize [.u64 epoch, .u64 view, .hash blockHash]

def nullifyDigest (C : Crypto) (epoch view : Nat) : C.Hash :=
  C.hashDomain domainNullify [.u64 epoch, .u64 view]

def proposeAuth (epoch view : Nat) (blockHash parentHash : C.Hash) (parentView : Nat) :
    C.Hash :=
  C.hashDomain domainPropose
    [.u64 epoch, .u64 view, .hash blockHash, .hash parentHash, .u64 parentView]

def executionCommitmentDigest (epoch view height : Nat) (blockHash executionRoot : C.Hash) :
    C.Hash :=
  C.hashDomain domainExecCommit
    [.u64 epoch, .u64 view, .u64 height, .hash blockHash, .hash executionRoot]

/-- The hash function has no collisions. -/
def Crypto.CollisionFree (C : Crypto) : Prop :=
  ∀ d d' : String, ∀ fs fs' : List (Field C.Hash),
    C.hashDomain d fs = C.hashDomain d' fs' → d = d' ∧ fs = fs'

namespace Crypto.CollisionFree

variable {b c r : C.Hash} {e e' v v' : Nat}

variable (h : C.CollisionFree)
include h

theorem block_inj {b b' : BlockHeader C} (same : b.hash = b'.hash) : b = b' := by
  obtain ⟨-, fields⟩ := h _ _ _ _ same
  cases b
  cases b'
  simpa using fields

theorem notarize_inj {c' : C.Hash} (same : notarizeDigest e v c = notarizeDigest e' v' c') :
    e = e' ∧ v = v' ∧ c = c' := by
  obtain ⟨-, fields⟩ := h _ _ _ _ same
  simpa using fields

theorem nullify_inj (same : nullifyDigest C e v = nullifyDigest C e' v') : e = e' ∧ v = v' := by
  obtain ⟨-, fields⟩ := h _ _ _ _ same
  simpa using fields

theorem exec_inj {n n' : Nat} {b' r' : C.Hash}
    (same : executionCommitmentDigest e v n b r = executionCommitmentDigest e' v' n' b' r') :
    e = e' ∧ v = v' ∧ n = n' ∧ b = b' ∧ r = r' := by
  obtain ⟨-, fields⟩ := h _ _ _ _ same
  simpa using fields

theorem domain_ne {d d' : String} {fs fs' : List (Field C.Hash)} (other : d ≠ d') :
    C.hashDomain d fs ≠ C.hashDomain d' fs' :=
  fun same => other (h _ _ _ _ same).1

theorem notarize_ne_nullify : notarizeDigest e v c ≠ nullifyDigest C e' v' :=
  h.domain_ne (by decide)

theorem notarize_ne_exec {n : Nat} :
    notarizeDigest e v c ≠ executionCommitmentDigest e' v' n b r := h.domain_ne (by decide)

theorem notarize_ne_propose {p : Nat} :
    notarizeDigest e v c ≠ proposeAuth e' v' b r p := h.domain_ne (by decide)

theorem nullify_ne_exec {n : Nat} :
    nullifyDigest C e v ≠ executionCommitmentDigest e' v' n b r := h.domain_ne (by decide)

theorem nullify_ne_propose {p : Nat} :
    nullifyDigest C e v ≠ proposeAuth e' v' b r p := h.domain_ne (by decide)

theorem exec_ne_propose {n p : Nat} {b' r' : C.Hash} :
    executionCommitmentDigest e v n b r ≠ proposeAuth e' v' b' r' p := h.domain_ne (by decide)

end Crypto.CollisionFree

/-! ## Messages -/

/-- The parent view of a block that extends genesis. -/
def bottomView : Nat := u64Max

/-- A reference to a notarized parent, or to genesis at `bottomView`. -/
structure ParentRef (C : Crypto) where
  parentHash : C.Hash
  parentView : Nat
deriving DecidableEq

namespace ParentRef

def genesis (genesisHash : C.Hash) : ParentRef C := ⟨genesisHash, bottomView⟩

def isBottom (parent : ParentRef C) : Bool := parent.parentView = bottomView

def realView (parent : ParentRef C) : Option Nat :=
  if parent.isBottom then none else some parent.parentView

end ParentRef

structure Propose (C : Crypto) where
  epoch : Nat
  view : Nat
  block : BlockHeader C
  blockHash : C.Hash
  parent : ParentRef C
  proposerIndex : Nat
  notarizeSig : C.Signature
  proposeSig : C.Signature
deriving DecidableEq

namespace Propose

def notarizeDigest (p : Propose C) : C.Hash := Minimmit.notarizeDigest p.epoch p.view p.blockHash

def authDigest (p : Propose C) : C.Hash :=
  proposeAuth p.epoch p.view p.blockHash p.parent.parentHash p.parent.parentView

end Propose

structure Notarize (C : Crypto) where
  epoch : Nat
  view : Nat
  blockHash : C.Hash
  validatorIndex : Nat
  signature : C.Signature
deriving DecidableEq

def Notarize.digest (n : Notarize C) : C.Hash := notarizeDigest n.epoch n.view n.blockHash

structure Nullify (C : Crypto) where
  epoch : Nat
  view : Nat
  validatorIndex : Nat
  signature : C.Signature
deriving DecidableEq

def Nullify.digest (n : Nullify C) : C.Hash := nullifyDigest C n.epoch n.view

/-- A signer bitmap over one message, with the signatures in ascending bit order. -/
structure Certificate (C : Crypto) where
  message : C.Hash
  signerBitmap : BitVec 16
  signatures : List C.Signature
deriving DecidableEq

structure Notarization (C : Crypto) where
  epoch : Nat
  view : Nat
  blockHash : C.Hash
  cert : Certificate C
deriving DecidableEq

def Notarization.digest (n : Notarization C) : C.Hash := notarizeDigest n.epoch n.view n.blockHash

structure Nullification (C : Crypto) where
  epoch : Nat
  view : Nat
  cert : Certificate C
deriving DecidableEq

def Nullification.digest (n : Nullification C) : C.Hash := nullifyDigest C n.epoch n.view

structure ExecAttest (C : Crypto) where
  epoch : Nat
  view : Nat
  height : Nat
  blockHash : C.Hash
  executionRoot : C.Hash
  validatorIndex : Nat
  signature : C.Signature
deriving DecidableEq

def ExecAttest.digest (a : ExecAttest C) : C.Hash :=
  executionCommitmentDigest a.epoch a.view a.height a.blockHash a.executionRoot

/-- The proof that resolved a view. -/
inductive Proof (C : Crypto) where
  | notarization (value : Notarization C)
  | nullification (value : Nullification C)
deriving DecidableEq

inductive ConsensusMessage (C : Crypto) where
  | propose (message : Propose C)
  | notarize (message : Notarize C)
  | nullify (message : Nullify C)
  | notarization (message : Notarization C)
  | nullification (message : Nullification C)
  | execAttest (message : ExecAttest C)
deriving DecidableEq

/-! ## Errors and evidence -/

inductive VoteError where
  | foreignSigner (index : Nat)
  | invalidSignature
  | emptyCommittee
  | tooManyValidators
  | invalidValidatorSet
  | insufficientSizing (totalWeight byzantineWeight : Nat)
  | epochMismatch
  | outsideWindow
  | quotaExceeded (index : Nat)
  | haltedOffender (index : Nat)
deriving DecidableEq

inductive QuorumError where
  | unknownSigner
  | malformedCertificate
  | invalidSignature
  | belowThreshold (signed threshold : Nat)
  | weightOverflow
  | invalidSet
  | duplicateValidator
  | zeroWeight
  | thresholdOutOfRange (threshold total : Nat)
  | insufficientSizing (totalWeight byzantineWeight : Nat)
deriving DecidableEq

inductive CertError where
  | digestMismatch
  | quorum (error : QuorumError)
deriving DecidableEq

/-- Two conflicting votes or proposals of one validator. -/
structure Equivocation (C : Crypto) where
  validatorIndex : Nat
  epoch : Nat
  view : Nat
  height : Nat
  firstBlock : C.Hash
  secondBlock : C.Hash
  firstSignature : Option C.Signature
  secondSignature : Option C.Signature
deriving DecidableEq

inductive SlashKind where
  | notarizeEquivocation
  | proposalFork
deriving DecidableEq

structure SlashEvidence (C : Crypto) where
  kind : SlashKind
  equivocation : Option (Equivocation C)
  epoch : Nat
deriving DecidableEq

end Dexos.Minimmit
