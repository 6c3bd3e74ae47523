import Dexos.Foundations.Reaction
import Dexos.Minimmit.Tally

/-!
# The Minimmit replica

The replica state, its inputs and outputs, the locking predicates and the vote tallies.

## Implementation notes

An output is an effect of the source or a ghost record. A `formed` record says that
`Tally::try_form` returned a certificate at this point, with the weight it compared and
the validators halted then; a `dropped` record says that `on_notarization` ignored an
`L`-notarization because another proof is stored for its view. `exec_candidates` is never
read by the source and is left out.
-/

namespace Dexos.Minimmit

open Foundations

variable {C : Crypto}

def defaultViewHorizon : Nat := 64

def defaultVoteQuota : Nat := 8192

inductive Input (C : Crypto) where
  | message (message : ConsensusMessage C)
  | timerFired (view : Nat)
  | tick
  | proposalVerified (view : Nat) (blockHash : C.Hash) (valid : Bool)
deriving DecidableEq

inductive Effect (C : Crypto) where
  | broadcast (message : ConsensusMessage C)
  | armTimer (view : Nat)
  | cancelTimer (view : Nat)
  | needProposal (parent : ParentRef C)
  | consensusFinal (block : C.Hash) (height : Nat)
  | finalized (block : C.Hash) (height : Nat)
  | slash (evidence : SlashEvidence C)
deriving DecidableEq

inductive FinalityStage (C : Crypto) where
  | consensusFinal (view : Nat) (block : C.Hash)
  | finalized (view : Nat) (block executionRoot : C.Hash) (executionCert : Certificate C)
deriving DecidableEq

inductive EpochError where
  | noPendingUpdate
  | wrongActivationEpoch (activation requested : Nat)
  | executionCertificatesPending
  | invalidCommittee (error : VoteError)
  | replicaRemoved
deriving DecidableEq

inductive TallyKind where
  | notarize
  | nullify
deriving DecidableEq

structure ValidatorSetUpdate (C : Crypto) where
  activationEpoch : Nat
  validators : List (Validator C)
deriving DecidableEq

/-- What a formed certificate is for. -/
inductive Subject (C : Crypto) where
  | notarization (view : Nat) (block : C.Hash)
  | nullification (view : Nat)
  | execution (height : Nat) (digest : C.Hash)
deriving DecidableEq

/-- Ghost record of a certificate the replica formed from one of its tallies. -/
structure Formation (C : Crypto) where
  subject : Subject C
  cert : Certificate C
  /-- The signer weight that was compared with the threshold. -/
  weight : Option Nat
  halted : OrdMap Nat Unit
deriving DecidableEq

inductive Output (C : Crypto) where
  | effect (effect : Effect C)
  | formed (formation : Formation C)
  | dropped (notarization : Notarization C)
deriving DecidableEq

def effects (outputs : List (Output C)) : List (Effect C) :=
  outputs.filterMap fun
    | .effect e => some e
    | _ => none

def formations (outputs : List (Output C)) : List (Formation C) :=
  outputs.filterMap fun
    | .formed f => some f
    | _ => none

theorem mem_formations {outputs : List (Output C)} {f : Formation C} :
    f ∈ formations outputs ↔ .formed f ∈ outputs := by
  rw [formations, List.mem_filterMap]
  constructor
  · rintro ⟨o, ho, eq⟩
    cases o with
    | effect e => cases eq
    | dropped n => cases eq
    | formed g =>
      cases eq
      exact ho
  · exact fun hf => ⟨.formed f, hf, rfl⟩

structure MinimmitReplica (C : Crypto) where
  epoch : Nat
  committee : MinimmitCommittee C
  selfIndex : Nat
  signer : Option C.KeyPair
  genesisHash : C.Hash
  view : Nat
  /-- The block notarized in the current view. -/
  notarized : Option C.Hash
  /-- Whether the current view was nullified. -/
  nullified : Bool
  pendingProposals : OrdMap Nat (Propose C)
  seenProposals : OrdMap Nat (Propose C)
  blocks : OrdMap C.Hash (Nat × BlockHeader C)
  proofs : OrdMap Nat (Proof C)
  notarizeVotes : OrdMap Nat (Tally C)
  nullifyVotes : OrdMap Nat (Tally C)
  execVotes : OrdMap Nat (Tally C)
  execCertificates : OrdMap Nat (C.Hash × Certificate C)
  finality : OrdMap Nat (FinalityStage C)
  redisseminated : OrdMap Nat Unit
  pendingUpdate : Option (ValidatorSetUpdate C)
  viewFloor : Nat
  perValidator : OrdMap Nat Nat
  halted : OrdMap Nat Unit
  voteQuota : Nat
  finalizedTip : Nat × C.Hash
  chain : OrdMap Nat C.Hash
deriving DecidableEq

/-- What a handler leaves and puts out. -/
abbrev Response (C : Crypto) := Reaction (MinimmitReplica C) (Output C)

namespace MinimmitReplica

/-! ## Locking predicates and view entry -/

/-- The downward walk of `select_parent` over the proofs below a view. -/
def parentWalk (genesisHash : C.Hash) : List (Nat × Proof C) → Nat → Option (ParentRef C)
  | [], nextExpected => if nextExpected = 0 then some (ParentRef.genesis genesisHash) else none
  | (walked, proof) :: rest, nextExpected =>
    if walked + 1 ≠ nextExpected then none
    else match proof with
      | .notarization n => some ⟨n.blockHash, walked⟩
      | .nullification _ => parentWalk genesisHash rest walked

def selectParent (r : MinimmitReplica C) (view : Nat) : Option (ParentRef C) :=
  parentWalk r.genesisHash (r.proofs.entries.filter fun e => e.1 < view).reverse view

/-- The upward scan of `valid_parent`: contiguous nullifications from `expected`. -/
def nullifiedScan : List (Nat × Proof C) → Nat → Option Nat
  | [], expected => some expected
  | (skipped, proof) :: rest, expected =>
    if skipped ≠ expected then none
    else match proof with
      | .notarization _ => none
      | .nullification _ => nullifiedScan rest (skipped + 1)

variable (r : MinimmitReplica C)

/-- Every view in `[skippedFrom, view)` holds a nullification. -/
def allNullified (skippedFrom view : Nat) : Bool :=
  nullifiedScan (r.proofs.entries.filter fun e => skippedFrom ≤ e.1 && e.1 < view) skippedFrom =
    some view

def validParent (view : Nat) (parent : ParentRef C) : Bool :=
  match parent.realView with
  | none => if parent.parentHash ≠ r.genesisHash then false else r.allNullified 0 view
  | some parentView =>
    if parentView ≥ view then false
    else match r.proofs.get? parentView with
      | some (.notarization n) =>
        if n.blockHash = parent.parentHash then r.allNullified (parentView + 1) view else false
      | _ => false

def viewEntryEffects (view : Nat) : List (Output C) :=
  .effect (.armTimer view) ::
    if r.committee.leader view = r.selfIndex then
      match r.selectParent view with
      | some parent => [.effect (.needProposal parent)]
      | none => []
    else []

def enterView (next : Nat) : Response C :=
  if next ≤ r.view then .idle r
  else
    let r := { r with view := next, notarized := none, nullified := false }
    (r, r.viewEntryEffects next)

variable (committee : MinimmitCommittee C)

/-- The state a replica starts in: genesis is final and nothing else is known. -/
def initial (selfIndex : Nat) (genesisHash : C.Hash)
    (epoch : Nat) (signer : Option C.KeyPair) : MinimmitReplica C where
  epoch := epoch
  committee := committee
  selfIndex := selfIndex
  signer := signer
  genesisHash := genesisHash
  view := 0
  notarized := none
  nullified := false
  pendingProposals := ∅
  seenProposals := ∅
  blocks := ∅
  proofs := ∅
  notarizeVotes := ∅
  nullifyVotes := ∅
  execVotes := ∅
  execCertificates := ∅
  finality := ∅
  redisseminated := ∅
  pendingUpdate := none
  viewFloor := 0
  perValidator := ∅
  halted := ∅
  voteQuota := defaultVoteQuota
  finalizedTip := (bottomView, genesisHash)
  chain := (∅ : OrdMap Nat C.Hash).insert 0 genesisHash

/-- Construct a read-only replica at view 0, with the bootstrap effects. -/
def new (selfIndex : Nat) (genesisHash : C.Hash) (epoch : Nat) :
    Except VoteError (Response C) :=
  if selfIndex ≥ committee.len then .error (.foreignSigner selfIndex)
  else
    let r := initial committee selfIndex genesisHash epoch none
    .ok (r, r.viewEntryEffects 0)

def newWithSigner (selfIndex : Nat) (genesisHash : C.Hash) (epoch : Nat) (signer : C.KeyPair) :
    Except VoteError (Response C) :=
  match committee.publicKey selfIndex with
  | none => .error (.foreignSigner selfIndex)
  | some expected =>
    if expected ≠ C.publicKey signer then .error .invalidSignature
    else match new committee selfIndex genesisHash epoch with
      | .error e => .error e
      | .ok (r, effects) => .ok ({ r with signer := some signer }, effects)

variable {committee}

theorem newWithSigner_ok {committee : MinimmitCommittee C} {selfIndex epoch : Nat}
    {genesisHash : C.Hash} {signer : C.KeyPair} {r : MinimmitReplica C} {out : List (Output C)}
    (h : newWithSigner committee selfIndex genesisHash epoch signer = .ok (r, out)) :
    selfIndex < committee.len ∧ committee.publicKey selfIndex = some (C.publicKey signer) ∧
      r = initial committee selfIndex genesisHash epoch (some signer) ∧
      out = r.viewEntryEffects 0 := by
  unfold newWithSigner at h
  split at h
  · cases h
  · rename_i expected hkey
    split_ifs at h with other
    unfold new at h
    split_ifs at h with foreign
    cases h
    exact ⟨not_le.1 foreign, by rw [hkey, not_not.1 other], rfl, rfl⟩

/-! ## Tallies -/

def votesOf (r : MinimmitReplica C) : TallyKind → OrdMap Nat (Tally C)
  | .notarize => r.notarizeVotes
  | .nullify => r.nullifyVotes

def setVotes (r : MinimmitReplica C) (kind : TallyKind) (votes : OrdMap Nat (Tally C)) :
    MinimmitReplica C :=
  { r with
    notarizeVotes := if kind = .notarize then votes else r.notarizeVotes
    nullifyVotes := if kind = .nullify then votes else r.nullifyVotes }

/-- Halt a validator: purge its votes from every tally and refuse its future votes. -/
def halt (r : MinimmitReplica C) (validatorIndex : Nat) : MinimmitReplica C :=
  { r with
    halted := r.halted.insert validatorIndex ()
    notarizeVotes := r.notarizeVotes.mapValues (·.purge validatorIndex)
    nullifyVotes := r.nullifyVotes.mapValues (·.purge validatorIndex)
    execVotes := r.execVotes.mapValues (·.purge validatorIndex)
    perValidator := r.perValidator.erase validatorIndex }

/-- The digest a vote of the given kind signs. -/
def voteDigest (kind : TallyKind) (epoch view : Nat) (candidate : C.Hash) : C.Hash :=
  match kind with
  | .notarize => notarizeDigest epoch view candidate
  | .nullify => nullifyDigest C epoch view

variable (kind : TallyKind)
include kind

def tally (view : Nat) : Tally C :=
  ((r.votesOf kind).get? view).getD ∅

/-- The bookkeeping after a tally admitted or refused a vote: an empty tally made for a
refused vote is not retained, an accepted vote counts against the quota, and an
equivocation halts the validator. -/
def recordAdmission (view validatorIndex : Nat) : Tally C × Except VoteError (TallyOutcome C) →
      MinimmitReplica C × Except VoteError (TallyOutcome C)
  | (tally, .error e) =>
    let entered := (r.votesOf kind).insert view tally
    (r.setVotes kind (if tally.isEmpty then entered.erase view else entered), .error e)
  | (tally, .ok outcome) =>
    let r := r.setVotes kind ((r.votesOf kind).insert view tally)
    match outcome with
    | .accepted =>
      let count := (r.perValidator.get? validatorIndex).getD 0
      ({ r with perValidator := r.perValidator.insert validatorIndex (satAdd count 1) },
        .ok .accepted)
    | .equivocated first firstSignature =>
      (r.halt validatorIndex, .ok (.equivocated first firstSignature))
    | .duplicate => (r, .ok .duplicate)

/-- The tally bookkeeping of an authenticated vote. -/
def tallyVote (view validatorIndex : Nat) (candidate : C.Hash) (signature : C.Signature) :
    MinimmitReplica C × Except VoteError (TallyOutcome C) :=
  let withinQuota := (r.perValidator.get? validatorIndex).getD 0 < r.voteQuota
  r.recordAdmission kind view validatorIndex
    ((r.tally kind view).admitSigned validatorIndex candidate signature withinQuota)

def admitVote (epoch view validatorIndex : Nat) (candidate : C.Hash) (signature : C.Signature) :
    MinimmitReplica C × Except VoteError (TallyOutcome C) :=
  if epoch ≠ r.epoch then (r, .error .epochMismatch)
  else if view < r.viewFloor ∨ view > satAdd r.view defaultViewHorizon then
    (r, .error .outsideWindow)
  else if r.halted.contains validatorIndex then (r, .error (.haltedOffender validatorIndex))
  else match r.committee.cachedKey validatorIndex with
    | none => (r, .error (.foreignSigner validatorIndex))
    | some key =>
      if C.verify key (voteDigest kind epoch view candidate) signature then
        r.tallyVote kind view validatorIndex candidate signature
      else (r, .error .invalidSignature)

omit kind

def admitNotarize (n : Notarize C) : MinimmitReplica C × Except VoteError (TallyOutcome C) :=
  r.admitVote .notarize n.epoch n.view n.validatorIndex n.blockHash n.signature

def admitNullify (n : Nullify C) : MinimmitReplica C × Except VoteError (TallyOutcome C) :=
  r.admitVote .nullify n.epoch n.view n.validatorIndex n.digest n.signature

def tryFormNotarization (view : Nat) (blockHash : C.Hash)
    (kind : ThresholdKind) : Option (Certificate C) :=
  (r.notarizeVotes.get? view).bind fun tally =>
    tally.tryForm r.committee blockHash (notarizeDigest r.epoch view blockHash) kind

def tryFormNullification (view : Nat) (kind : ThresholdKind) : Option (Certificate C) :=
  let digest := nullifyDigest C r.epoch view
  (r.nullifyVotes.get? view).bind fun tally => tally.tryForm r.committee digest digest kind

/-- The ghost record of a certificate formed from the votes for a candidate. -/
def formation (subject : Subject C) (tally : Tally C)
    (candidate : C.Hash) (cert : Certificate C) : Output C :=
  .formed {
    subject, cert
    weight := Tally.signerWeight r.committee (tally.votesFor candidate).entries 0
    halted := r.halted }

end MinimmitReplica

end Dexos.Minimmit
