import Dexos.Crypto.Quorum

/-!
# Checkpoint sync of a shard

A light client follows one shard: it keeps the validator sets of the epochs it knows, the highest
verified checkpoint, a bounded history of accepted ranges and a bounded buffer of checkpoints
that are ahead of the tip.

## Implementation notes

Every call returns its result next to the state that it leaves, also when it fails. The roots of
a checkpoint are hashes, and its sequence numbers are the numbers of the source's `u64` words.
-/

namespace Dexos.LightClient

open Foundations Minimmit

variable {C : Crypto}

/-! ## Checkpoints -/

def domainCheckpoint : String := "dexos:checkpoint:header:v1"

structure Checkpoint (C : Crypto) where
  epoch : Nat
  shardId : Nat
  firstSequence : Nat
  lastSequence : Nat
  previousStateRoot : C.Hash
  newStateRoot : C.Hash
  commandRoot : C.Hash
  executionRoot : C.Hash
  oracleRoot : C.Hash
  timestamp : Nat
  quorumCertificate : Certificate C
deriving DecidableEq

def Checkpoint.hash (D : Digests C) (cp : Checkpoint C) : C.Hash :=
  D.hashData domainCheckpoint [.word 8 cp.epoch, .word 2 cp.shardId, .word 8 cp.firstSequence,
    .word 8 cp.lastSequence, .hash cp.previousStateRoot, .hash cp.newStateRoot,
      .hash cp.commandRoot, .hash cp.executionRoot, .hash cp.oracleRoot, .word 8 cp.timestamp]

inductive CheckpointError where
  | rangeOutOfOrder (first last : Nat)
  | hashMismatch
  | quorum
deriving DecidableEq

def verifyCheckpoint (D : Digests C) (cp : Checkpoint C) (set : ValidatorSet C) :
    Except CheckpointError Unit := do
  require (cp.firstSequence ≤ cp.lastSequence)
    (.rangeOutOfOrder cp.firstSequence cp.lastSequence)
  require (cp.quorumCertificate.message = cp.hash D) .hashMismatch
  (set.verify cp.quorumCertificate).mapError fun _ => .quorum

/-! ## State -/

inductive LightClientError where
  | checkpoint (err : CheckpointError)
  | unknownValidatorSet (epoch : Nat)
  | shardMismatch (expected got : Nat)
  | untrustedRoot
  | brokenAncestry
  | equivocation (first last : Nat)
  | prunedHistoryConflict (first last : Nat)
  | unsolicitedValidatorSet (epoch : Nat)
  | nonCanonicalValidatorSet (epoch : Nat)
  | invalidValidatorSetTransition (oldEpoch newEpoch : Nat)
deriving DecidableEq

structure AcceptedRange (C : Crypto) where
  first : Nat
  last : Nat
  root : C.Hash
  epoch : Nat
deriving DecidableEq

structure VerifiedTip (C : Crypto) where
  height : Nat
  firstSequence : Nat
  stateRoot : C.Hash
  epoch : Nat
deriving DecidableEq

inductive IngestOutcome (C : Crypto) where
  | advanced (height : Nat) (stateRoot : C.Hash)
  | buffered (needFrom gotFrom : Nat)
  | duplicate
deriving DecidableEq

structure ShardSync (C : Crypto) where
  shardId : Nat
  trustedRoot : C.Hash
  validatorSets : OrdMap Nat (ValidatorSet C)
  latestEpoch : Option Nat
  tip : Option (VerifiedTip C)
  accepted : OrdMap Nat (AcceptedRange C)
  historyLimit : Nat
  buffer : OrdMap Nat (Checkpoint C)
  bufferLimit : Nat
  bufferedDropped : Nat
deriving DecidableEq

/-- `u64::wrapping_add(1)`. -/
def nextSequence (height : Nat) : Nat := (height + 1) % 2 ^ 64

namespace ShardSync

def withLimits (shardId : Nat) (trustedRoot : C.Hash)
    (historyLimit bufferLimit : Nat) : ShardSync C :=
  ⟨shardId, trustedRoot, ∅, none, none, ∅, max historyLimit 1, ∅, max bufferLimit 1, 0⟩

/-! ## Validator sets -/

def bootstrapValidatorSet (s : ShardSync C) (epoch : Nat) (set : ValidatorSet C) :
    Except LightClientError Unit × ShardSync C :=
  if s.validatorSets.isEmpty = false then (.error (.unsolicitedValidatorSet epoch), s)
  else
    let n := set.validators.length
    if n < 6 ∨ (set.validators.any fun v => v.weight ≠ 1) ∨ set.threshold ≠ n - (n - 1) / 5 then
      (.error (.nonCanonicalValidatorSet epoch), s)
    else (.ok (),
      { s with validatorSets := s.validatorSets.insert epoch set, latestEpoch := some epoch })

def domainValidatorSetTransition : String := "dexos:validator-set-transition:v1"

def validatorSetTransitionDigest (D : Digests C) (oldEpoch newEpoch : Nat)
    (newCommittee : MinimmitCommittee C) : C.Hash :=
  D.hashData domainValidatorSetTransition
    [.word 8 oldEpoch, .word 8 newEpoch, .hash (newCommittee.finalizeSet.commitment D)]

/-- A transition from a known epoch to a later one. -/
structure ValidatorSetTransition (C : Crypto) where
  oldEpoch : Nat
  newEpoch : Nat
  newCommittee : MinimmitCommittee C
  certificate : Certificate C

def applyValidatorSetTransition (D : Digests C) (s : ShardSync C) (t : ValidatorSetTransition C) :
    Except LightClientError Unit × ShardSync C :=
  if t.newEpoch ≤ t.oldEpoch then (.error (.invalidValidatorSetTransition t.oldEpoch t.newEpoch), s)
  else match s.validatorSets.get? t.newEpoch with
    | some existing =>
      -- Installing the same set again is harmless.
      if existing.commitment D = t.newCommittee.finalizeSet.commitment D then (.ok (), s)
      else (.error (.unsolicitedValidatorSet t.newEpoch), s)
    | none =>
      match s.validatorSets.get? t.oldEpoch with
      | none => (.error (.unknownValidatorSet t.oldEpoch), s)
      | some oldSet =>
        if t.certificate.message ≠
            validatorSetTransitionDigest D t.oldEpoch t.newEpoch t.newCommittee then
          (.error (.invalidValidatorSetTransition t.oldEpoch t.newEpoch), s)
        else match oldSet.verify t.certificate with
          | .error _ => (.error (.invalidValidatorSetTransition t.oldEpoch t.newEpoch), s)
          | .ok () => (.ok (), { s with
              validatorSets := s.validatorSets.insert t.newEpoch t.newCommittee.finalizeSet
              latestEpoch := some (max (s.latestEpoch.getD 0) t.newEpoch) })

/-! ## Checkpoints -/

def rangeOf (cp : Checkpoint C) : AcceptedRange C :=
  ⟨cp.firstSequence, cp.lastSequence, cp.newStateRoot, cp.epoch⟩

def tipOf (cp : Checkpoint C) : VerifiedTip C :=
  ⟨cp.lastSequence, cp.firstSequence, cp.newStateRoot, cp.epoch⟩

/-- Drop the entry with the smallest key. -/
def removeOldest {V : Type} (m : OrdMap Nat V) : OrdMap Nat V :=
  match m.entries with
  | [] => m
  | (k, _) :: _ => m.erase k

/-- `ShardSync::accept`: the loop drops one range a turn until the history fits. -/
def accept (s : ShardSync C) (cp : Checkpoint C) : ShardSync C :=
  let accepted := s.accepted.insert cp.firstSequence (rangeOf cp)
  { s with
    tip := some (tipOf cp)
    accepted := removeOldest^[accepted.size - s.historyLimit] accepted }

def bufferFuture (s : ShardSync C) (cp : Checkpoint C) : ShardSync C :=
  if s.buffer.contains cp.firstSequence then s
  else if s.bufferLimit ≤ s.buffer.size then
    { s with bufferedDropped := satAdd s.bufferedDropped 1 }
  else { s with buffer := s.buffer.insert cp.firstSequence cp }

/-- The loop of `ShardSync::drain_buffer`, for at most `turns` turns. -/
def drain : Nat → ShardSync C → ShardSync C
  | 0, s => s
  | turns + 1, s =>
    match s.tip with
    | none => s
    | some tip =>
      match s.buffer.get? (nextSequence tip.height) with
      | none => s
      | some next =>
        let s := { s with buffer := s.buffer.erase (nextSequence tip.height) }
        if next.previousStateRoot ≠ tip.stateRoot then
          { s with bufferedDropped := satAdd s.bufferedDropped 1 }
        else drain turns (s.accept next)

variable (s : ShardSync C)

/-- `ShardSync::drain_buffer`: every turn but the last takes a checkpoint out of the buffer. -/
def drainBuffer : ShardSync C := drain (s.buffer.size + 1) s

def classifyOld (cp : Checkpoint C) : Except LightClientError (IngestOutcome C) :=
  match s.accepted.get? cp.firstSequence with
  | some range =>
    if range.last = cp.lastSequence ∧ range.root = cp.newStateRoot then .ok .duplicate
    else .error (.equivocation cp.firstSequence cp.lastSequence)
  | none => .error (.prunedHistoryConflict cp.firstSequence cp.lastSequence)

def advance (cp : Checkpoint C) : Except LightClientError (IngestOutcome C) × ShardSync C :=
  (.ok (.advanced cp.lastSequence cp.newStateRoot), (s.accept cp).drainBuffer)

def ingestWithTip (cp : Checkpoint C) (tip : VerifiedTip C) :
    Except LightClientError (IngestOutcome C) × ShardSync C :=
  if cp.firstSequence = nextSequence tip.height then
    if cp.previousStateRoot ≠ tip.stateRoot then (.error .brokenAncestry, s)
    else s.advance cp
  else if nextSequence tip.height < cp.firstSequence then
    (.ok (.buffered (nextSequence tip.height) cp.firstSequence), s.bufferFuture cp)
  else (s.classifyOld cp, s)

variable {s}

def ingest (D : Digests C) (s : ShardSync C) (cp : Checkpoint C) :
    Except LightClientError (IngestOutcome C) × ShardSync C :=
  if cp.shardId ≠ s.shardId then (.error (.shardMismatch s.shardId cp.shardId), s)
  else match s.validatorSets.get? cp.epoch with
    | none => (.error (.unknownValidatorSet cp.epoch), s)
    | some set =>
      match verifyCheckpoint D cp set with
      | .error err => (.error (.checkpoint err), s)
      | .ok () =>
        match s.tip with
        | none =>
          if cp.previousStateRoot ≠ s.trustedRoot then (.error .untrustedRoot, s)
          else s.advance cp
        | some tip => s.ingestWithTip cp tip

/-! ## Runs -/

inductive Call (C : Crypto) where
  | bootstrap (epoch : Nat) (set : ValidatorSet C)
  | transition (t : ValidatorSetTransition C)
  | ingest (cp : Checkpoint C)

def perform (D : Digests C) (s : ShardSync C) : Call C → Except LightClientError Unit × ShardSync C
  | .bootstrap epoch set => s.bootstrapValidatorSet epoch set
  | .transition t => s.applyValidatorSetTransition D t
  | .ingest cp => ((s.ingest D cp).1.map fun _ => (), (s.ingest D cp).2)

/-- The states that calls reach, succeeding or failing, when each call satisfies a condition. -/
inductive Reached (D : Digests C) (allowed : ShardSync C → Call C → Prop) (start : ShardSync C) :
    ShardSync C → Prop
  | start : Reached D allowed start start
  | call {s : ShardSync C} (c : Call C) (before : Reached D allowed start s) (ok : allowed s c) :
      Reached D allowed start (s.perform D c).2

end ShardSync

end Dexos.LightClient
