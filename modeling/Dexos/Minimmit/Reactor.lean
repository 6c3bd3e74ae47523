import Dexos.Minimmit.Replica

/-!
# The Minimmit reactor

The handlers behind `step`: proposal admission, notarize and nullify votes, certificate
formation and ingestion, nullification by contradiction, ordering and execution
finality, and epoch rotation. A handler returns the next state and its outputs.
-/

namespace Dexos.Minimmit

open Foundations Reaction

variable {C : Crypto}

namespace MinimmitReplica

/-! ## Finality -/

/-- Join a parked execution certificate with a consensus-final height. -/
def tryCompleteFinality (r : MinimmitReplica C) (height : Nat) :
    Response C :=
  match r.execCertificates.get? height, r.finality.get? height with
  | some (executionRoot, executionCert), some (.consensusFinal view block) =>
    ({ r with
        finality := r.finality.insert height
          (.finalized view block executionRoot executionCert)
        execVotes := r.execVotes.erase height },
      [.effect (.finalized block height)])
  | _, _ => .idle r

/-- Release one evicted vote from a validator's quota. -/
def releaseQuota (perValidator : OrdMap Nat Nat) (index : Nat) : OrdMap Nat Nat :=
  match perValidator.get? index with
  | none => perValidator
  | some count =>
    if count - 1 = 0 then perValidator.erase index else perValidator.insert index (count - 1)

/-- The signers of every vote a tally map retains below a view. -/
def evictedSigners (votes : OrdMap Nat (Tally C)) (horizon : Nat) : List Nat :=
  (votes.entries.filter fun e => e.1 < horizon).flatMap fun e =>
    e.2.votes.values.flatMap fun per => per.keys

/-- Evict the view-keyed state below `horizon` and raise the admission floor. -/
def prune (r : MinimmitReplica C) (horizon : Nat) : MinimmitReplica C :=
  { r with
    viewFloor := max r.viewFloor horizon
    proofs := r.proofs.filter fun view _ => horizon ≤ view
    notarizeVotes := r.notarizeVotes.filter fun view _ => horizon ≤ view
    nullifyVotes := r.nullifyVotes.filter fun view _ => horizon ≤ view
    perValidator :=
      (evictedSigners r.notarizeVotes horizon ++ evictedSigners r.nullifyVotes horizon).foldl
        releaseQuota r.perValidator }

/-- Walk parent headers from `cursor` to the chain. The collected path lists the oldest
block first. `none` when a header is missing; the fuel bounds the walk by the number of
stored headers, beyond which the parent links form a cycle. -/
def walkPath (r : MinimmitReplica C) :
    Nat → C.Hash → List (Nat × Nat × C.Hash) → Option (List (Nat × Nat × C.Hash))
  | 0, _, _ => none
  | fuel + 1, cursor, path =>
    if cursor ∈ r.chain.values then some path
    else match r.blocks.get? cursor with
      | none => none
      | some (blockView, block) =>
        walkPath r fuel block.parentHash ((block.height, blockView, cursor) :: path)

/-- Append a path to the chain. On a height conflict the source returns no effects but
keeps what it already changed. -/
def extendChain (r : MinimmitReplica C) :
    List (Nat × Nat × C.Hash) → List (Output C) → MinimmitReplica C × Option (List (Output C))
  | [], effects => (r, some effects)
  | (height, blockView, block) :: rest, effects =>
    if (r.chain.get? height).any (· ≠ block) then (r, none)
    else if r.finality.contains height then extendChain r rest effects
    else
      let recorded := { r with
        chain := r.chain.insert height block
        finality := r.finality.insert height (.consensusFinal blockView block) }
      let completed := recorded.tryCompleteFinality height
      extendChain completed.1 rest
        (effects ++ .effect (.consensusFinal block height) :: completed.2)

def consensusFinalize (r : MinimmitReplica C) (view : Nat) (tip : C.Hash) :
    Response C :=
  if r.finalizedTip.1 ≠ bottomView ∧ view ≤ r.finalizedTip.1 then .idle r
  else match r.walkPath (r.blocks.size + 1) tip [] with
    | none => .idle r
    | some path =>
      match r.extendChain path [] with
      | (r, none) => (r, [])
      | (r, some effects) =>
        ({ r with finalizedTip := (view, tip) }.prune (view - defaultViewHorizon), effects)

/-! ## Certificates -/

def isFinalizeCert (r : MinimmitReplica C) (cert : Certificate C) : Bool :=
  r.committee.verify cert .finalize = .ok ()

/-- The stored proof of the view is a nullification or names another block. -/
def proofConflicts (r : MinimmitReplica C) (view : Nat) (block : C.Hash) : Bool :=
  match r.proofs.get? view with
  | none => false
  | some (.notarization n) => n.blockHash ≠ block
  | some (.nullification _) => true

/-- Store a notarization that is new for its view or upgrades the stored one to `L`. -/
def storeNotarization (r : MinimmitReplica C) (n : Notarization C) (formedHere : Bool) :
    MinimmitReplica C :=
  { r with
    proofs := r.proofs.insert n.view (.notarization n)
    redisseminated :=
      if formedHere then (r.redisseminated.erase n.view).insert n.view ()
      else r.redisseminated.erase n.view }

/-- The stored proof of the view is an `L`-notarization. -/
def existingIsL (r : MinimmitReplica C) (view : Nat) : Bool :=
  match r.proofs.get? view with
  | some (.notarization value) => r.isFinalizeCert value.cert
  | _ => false

/-- Record a verified notarization: store and announce it when it is new or an upgrade,
and advance the view when it is new. -/
def recordNotarization (r : MinimmitReplica C) (n : Notarization C) (formedHere : Bool) :
    Response C :=
  let isNew := !r.proofs.contains n.view
  let isUpgrade := r.isFinalizeCert n.cert && !r.existingIsL n.view
  if isNew || isUpgrade then
    let announced : Response C :=
      (r.storeNotarization n formedHere, (if isNew then [.effect (.cancelTimer n.view)] else []) ++
          if formedHere then [.effect (.broadcast (.notarization n))] else [])
    if isNew then announced.andThen fun r => r.enterView (satAdd n.view 1) else announced
  else .idle r

def onNotarization (r : MinimmitReplica C) (n : Notarization C) (formedHere : Bool) :
    Response C :=
  if n.epoch ≠ r.epoch ∨ n.verify r.committee ≠ .ok () then .idle r
  else if r.proofConflicts n.view n.blockHash then
    (r, if r.isFinalizeCert n.cert then [.dropped n] else [])
  else if r.isFinalizeCert n.cert then
    (r.recordNotarization n formedHere).andThen fun r => r.consensusFinalize n.view n.blockHash
  else r.recordNotarization n formedHere

def onNullification (r : MinimmitReplica C) (n : Nullification C) (formedHere : Bool) :
    Response C :=
  if n.epoch ≠ r.epoch ∨ n.verify r.committee ≠ .ok () then .idle r
  else if r.proofs.contains n.view then .idle r
  else
    let stored := { r with
      proofs := r.proofs.insert n.view (.nullification n)
      redisseminated := if formedHere then r.redisseminated.insert n.view () else r.redisseminated }
    andThen
      (stored, .effect (.cancelTimer n.view) ::
        if formedHere then [.effect (.broadcast (.nullification n))] else [])
      fun r => r.enterView (satAdd n.view 1)

/-- Form a nullification at `M` from the view's tally and process it. -/
def formNullification (r : MinimmitReplica C) (epoch view : Nat) :
    Response C :=
  match r.tryFormNullification view .advance with
  | none => .idle r
  | some cert =>
    andThen
      (r, [r.formation (.nullification view) (r.tally .nullify view)
        (nullifyDigest C r.epoch view) cert])
      fun r => r.onNullification { epoch, view, cert } true

/-! ## Votes -/

/-- The validators with a retained nullify, or a notarize for another block, in the view. -/
def contradictors (r : MinimmitReplica C) (view : Nat) (ours : C.Hash) : OrdMap Nat Unit :=
  let nullifiers := (r.tally .nullify view).votes.values.flatMap fun per => per.keys
  let others := ((r.tally .notarize view).votes.entries.filter
    fun e => e.1 ≠ ours).flatMap fun e => e.2.keys
  (nullifiers ++ others).foldl (fun set i => set.insert i ()) ∅

/-- The saturating weight of a set of validators, ignoring indices outside the committee. -/
def setWeight (committee : MinimmitCommittee C) (indices : List Nat) : Nat :=
  (indices.filterMap committee.weight).foldl satAdd 0

variable (r : MinimmitReplica C)

/-- This replica's nullify vote for a view. -/
def nullifyVote (signer : C.KeyPair) (view : Nat) : Nullify C where
  epoch := r.epoch
  view := view
  validatorIndex := r.selfIndex
  signature := C.sign signer (nullifyDigest C r.epoch view)

def maybeNullifyByContradiction (view : Nat) : Response C :=
  if view ≠ r.view ∨ r.nullified then .idle r
  else match r.notarized with
    | none => .idle r
    | some ours =>
      if setWeight r.committee (r.contradictors view ours).keys < r.committee.advanceThreshold then
        .idle r
      else match r.signer with
        | none => .idle r
        | some signer =>
          let vote := r.nullifyVote signer view
          andThen
            ({ r with nullified := true }, [.effect (.broadcast (.nullify vote))])
            fun r => match r.admitNullify vote with
              | (r, .error _) => .idle r
              | (r, .ok _) => r.formNullification r.epoch view

def onNullify (n : Nullify C) : Response C :=
  match r.admitNullify n with
  | (r, .error _) => .idle r
  | (r, .ok _) =>
    (r.formNullification n.epoch n.view).andThen fun r => r.maybeNullifyByContradiction n.view

def voteEquivocation (vote : Notarize C) (first : C.Hash)
    (firstSignature : C.Signature) : Effect C :=
  .slash {
    kind := .notarizeEquivocation
    equivocation := some {
      validatorIndex := vote.validatorIndex
      epoch := vote.epoch
      view := vote.view
      height := ((r.blocks.get? vote.blockHash).map (·.2.height)).getD 0
      firstBlock := first
      secondBlock := vote.blockHash
      firstSignature := some firstSignature
      secondSignature := some vote.signature }
    epoch := vote.epoch }

/-- Form a notarization at `M` from the view's tally and process it. -/
def formNotarization (epoch view : Nat) (blockHash : C.Hash) :
    Response C :=
  match r.tryFormNotarization view blockHash .advance with
  | none => .idle r
  | some cert =>
    andThen
      (r, [r.formation (.notarization view blockHash) (r.tally .notarize view) blockHash cert])
      fun r => r.onNotarization { epoch, view, blockHash, cert } true

def onNotarize (n : Notarize C) : Response C :=
  match r.admitNotarize n with
  | (r, .error _) => .idle r
  | (r, .ok (.equivocated first firstSignature)) =>
    (r, [.effect (r.voteEquivocation n first firstSignature)])
  | (r, .ok _) =>
    (r.formNotarization n.epoch n.view n.blockHash).andThen
      fun r => r.maybeNullifyByContradiction n.view

/-! ## The reactor -/

def onTimerFired (view : Nat) : Response C :=
  if view ≠ r.view ∨ r.notarized.isSome ∨ r.nullified then .idle r
  else match r.signer with
    | none => .idle r
    | some signer =>
      let vote := r.nullifyVote signer view
      andThen ({ r with nullified := true }, [.effect (.broadcast (.nullify vote))])
        fun r => r.onNullify vote

def proofMessage : Proof C → ConsensusMessage C
  | .notarization n => .notarization n
  | .nullification n => .nullification n

def onTick : Response C :=
  let floor := r.view - defaultViewHorizon
  let due := r.proofs.entries.filter fun e =>
    floor ≤ e.1 && e.1 ≤ r.view && !r.redisseminated.contains e.1
  ({ r with redisseminated := due.foldl (fun set e => set.insert e.1 ()) r.redisseminated },
    due.map fun e => .effect (.broadcast (proofMessage e.2)))

/-- The state after a valid verdict for a buffered proposal. -/
def learned (view : Nat) (propose : Propose C) : MinimmitReplica C :=
  { r with
    pendingProposals := r.pendingProposals.erase view
    blocks := r.blocks.insert propose.blockHash (view, propose.block) }

/-- A header that arrives after its view: finalize if the stored proof is its
`L`-notarization. -/
def finalizeLate (view : Nat) (blockHash : C.Hash) : Response C :=
  match r.proofs.get? view with
  | some (.notarization value) =>
    if value.blockHash = blockHash ∧ r.isFinalizeCert value.cert then
      r.consensusFinalize view blockHash
    else .idle r
  | _ => .idle r

/-- The signature of this replica's notarize vote: the proposer already signed it. -/
def notarizeSignature (propose : Propose C) : Option C.Signature :=
  if propose.proposerIndex = r.selfIndex then some propose.notarizeSig
  else r.signer.map fun signer => C.sign signer propose.notarizeDigest

/-- Cast the notarize vote for a verified proposal: broadcast it (the proposer broadcasts
the proposal itself), then tally the proposer's vote and this replica's own. -/
def castNotarize (view : Nat) (propose : Propose C)
    (signature : C.Signature) : Response C :=
  let vote : Notarize C :=
    { epoch := r.epoch, view, blockHash := propose.blockHash, validatorIndex := r.selfIndex
      signature }
  let leaderVote : Notarize C :=
    { epoch := propose.epoch, view := propose.view, blockHash := propose.blockHash
      validatorIndex := propose.proposerIndex, signature := propose.notarizeSig }
  let cast : Response C :=
    ({ r with notarized := some propose.blockHash },
      [.effect (.broadcast
        (if propose.proposerIndex = r.selfIndex then .propose propose else .notarize vote))])
  let tallied := cast.andThen fun r => r.onNotarize leaderVote
  if propose.proposerIndex = r.selfIndex then tallied
  else tallied.andThen fun r => r.onNotarize vote

def onProposalVerified (view : Nat) (blockHash : C.Hash) (valid : Bool) :
    Response C :=
  match r.pendingProposals.get? view with
  | none => .idle r
  | some propose =>
    if propose.blockHash ≠ blockHash ∨ valid = false then
      .idle { r with pendingProposals := r.pendingProposals.erase view }
    else
      let learned := r.learned view propose
      if view ≠ r.view then learned.finalizeLate view blockHash
      else if r.notarized.isSome ∨ r.nullified ∨ learned.validParent view propose.parent = false
        then .idle learned
      else match r.notarizeSignature propose with
        | none => .idle learned
        | some signature => learned.castNotarize view propose signature

def proposalFork (first propose : Propose C) : Effect C :=
  .slash {
    kind := .proposalFork
    equivocation := some {
      validatorIndex := propose.proposerIndex
      epoch := propose.epoch
      view := propose.view
      height := propose.block.height
      firstBlock := first.blockHash
      secondBlock := propose.blockHash
      firstSignature := some first.proposeSig
      secondSignature := some propose.proposeSig }
    epoch := propose.epoch }

/-- Retain a proposal for fork evidence and for its verification verdict. -/
def bufferProposal (propose : Propose C) : MinimmitReplica C :=
  { r with
    seenProposals := r.seenProposals.insert propose.view propose
    pendingProposals := r.pendingProposals.insert propose.view propose }

def onPropose (propose : Propose C) : Response C :=
  if propose.epoch ≠ r.epoch ∨ propose.view = bottomView ∨ propose.view > r.view ∨
      propose.proposerIndex ≠ r.committee.leader propose.view ∨
      propose.block.hash ≠ propose.blockHash ∨
      propose.block.parentHash ≠ propose.parent.parentHash then .idle r
  else match r.committee.cachedKey propose.proposerIndex with
    | none => .idle r
    | some key =>
      if C.verify key propose.notarizeDigest propose.notarizeSig = false ∨
          C.verify key propose.authDigest propose.proposeSig = false then .idle r
      else match r.seenProposals.get? propose.view with
        | some first =>
          if first.blockHash = propose.blockHash then .idle r
          else (r.halt propose.proposerIndex, [.effect (proposalFork first propose)])
        | none =>
          if propose.view < r.view then
            match r.proofs.get? propose.view with
            | some (.notarization value) =>
              if value.blockHash = propose.blockHash then .idle (r.bufferProposal propose)
              else .idle r
            | _ => .idle r
          else if r.notarized.isSome ∨ r.nullified ∨
              r.validParent propose.view propose.parent = false then .idle r
          else .idle (r.bufferProposal propose)

/-- Keep the first execution certificate of a height. -/
def parkCertificate (height : Nat) (executionRoot : C.Hash)
    (cert : Certificate C) : MinimmitReplica C :=
  if r.execCertificates.contains height then r
  else { r with execCertificates := r.execCertificates.insert height (executionRoot, cert) }

def execTally (height : Nat) : Tally C :=
  (r.execVotes.get? height).getD ∅

/-- Form the execution certificate at `L`, park it and try to complete the height. -/
def formExecution (attest : ExecAttest C) : Response C :=
  let digest := attest.digest
  let tally := r.execTally attest.height
  match tally.tryForm r.committee digest digest .finalize with
  | none => .idle r
  | some cert =>
    let formed : Response C :=
      (r, [r.formation (.execution attest.height digest) tally digest cert])
    if r.committee.verify cert .finalize ≠ .ok () then formed
    else formed.andThen fun r =>
      (r.parkCertificate attest.height attest.executionRoot cert).tryCompleteFinality
        attest.height

/-- The bookkeeping after the height's tally admitted or refused an attestation. -/
def recordAttest (attest : ExecAttest C) :
    Tally C × Except VoteError (TallyOutcome C) → Response C
  | (tally, result) =>
    let r := { r with execVotes := r.execVotes.insert attest.height tally }
    match result with
    | .error _ => .idle r
    | .ok (.equivocated _ _) => .idle (r.halt attest.validatorIndex)
    | .ok _ => r.formExecution attest

/-- Execution attestations are not checked against the halted validators. -/
def onExecAttest (attest : ExecAttest C) : Response C :=
  if attest.epoch ≠ r.epoch ∨ attest.verify r.committee ≠ .ok () then .idle r
  else match r.blocks.get? attest.blockHash with
    | none => .idle r
    | some (view, block) =>
      if view ≠ attest.view ∨ block.height ≠ attest.height then .idle r
      else r.recordAttest attest
        ((r.execTally attest.height).admitSigned attest.validatorIndex attest.digest
          attest.signature true)

def onMessage : ConsensusMessage C → Response C
  | .propose m => r.onPropose m
  | .notarize m => r.onNotarize m
  | .nullify m => r.onNullify m
  | .notarization m => r.onNotarization m false
  | .nullification m => r.onNullification m false
  | .execAttest m => r.onExecAttest m

/-- The single reactor entry point. -/
def step : Input C → Response C
  | .message m => r.onMessage m
  | .timerFired view => r.onTimerFired view
  | .tick => r.onTick
  | .proposalVerified view blockHash valid => r.onProposalVerified view blockHash valid

/-! ## Epoch rotation -/

def scheduleUpdate (update : ValidatorSetUpdate C) : MinimmitReplica C :=
  { r with pendingUpdate := some update }

/-- The index this replica takes in a new committee. -/
def newIndex (committee : MinimmitCommittee C) : Option Nat :=
  match r.signer with
  | some signer => committee.validators.findIdx? fun v => v.publicKey = C.publicKey signer
  | none => if r.selfIndex < committee.len then some r.selfIndex else none

/-- The state after the swap: chain, finality, blocks and genesis are retained. -/
def rotated (newEpoch : Nat) (committee : MinimmitCommittee C)
    (newIndex : Nat) : MinimmitReplica C :=
  { r with
    pendingUpdate := none, epoch := newEpoch, committee, selfIndex := newIndex
    view := 0, notarized := none, nullified := false
    pendingProposals := ∅, seenProposals := ∅, proofs := ∅
    notarizeVotes := ∅, nullifyVotes := ∅, execVotes := ∅, execCertificates := ∅
    redisseminated := ∅, perValidator := ∅, halted := ∅, viewFloor := 0 }

def activateEpoch (newEpoch : Nat) : Except EpochError (Response C) :=
  match r.pendingUpdate with
  | none => .error .noPendingUpdate
  | some update =>
    if update.activationEpoch ≠ newEpoch then
      .error (.wrongActivationEpoch update.activationEpoch newEpoch)
    else if r.finality.values.any fun
        | .consensusFinal _ _ => true
        | .finalized _ _ _ _ => false then
      .error .executionCertificatesPending
    else match MinimmitCommittee.newUnit newEpoch update.validators with
      | .error e => .error (.invalidCommittee e)
      | .ok committee =>
        match r.newIndex committee with
        | none => .error .replicaRemoved
        | some newIndex =>
          let r := r.rotated newEpoch committee newIndex
          .ok (r, r.viewEntryEffects 0)

variable {r}

inductive Call (C : Crypto) where
  | step (input : Input C)
  | scheduleUpdate (update : ValidatorSetUpdate C)
  | activateEpoch (newEpoch : Nat)
deriving DecidableEq

/-- One call; a refused activation leaves the state unchanged. -/
def call (r : MinimmitReplica C) : Call C → Response C
  | .step input => r.step input
  | .scheduleUpdate update => .idle (r.scheduleUpdate update)
  | .activateEpoch newEpoch =>
    match r.activateEpoch newEpoch with
    | .ok reaction => reaction
    | .error _ => .idle r

end MinimmitReplica

end Dexos.Minimmit
