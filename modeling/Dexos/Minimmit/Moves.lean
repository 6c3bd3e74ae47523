import Dexos.Minimmit.Reactor

/-!
# The moves of a replica

Every handler of the reactor is a sequence of elementary moves, and each move states
the guards the source checked before it. The safety invariants are proved for one move;
`step_performs` carries them over to every step.

A move also sees the set `A` of signatures known to exist: a vote enters a tally, and a
certificate enters `proofs`, only when its signatures are in `A`, and a broadcast adds
the signatures it hands out. With `A` the set of all signatures the guard is void, and
the replica meets an arbitrary network.
-/

namespace Dexos.Minimmit

open Foundations

variable {C : Crypto}

/-! ## Released signatures -/

/-- The signatures an output hands to the network: signer index and digest. -/
def released : Output C → Set (Nat × C.Hash)
  | .effect (.broadcast (.propose p)) =>
    {(p.proposerIndex, p.notarizeDigest), (p.proposerIndex, p.authDigest)}
  | .effect (.broadcast (.notarize n)) => {(n.validatorIndex, n.digest)}
  | .effect (.broadcast (.nullify n)) => {(n.validatorIndex, n.digest)}
  | _ => ∅

def releasedBy (outputs : List (Output C)) : Set (Nat × C.Hash) :=
  {x | ∃ o ∈ outputs, x ∈ released o}

@[simp] theorem releasedBy_nil : releasedBy ([] : List (Output C)) = ∅ := by
  simp [releasedBy]

@[simp] theorem releasedBy_append (os os' : List (Output C)) :
    releasedBy (os ++ os') = releasedBy os ∪ releasedBy os' := by
  ext x
  simp [releasedBy, or_and_right, exists_or]

@[simp] theorem releasedBy_cons (o : Output C) (os : List (Output C)) :
    releasedBy (o :: os) = released o ∪ releasedBy os := by
  ext x
  simp [releasedBy]

/-- An output that is neither a vote nor a finality event. -/
def IsNote : Output C → Prop
  | .effect (.armTimer _) => True
  | .effect (.cancelTimer _) => True
  | .effect (.needProposal _) => True
  | .effect (.slash _) => True
  | .effect (.broadcast (.notarization _)) => True
  | .effect (.broadcast (.nullification _)) => True
  | _ => False

/-- Every signer of the certificate is known to have signed its message. -/
def Backed (A : Set (Nat × C.Hash)) (cert : Certificate C) : Prop :=
  ∀ i ∈ MinimmitCommittee.signers cert.signerBitmap, (i, cert.message) ∈ A

theorem Backed.mono {A A' : Set (Nat × C.Hash)} {cert : Certificate C} (h : Backed A cert)
    (sub : A ⊆ A') : Backed A' cert :=
  fun i hi => sub (h i hi)

/-- What the environment of a replica may do: the valid verdicts it gives and the
execution attestations it delivers, in a given state of the replica. -/
structure Policy (C : Crypto) where
  verdict : MinimmitReplica C → Nat → Propose C → Prop
  attest : MinimmitReplica C → ExecAttest C → Prop

/-- An unconstrained environment. -/
def Policy.any : Policy C := ⟨fun _ _ _ => True, fun _ _ => True⟩

namespace MinimmitReplica

/-! ## Derived state -/

/-- The state after one more vote in a tally. -/
def accepted (r : MinimmitReplica C) (kind : TallyKind) (view validatorIndex : Nat)
    (candidate : C.Hash) (signature : C.Signature) : MinimmitReplica C :=
  { r.setVotes kind ((r.votesOf kind).insert view
      ((r.tally kind view).add validatorIndex candidate signature)) with
    perValidator := r.perValidator.insert validatorIndex
      (satAdd ((r.perValidator.get? validatorIndex).getD 0) 1) }

/-- The state after an execution attestation entered its tally. -/
def attested (r : MinimmitReplica C) (a : ExecAttest C) : MinimmitReplica C :=
  let tally := (r.execTally a.height).add a.validatorIndex a.digest a.signature
  { r with execVotes := r.execVotes.insert a.height tally }

/-- The replica formed the certificate from the votes for the candidate in one of its
tallies. -/
inductive Forms (r : MinimmitReplica C) : Subject C → Tally C → C.Hash → Certificate C → Prop where
  | notarization (view : Nat) (block : C.Hash) (cert : Certificate C) :
      r.tryFormNotarization view block .advance = some cert →
      Forms r (.notarization view block) (r.tally .notarize view) block cert
  | nullification (view : Nat) (cert : Certificate C) :
      r.tryFormNullification view .advance = some cert →
      Forms r (.nullification view) (r.tally .nullify view) (nullifyDigest C r.epoch view) cert
  | execution (height : Nat) (digest : C.Hash) (cert : Certificate C) :
      (r.execTally height).tryForm r.committee digest digest .finalize = some cert →
      Forms r (.execution height digest) (r.execTally height) digest cert

/-- The tip has an `L`-notarization whose signatures are known. -/
def Certified (A : Set (Nat × C.Hash)) (committee : MinimmitCommittee C) (epoch view : Nat)
    (tip : C.Hash) : Prop :=
  ∃ cert, committee.verify cert .finalize = .ok () ∧
    cert.message = notarizeDigest epoch view tip ∧ Backed A cert

/-- Parent links through stored headers lead from the tip to the block. -/
inductive Reaches (blocks : OrdMap C.Hash (Nat × BlockHeader C)) (tip : C.Hash) :
    C.Hash → Prop where
  | refl : Reaches blocks tip tip
  | parent {block : C.Hash} {view : Nat} {header : BlockHeader C} :
      Reaches blocks tip block → blocks.get? block = some (view, header) →
      Reaches blocks tip header.parentHash

/-- A path entry `(height, view, block)` lies on the stored line below the tip. -/
def OnLine (blocks : OrdMap C.Hash (Nat × BlockHeader C)) (tip : C.Hash)
    (entry : Nat × Nat × C.Hash) : Prop :=
  Reaches blocks tip entry.2.2 ∧
    ∃ header, blocks.get? entry.2.2 = some (entry.2.1, header) ∧ header.height = entry.1

/-- The state after a block entered the chain as consensus-final. -/
def recorded (r : MinimmitReplica C) (height blockView : Nat) (block : C.Hash) :
    MinimmitReplica C :=
  { r with
    chain := r.chain.insert height block
    finality := r.finality.insert height (.consensusFinal blockView block) }

/-- One iteration of the finalization loop. -/
def extended (r : MinimmitReplica C) (height blockView : Nat) (block : C.Hash) :
    Response C :=
  (r.recorded height blockView block).tryCompleteFinality height

/-- The elementary moves of a replica. -/
inductive Leaf (P : Policy C) (A : Set (Nat × C.Hash)) (r : MinimmitReplica C) :
    List (Output C) → MinimmitReplica C → Prop where
  | note (os : List (Output C)) : (∀ o ∈ os, IsNote o) → Leaf P A r os r
  | redisseminate (views : OrdMap Nat Unit) : Leaf P A r [] { r with redisseminated := views }
  | form (subject : Subject C) (tally : Tally C) (candidate : C.Hash) (cert : Certificate C) :
      Forms r subject tally candidate cert → Leaf P A r [r.formation subject tally candidate cert] r
  | accept (kind : TallyKind) (view j : Nat) (candidate : C.Hash) (signature : C.Signature) :
      r.viewFloor ≤ view → r.halted.contains j = false → j < r.committee.len →
      (j, voteDigest kind r.epoch view candidate) ∈ A →
      (kind = .nullify → candidate = nullifyDigest C r.epoch view) →
      (r.perValidator.get? j).getD 0 < r.voteQuota →
      ((r.tally kind view).seen.contains j = true → ¬ (r.tally kind view).HasVote candidate j) →
      Leaf P A r [] (r.accepted kind view j candidate signature)
  | dropEmpty (kind : TallyKind) (view : Nat) : (r.tally kind view).isEmpty = true →
      Leaf P A r [] (r.setVotes kind ((r.votesOf kind).erase view))
  | halt (j : Nat) : Leaf P A r [] (r.halt j)
  | timeout (signer : C.KeyPair) :
      r.signer = some signer → r.notarized = none → r.nullified = false →
      Leaf P A r [.effect (.broadcast (.nullify (r.nullifyVote signer r.view)))]
        { r with nullified := true }
  | contradict (signer : C.KeyPair) (ours : C.Hash) :
      r.signer = some signer → r.notarized = some ours → r.nullified = false →
      r.committee.advanceThreshold ≤ setWeight r.committee (r.contradictors r.view ours).keys →
      Leaf P A r [.effect (.broadcast (.nullify (r.nullifyVote signer r.view)))]
        { r with nullified := true }
  | dismiss (view : Nat) :
      Leaf P A r [] { r with pendingProposals := r.pendingProposals.erase view }
  | learn (view : Nat) (p : Propose C) :
      r.pendingProposals.get? view = some p → P.verdict r view p → Leaf P A r [] (r.learned view p)
  | cast (p : Propose C) (signature : C.Signature) :
      r.pendingProposals.get? r.view = some p → P.verdict r r.view p →
      r.notarized = none → r.nullified = false → r.validParent r.view p.parent = true → Leaf P A r
        [.effect (.broadcast (if p.proposerIndex = r.selfIndex then .propose p
            else .notarize ⟨r.epoch, r.view, p.blockHash, r.selfIndex, signature⟩))]
        { r.learned r.view p with notarized := some p.blockHash }
  | buffer (p : Propose C) : p.epoch = r.epoch → p.view ≠ bottomView → p.view ≤ r.view →
      p.proposerIndex = r.committee.leader p.view → p.proposerIndex < r.committee.len →
      p.block.hash = p.blockHash → p.block.parentHash = p.parent.parentHash →
      ((p.proposerIndex, p.notarizeDigest) ∈ A ∨ p.proposerIndex = r.selfIndex) →
      r.seenProposals.get? p.view = none → Leaf P A r [] (r.bufferProposal p)
  | drop (n : Notarization C) : n.epoch = r.epoch → n.verify r.committee = .ok () →
      r.proofConflicts n.view n.blockHash = true → r.isFinalizeCert n.cert = true →
      Backed A n.cert → Leaf P A r [.dropped n] r
  | storeNotarization (n : Notarization C) (formedHere : Bool) :
      n.epoch = r.epoch → n.verify r.committee = .ok () →
      r.proofConflicts n.view n.blockHash = false → Backed A n.cert →
      Leaf P A r [] (r.storeNotarization n formedHere)
  | storeNullification (n : Nullification C) (views : OrdMap Nat Unit) :
      n.epoch = r.epoch → n.verify r.committee = .ok () → r.proofs.get? n.view = none →
      Backed A n.cert → Leaf P A r []
        { r with proofs := r.proofs.insert n.view (.nullification n), redisseminated := views }
  | enter (next : Nat) : r.view < next →
      Leaf P A r [] { r with view := next, notarized := none, nullified := false }
  | extend (view : Nat) (tip : C.Hash) (entry : Nat × Nat × C.Hash) :
      Certified A r.committee r.epoch view tip → OnLine r.blocks tip entry →
      r.finality.get? entry.1 = none → (r.chain.get? entry.1).any (· ≠ entry.2.2) = false →
      Leaf P A r
        (.effect (.consensusFinal entry.2.2 entry.1) :: (r.extended entry.1 entry.2.1 entry.2.2).2)
        (r.extended entry.1 entry.2.1 entry.2.2).1
  | extendSilently (view : Nat) (tip : C.Hash) (entry : Nat × Nat × C.Hash)
      (rest : List (Nat × Nat × C.Hash)) :
      Certified A r.committee r.epoch view tip → (∀ e ∈ entry :: rest, OnLine r.blocks tip e) →
      r.finality.get? entry.1 = none → (r.chain.get? entry.1).any (· ≠ entry.2.2) = false →
      (r.extendChain (entry :: rest) []).2 = none →
      Leaf P A r [] (r.extended entry.1 entry.2.1 entry.2.2).1
  | settle (view : Nat) (tip : C.Hash) : Certified A r.committee r.epoch view tip →
      Leaf P A r [] ({ r with finalizedTip := (view, tip) }.prune (view - defaultViewHorizon))
  | attest (a : ExecAttest C) (header : BlockHeader C) :
      P.attest r a → a.epoch = r.epoch → a.verify r.committee = .ok () →
      (a.validatorIndex, a.digest) ∈ A →
      r.blocks.get? a.blockHash = some (a.view, header) → header.height = a.height →
      ¬ (r.execTally a.height).Conflicts a.digest a.validatorIndex → Leaf P A r [] (r.attested a)
  | park (a : ExecAttest C) (header : BlockHeader C) (cert : Certificate C) :
      a.epoch = r.epoch → r.blocks.get? a.blockHash = some (a.view, header) →
      header.height = a.height →
      (r.execTally a.height).tryForm r.committee a.digest a.digest .finalize = some cert →
      r.committee.verify cert .finalize = .ok () →
      Leaf P A r [] (r.parkCertificate a.height a.executionRoot cert)
  | complete (height : Nat) :
      Leaf P A r (r.tryCompleteFinality height).2 (r.tryCompleteFinality height).1

/-- A move of the replica together with the known signatures. -/
def Move (P : Policy C) (s : MinimmitReplica C × Set (Nat × C.Hash)) (os : List (Output C))
    (s' : MinimmitReplica C × Set (Nat × C.Hash)) : Prop :=
  Leaf P s.2 s.1 os s'.1 ∧ s'.2 = s.2 ∪ releasedBy os

/-- A reaction is a sequence of moves. -/
def Performs (P : Policy C) (A : Set (Nat × C.Hash)) (r : MinimmitReplica C)
    (x : Response C) : Prop :=
  Moves (Move P) (r, A) x.2 (x.1, A ∪ releasedBy x.2)

namespace Performs

variable {P : Policy C} {A : Set (Nat × C.Hash)} {r r' : MinimmitReplica C}
  {os : List (Output C)} {x : Response C}

theorem idle : Performs P A r (.idle r) := by
  simpa [Performs] using Moves.refl (r, A)

theorem leaf (h : Leaf P A r os r') : Performs P A r (r', os) :=
  Moves.single ⟨h, rfl⟩

theorem trans {y : Response C} (first : Performs P A r x)
    (second : Performs P (A ∪ releasedBy x.2) x.1 y) : Performs P A r (y.1, x.2 ++ y.2) := by
  have := Moves.trans first second
  simpa [Performs, Set.union_assoc] using this

theorem andThen {f : MinimmitReplica C → Response C}
    (first : Performs P A r x) (second : Performs P (A ∪ releasedBy x.2) x.1 (f x.1)) :
    Performs P A r (x.andThen f) :=
  first.trans second

/-- Follow a silent move. -/
theorem after (first : Leaf P A r [] r') (second : Performs P A r' x) : Performs P A r x := by
  have := (leaf first).trans (y := x) (by simpa using second)
  simpa using this

end Performs

end MinimmitReplica

end Dexos.Minimmit
