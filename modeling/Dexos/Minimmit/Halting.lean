import Dexos.Minimmit.VoteOnce

/-!
# Halted validators

A halted validator has no vote in any tally, so the certificates a replica forms leave
it out. Execution attestations are the exception: the source admits them without looking
at the halted set, and the statement holds for runs in which no halted validator's
attestation is admitted.
-/

namespace Dexos.Minimmit

open Foundations List MinimmitCommittee Reaction

variable {C : Crypto}

namespace MinimmitReplica

variable {P : Policy C} {A : Set (Nat × C.Hash)} {r r' : MinimmitReplica C}
  {os : List (Output C)} {hist : List (Output C)} {committee : MinimmitCommittee C} {i : Nat}

/-- The attestation passes the checks of `on_exec_attest` and the height's tally accepts it. -/
def AttestAdmitted (r : MinimmitReplica C) (a : ExecAttest C) : Prop :=
  a.epoch = r.epoch ∧ a.verify r.committee = .ok () ∧
    (∃ header, r.blocks.get? a.blockHash = some (a.view, header) ∧ header.height = a.height) ∧
    ((r.execTally a.height).admitSigned a.validatorIndex a.digest a.signature true).2 =
    .ok .accepted

/-- No attestation of a halted validator is admitted. -/
def Policy.noHaltedAttest : Policy C where
  verdict _ _ _ := True
  attest r a := AttestAdmitted r a → r.halted.contains a.validatorIndex = false

/-- Halted validators have no vote in any tally. -/
structure HaltedSilent (r : MinimmitReplica C) : Prop where
  votes : ∀ i, r.halted.contains i = true → ∀ kind view candidate,
    ¬ (r.tally kind view).HasVote candidate i
  execs : ∀ i, r.halted.contains i = true → ∀ height digest, ¬ (r.execTally height).HasVote digest i

/-- A formed certificate leaves out a validator: its bit is clear, and its weight is not
part of the weight that was compared with the threshold. -/
def Formation.LeavesOut (committee : MinimmitCommittee C) (f : Formation C) (i : Nat) : Prop :=
  f.cert.signerBitmap.getLsbD i = false ∧ f.weight = some (committee.weightOf
      ((signers f.cert.signerBitmap).erase i))

/-- Every formed certificate leaves out the validators halted when it was formed. -/
def LeavesOutHalted (committee : MinimmitCommittee C) (outputs : List (Output C)) : Prop :=
  ∀ f ∈ formations outputs, ∀ i, f.halted.contains i = true → Formation.LeavesOut committee f i

theorem HaltedSilent.leaf (h : HaltedSilent r) (move : Leaf Policy.noHaltedAttest A r os r') :
    HaltedSilent r' := by
  refine ⟨fun i hi kind view candidate hv => ?_, fun i hi height digest hv => ?_⟩
  · rcases move.hasVote hv with ⟨old, before⟩ | ⟨live, -⟩
    · exact h.votes i (before hi) kind view candidate old
    · exact absurd (hi.symm.trans live) (by decide)
  · rcases move.hasExecVote hv with
      ⟨old, before⟩ | ⟨-, same, a, header, rfl, policy, epoch, verified, block, high, fresh⟩
    · exact h.execs i (before hi) height digest old
    · -- A halted validator has no vote in the tally, so the tally would accept this one.
      rw [same] at hi
      have accepted := Tally.admitSigned_accepted a.signature fresh (h.execs _ hi _ _)
      simp [policy ⟨epoch, verified, ⟨header, block, high⟩, accepted⟩] at hi

/-- A certificate formed while halted validators are silent leaves them out. -/
theorem HaltedSilent.forms (h : HaltedSilent r) {subject : Subject C} {tally : Tally C}
    {candidate : C.Hash} {cert : Certificate C} (formed : Forms r subject tally candidate cert)
    (hi : r.halted.contains i = true) :
    cert.signerBitmap.getLsbD i = false ∧
      Tally.signerWeight r.committee (tally.votesFor candidate).entries 0 =
        some (r.committee.weightOf ((MinimmitCommittee.signers cert.signerBitmap).erase i)) := by
  have spec : ∃ message kind, tally.tryForm r.committee candidate message kind = some cert ∧
      ¬ tally.HasVote candidate i := by
    cases formed with
    | notarization view _ _ hform =>
      exact ⟨_, _, forms_of_bind hform, h.votes i hi .notarize view _⟩
    | nullification view _ hform => exact ⟨_, _, forms_of_bind hform, h.votes i hi .nullify view _⟩
    | execution height _ _ hform => exact ⟨_, _, hform, h.execs i hi height _⟩
  obtain ⟨message, kind, hform, absent⟩ := spec
  obtain ⟨-, signers, weight, -⟩ := Tally.tryForm_some hform
  have out : i ∉ MinimmitCommittee.signers cert.signerBitmap := by rwa [signers, Tally.mem_voters]
  refine ⟨Bool.eq_false_iff.2 fun bit => out (mem_signers.2 bit), ?_⟩
  rw [weight, Finset.erase_eq_of_notMem out, signers]

theorem Leaf.formed_mem (move : Leaf P A r os r') {f : Formation C} (hf : .formed f ∈ os) :
    ∃ subject tally candidate cert, Forms r subject tally candidate cert ∧
      .formed f = r.formation subject tally candidate cert := by
  have completing : ∀ (s : MinimmitReplica C) (height : Nat),
      .formed f ∉ (s.tryCompleteFinality height).2 := by
    intro s height mem
    obtain ⟨block, eq⟩ := s.complete_outputs height _ mem
    cases eq
  cases move with
  | note os notes => exact (notes _ hf).elim
  | form subject tally candidate cert forms =>
    exact ⟨subject, tally, candidate, cert, forms, mem_singleton.1 hf⟩
  | extend view tip entry =>
    rcases mem_cons.1 hf with absurd_ | hf
    · cases absurd_
    · exact absurd hf (completing _ _)
  | complete height => exact absurd hf (completing _ _)
  | timeout | contradict | cast | drop => simp at hf
  | _ => cases hf

theorem Leaf.halted_mono (move : Leaf P A r os r') (hi : r.halted.contains i = true) :
    r'.halted.contains i = true := by
  cases move with
  | halt j =>
    rw [OrdMap.contains_iff] at hi ⊢
    simp only [MinimmitReplica.halt, OrdMap.get?_insert]
    split_ifs
    · exact ⟨_, rfl⟩
    · exact hi
  | extend view tip entry | extendSilently view tip entry => rwa [extended_frame]
  | complete height => rwa [complete_frame]
  | park a header cert => rwa [park_frame]
  | _ => exact hi

/-! ## Runs within one epoch -/

/-- The state a constructor of the source returns. -/
inductive Booted : MinimmitReplica C → Prop where
  | readOnly {committee : MinimmitCommittee C} {selfIndex epoch : Nat} {genesisHash : C.Hash}
      {r : MinimmitReplica C} {out : List (Output C)} :
      new committee selfIndex genesisHash epoch = .ok (r, out) → Booted r
  | voting {committee : MinimmitCommittee C} {selfIndex epoch : Nat} {genesisHash : C.Hash}
      {signer : C.KeyPair} {r : MinimmitReplica C} {out : List (Output C)} :
      newWithSigner committee selfIndex genesisHash epoch signer = .ok (r, out) → Booted r

theorem Booted.eq_initial (h : Booted r) : ∃ committee selfIndex genesisHash epoch signer,
    r = initial committee selfIndex genesisHash epoch signer := by
  cases h with
  | readOnly boot =>
    unfold new at boot
    split_ifs at boot
    cases boot
    exact ⟨_, _, _, _, _, rfl⟩
  | voting boot => exact ⟨_, _, _, _, _, (newWithSigner_ok boot).2.2.1⟩

theorem Booted.ready (h : Booted r) : Ready A r := by
  obtain ⟨_, _, _, _, _, rfl⟩ := h.eq_initial
  exact ready_of_empty rfl rfl rfl rfl rfl

/-- No step of the run admits an attestation of a validator halted at that time. -/
def NoHaltedAttest (r : MinimmitReplica C) : List (Input C) → Prop
  | [] => True
  | input :: rest =>
    (∀ a, input = .message (.execAttest a) → AttestAdmitted r a →
      r.halted.contains a.validatorIndex = false) ∧ NoHaltedAttest (r.step input).1 rest

/-- What a run keeps about halted validators. -/
structure HaltedRun (committee : MinimmitCommittee C) (r : MinimmitReplica C)
    (outputs : List (Output C)) : Prop where
  committee_eq : r.committee = committee
  ready : Ready Set.univ r
  silent : HaltedSilent r
  formed : LeavesOutHalted committee outputs

theorem HaltedRun.leaf (h : HaltedRun committee r hist)
    (move : Leaf Policy.noHaltedAttest Set.univ r os r') :
    HaltedRun committee r' (hist ++ os) where
  committee_eq := move.sameIdentity.committee.trans h.committee_eq
  ready := by
    have := move.ready h.ready
    rwa [Set.univ_union] at this
  silent := h.silent.leaf move
  formed f hf i hi := by
    rcases mem_append.1 (mem_formations.1 hf) with old | new
    · exact h.formed f (mem_formations.2 old) i hi
    · obtain ⟨subject, tally, candidate, cert, forms, eq⟩ := move.formed_mem new
      cases eq
      rw [← h.committee_eq]
      exact h.silent.forms forms hi

theorem step_performs_noHaltedAttest (ready : Ready Set.univ r) {input : Input C}
    (polite : ∀ a, input = .message (.execAttest a) → AttestAdmitted r a →
      r.halted.contains a.validatorIndex = false) :
    Performs Policy.noHaltedAttest Set.univ r (r.step input) := by
  refine step_performs ready ?_
  have any := admissible_any r input
  cases input with
  | message m => exact ⟨any.1, fun a ha => polite a (by rw [ha])⟩
  | timerFired view => trivial
  | tick => trivial
  | proposalVerified view blockHash valid => exact fun _ _ _ _ => trivial

theorem HaltedRun.afterStep (h : HaltedRun committee r hist) {input : Input C}
    (polite : ∀ a, input = .message (.execAttest a) → AttestAdmitted r a →
      r.halted.contains a.validatorIndex = false) :
    HaltedRun committee (r.step input).1 (hist ++ (r.step input).2) :=
  (Moves.history (P := fun s hist => s.2 = Set.univ ∧ HaltedRun committee s.1 hist)
    (fun s hist os s' hs move => by
      obtain ⟨all, run⟩ := hs
      refine ⟨by rw [move.2, all, Set.univ_union], ?_⟩
      have leaf := move.1
      rw [all] at leaf
      exact run.leaf leaf) ⟨rfl, h⟩ (step_performs_noHaltedAttest h.ready polite)).2

theorem HaltedRun.run (h : HaltedRun committee r hist) {inputs : List (Input C)}
    (polite : NoHaltedAttest r inputs) :
    LeavesOutHalted committee (hist ++ (run step r inputs).2) := by
  induction inputs generalizing r hist with
  | nil => simpa [run] using h.formed
  | cons input rest ih =>
    have := ih (h.afterStep polite.1) polite.2
    simpa [run, append_assoc] using this

variable (ready : Ready Set.univ r)
include ready

/-- The halted set grows along a step, and every certificate of the step is formed under
a halted set that contains the one before it. -/
theorem step_halted_mono (input : Input C) (hi : r.halted.contains i = true) :
    (r.step input).1.halted.contains i = true ∧
      ∀ f ∈ formations (r.step input).2, f.halted.contains i = true := by
  have moves := step_performs_any ready input
  have start : r.halted.contains i = true ∧
      ∀ f ∈ formations ([] : List (Output C)), f.halted.contains i = true :=
    ⟨hi, by simp [formations]⟩
  have kept := Moves.history
    (P := fun s hist => s.1.halted.contains i = true ∧
      ∀ f ∈ formations hist, f.halted.contains i = true)
    (fun s hist os s' hs move => by
      refine ⟨move.1.halted_mono hs.1, fun f hf => ?_⟩
      rcases mem_append.1 (mem_formations.1 hf) with old | new
      · exact hs.2 f (mem_formations.2 old)
      · obtain ⟨subject, tally, candidate, cert, -, eq⟩ := move.1.formed_mem new
        cases eq
        exact hs.1) start moves
  simpa using kept

theorem run_halted_mono (inputs : List (Input C)) (hi : r.halted.contains i = true) :
    ∀ f ∈ formations (run step r inputs).2, f.halted.contains i = true := by
  induction inputs generalizing r with
  | nil =>
    intro f hf
    cases hf
  | cons input rest ih =>
    obtain ⟨next, formed⟩ := step_halted_mono ready input hi
    intro f hf
    rcases mem_append.1 (mem_formations.1 hf) with now | later
    · exact formed f (mem_formations.2 now)
    · exact ih (ready_call ready (.step input)) next f (mem_formations.2 later)

theorem run_ready (inputs : List (Input C)) : Ready Set.univ (run step r inputs).1 := by
  induction inputs generalizing r with
  | nil => exact ready
  | cons input rest ih => exact ih (ready_call ready (.step input))

omit ready

/-- In every run within one epoch that admits no attestation of a halted validator, each
certificate the replica forms leaves out every validator halted at that time, and in
particular every validator that was in `halted` after an earlier step. -/
theorem formed_leavesOut_halted (boot : Booted r) (inputs : List (Input C))
    (polite : NoHaltedAttest r inputs) :
    LeavesOutHalted r.committee (run step r inputs).2 ∧ ∀ before after, inputs = before ++ after →
        ∀ i, (run step r before).1.halted.contains i = true →
          ∀ f ∈ formations (run step (run step r before).1 after).2,
            f.halted.contains i = true ∧ Formation.LeavesOut r.committee f i := by
  have silent : HaltedSilent r := by
    obtain ⟨_, _, _, _, _, rfl⟩ := boot.eq_initial
    exact ⟨fun i hi => by simp [initial, OrdMap.contains] at hi,
      fun i hi => by simp [initial, OrdMap.contains] at hi⟩
  have start : HaltedRun r.committee r [] :=
      ⟨rfl, boot.ready, silent, by simp [LeavesOutHalted, formations]⟩
  have all : LeavesOutHalted r.committee (run step r inputs).2 := by simpa using start.run polite
  refine ⟨all, fun before after split i hi f hf => ?_⟩
  have still := run_halted_mono (run_ready boot.ready before) after hi f hf
  refine ⟨still, all f ?_ i still⟩
  rw [split, run_append, mem_formations]
  exact mem_append_right _ (mem_formations.1 hf)

/-- A notarize vote of validator 1 of the pair. -/
def strayNotarize (view block : Nat) : Input ideal :=
  .message (.notarize ⟨0, view, block, 1, (1, notarizeDigest (C := ideal) 0 view block)⟩)

/-- Validator 1 notarizes two blocks in view 0 and is halted; then view 1 times out. -/
def equivocationRun : List (Input ideal) :=
  [strayNotarize 0 7, strayNotarize 0 8, .timerFired 1]

theorem formed_leavesOut_equivocator :
    ∃ r : MinimmitReplica ideal, Booted r ∧
      (run step r (equivocationRun.take 2)).1.halted.contains 1 = true ∧
      (∃ f ∈ formations (run step r equivocationRun).2, f.halted.contains 1 = true) ∧
      LeavesOutHalted r.committee (run step r equivocationRun).2 := by
  obtain ⟨⟨r, out⟩, boot, halted, formed⟩ := exists_bootDuo 0
    (p := fun x => (run step x.1 (equivocationRun.take 2)).1.halted.contains 1 = true ∧
      ∃ f ∈ formations (run step x.1 equivocationRun).2, f.halted.contains 1 = true)
    (by decide +kernel)
  obtain ⟨committee, -, built⟩ := bootDuo_ok boot
  have polite : NoHaltedAttest r equivocationRun :=
    ⟨fun a h => (by cases h), fun a h => (by cases h), fun a h => (by cases h), trivial⟩
  exact ⟨r, .voting built, halted, formed,
    (formed_leavesOut_halted (.voting built) equivocationRun polite).1⟩

/-- The first block on genesis, proposed by validator 0 in view 0. -/
def firstBlock : BlockHeader ideal := ⟨1, (0 : Nat), (0 : Nat)⟩

def firstProposal : Propose ideal where
  epoch := 0
  view := 0
  block := firstBlock
  blockHash := firstBlock.hash
  parent := ParentRef.genesis (0 : Nat)
  proposerIndex := 0
  notarizeSig := ((0 : Nat), notarizeDigest (C := ideal) 0 0 firstBlock.hash)
  proposeSig := ((0 : Nat), proposeAuth (C := ideal) 0 0 firstBlock.hash (0 : Nat) bottomView)

/-- An attestation of the first block by one validator of the pair. -/
def attestFirst (validator root : Nat) : Input ideal :=
  .message (.execAttest ⟨0, 0, 1, firstBlock.hash, root, validator,
    (validator, executionCommitmentDigest (C := ideal) 0 0 1 firstBlock.hash root)⟩)

/-- Validator 1 attests two roots and is halted, then repeats its first attestation. -/
def haltedAttestRun : List (Input ideal) :=
  [.message (.propose firstProposal), .proposalVerified 0 firstBlock.hash true,
    attestFirst 1 5, attestFirst 1 6, attestFirst 1 5, attestFirst 0 5]

/-- The repeated attestation of the halted validator is admitted again: the execution
certificate formed afterwards has its bit set, and the weight compared with the threshold
is that of both validators. -/
theorem formed_with_halted_attester :
    ∃ r : MinimmitReplica ideal, Booted r ∧
      (run step r (haltedAttestRun.take 4)).1.halted.contains 1 = true ∧
      ∃ f ∈ formations (run step (run step r (haltedAttestRun.take 4)).1
          (haltedAttestRun.drop 4)).2,
        f.halted.contains 1 = true ∧ f.cert.signerBitmap.getLsbD 1 = true ∧ f.weight = some 2 := by
  obtain ⟨⟨r, out⟩, boot, halted, formed⟩ := exists_bootDuo 0
    (p := fun x => (run step x.1 (haltedAttestRun.take 4)).1.halted.contains 1 = true ∧
      ∃ f ∈ formations (run step (run step x.1 (haltedAttestRun.take 4)).1
          (haltedAttestRun.drop 4)).2,
        f.halted.contains 1 = true ∧ f.cert.signerBitmap.getLsbD 1 = true ∧ f.weight = some 2)
    (by decide +kernel)
  obtain ⟨committee, -, built⟩ := bootDuo_ok boot
  exact ⟨r, .voting built, halted, formed⟩

end MinimmitReplica

end Dexos.Minimmit
