import Dexos.Minimmit.Halting
import Dexos.Minimmit.Network

/-!
# Scripted runs of the network

Concrete runs are given as lists of inputs for one replica at a time. `playable` decides,
by evaluation, that each input may be delivered when a known list of signatures exists,
and `Shows.run` turns it into a run of the network.
-/

namespace Dexos.Minimmit

open Foundations MinimmitReplica List Option MinimmitCommittee

variable {C : Crypto}

/-- The signatures a message carries: signer index and digest. -/
def carried : ConsensusMessage C → List (Nat × C.Hash)
  | .propose p => [(p.proposerIndex, p.notarizeDigest)]
  | .notarize n => [(n.validatorIndex, n.digest)]
  | .nullify n => [(n.validatorIndex, n.digest)]
  | .notarization n => (signerIndices n.cert.signerBitmap).map (·, n.cert.message)
  | .nullification n => (signerIndices n.cert.signerBitmap).map (·, n.cert.message)
  | .execAttest a => [(a.validatorIndex, a.digest)]

/-- The vote signatures an output hands out. -/
def releasedVotes : Output C → List (Nat × C.Hash)
  | .effect (.broadcast (.propose p)) => [(p.proposerIndex, p.notarizeDigest)]
  | .effect (.broadcast (.notarize n)) => [(n.validatorIndex, n.digest)]
  | .effect (.broadcast (.nullify n)) => [(n.validatorIndex, n.digest)]
  | _ => []

theorem mem_releasedBy {os : List (Output C)} {x : Nat × C.Hash}
    (h : x ∈ os.flatMap releasedVotes) : x ∈ releasedBy os := by
  obtain ⟨o, ho, hx⟩ := mem_flatMap.1 h
  refine ⟨o, ho, ?_⟩
  revert hx
  unfold releasedVotes released
  split <;> simp +contextual

variable (accept : MinimmitReplica C → Nat → Propose C → Bool) (known : List (Nat × C.Hash))

/-- The input may be delivered when the known signatures exist and the node accepts as
given. -/
def playable (r : MinimmitReplica C) : Input C → Bool
  | .message m => (carried m).all fun x => decide (x ∈ known) ||
      match m with
      | .propose p => decide (p.proposerIndex = r.selfIndex)
      | _ => false
  | .timerFired _ => true
  | .tick => true
  | .proposalVerified view blockHash valid =>
    match r.pendingProposals.get? view with
    | none => true
    | some p => !valid || decide (p.blockHash ≠ blockHash) || accept r view p

variable {accept known} {K : Conduct C} {A : Set (Nat × C.Hash)} {r : MinimmitReplica C}

theorem authentic_of_carried {m : ConsensusMessage C}
    (h : ∀ x ∈ carried m, x ∈ A ∨ ∃ p, m = .propose p ∧ p.proposerIndex = r.selfIndex) :
    Authentic A r m := by
  have backed : ∀ {cert : Certificate C},
      (∀ x ∈ (signerIndices cert.signerBitmap).map (·, cert.message), x ∈ A) →
      Backed A cert := by
    intro cert all i hi
    exact all _ (mem_map_of_mem (mem_toFinset.1 hi))
  cases m with
  | propose p =>
    intro key _ _
    refine (h _ (mem_singleton.2 rfl)).imp_right ?_
    rintro ⟨p', same, own⟩
    cases same
    exact own
  | notarize n | nullify n => exact fun _ _ _ => (h _ (mem_singleton.2 rfl)).resolve_right (by simp)
  | notarization n | nullification n =>
    exact fun _ => backed fun x hx => (h x hx).resolve_right (by simp)
  | execAttest a => exact fun _ => (h _ (mem_singleton.2 rfl)).resolve_right (by simp)

theorem admissible_of_playable (verdicts : ∀ r view p, accept r view p = true → K.verdict r view p)
    (attests : ∀ r a, K.attest r a) (signed : ∀ x ∈ known, x ∈ A) {input : Input C}
    (h : playable accept known r input = true) : Admissible K.toPolicy A r input := by
  cases input with
  | timerFired view => trivial
  | tick => trivial
  | message m =>
    refine ⟨authentic_of_carried fun x hx => ?_, fun a _ => attests r a⟩
    have allowed := all_eq_true.1 h x hx
    rcases Bool.or_eq_true_iff.1 allowed with known | own
    · exact .inl (signed x (of_decide_eq_true known))
    · right
      split at own
      · rename_i p
        exact ⟨p, rfl, of_decide_eq_true own⟩
      · cases own
  | proposalVerified view blockHash valid =>
    intro accepted p pending same
    simp only [playable, pending, accepted, same] at h
    exact verdicts r view p (by simpa using h)

/-! ## Scripts -/

/-- An event of a script: an input for a replica, or an attestation its node signs. -/
inductive Event (C : Crypto) where
  | deliver (i : Nat) (input : Input C)
  | attest (i : Nat) (a : ExecAttest C)

/-- The replicas with their outputs, and signatures that exist. -/
structure Bench (C : Crypto) where
  replicas : List (MinimmitReplica C × List (Output C))
  known : List (Nat × C.Hash)

namespace Bench

variable (accept : MinimmitReplica C → Nat → Propose C → Bool)
  (signs : List (Output C) → ExecAttest C → Bool)

/-- One event, if it may happen. -/
def apply (bench : Bench C) : Event C → Option (Bench C)
  | .deliver i input => bench.replicas[i]?.bind fun (r, out) =>
    if playable accept bench.known r input then
      let reaction := r.step input
      some ⟨bench.replicas.set i (reaction.1, out ++ reaction.2),
        bench.known ++ reaction.2.flatMap releasedVotes⟩
    else none
  | .attest i a => bench.replicas[i]?.bind fun (_, out) =>
    if signs out a then some { bench with known := bench.known ++ [(i, a.digest)] } else none

def run (bench : Bench C) : List (Event C) → Option (Bench C)
  | [] => some bench
  | event :: rest => (bench.apply accept signs event).bind fun next => next.run rest

/-- The bench shows the replicas of the network and some of its signatures. -/
structure Shows (d : Deployment C) (bench : Bench C) (net : Net C) : Prop where
  correct : ∀ i, i < bench.replicas.length → i ∈ d.correct
  replicas : ∀ i x, bench.replicas[i]? = some x → (net.replicas i, net.outputs i) = x
  signed : ∀ x ∈ bench.known, x ∈ net.signed

/-- A test of one replica and its outputs. -/
def holds (bench : Bench C) (i : Nat) (test : MinimmitReplica C → List (Output C) → Bool) : Bool :=
  (bench.replicas[i]?).any fun x => test x.1 x.2

variable {accept signs} {d : Deployment C} {bench bench' : Bench C} {net : Net C}

theorem Shows.holds (h : Shows d bench net) {i : Nat}
    {test : MinimmitReplica C → List (Output C) → Bool} (passed : bench.holds i test = true) :
    test (net.replicas i) (net.outputs i) = true := by
  obtain ⟨x, found, here⟩ := (any_eq_true _ _).1 passed
  rwa [← h.replicas i x found] at here

variable (free : C.CollisionFree)
  (verdicts : ∀ r view p, accept r view p = true → K.verdict r view p)
  (attests : ∀ r a, K.attest r a) (signing : ∀ out a, signs out a = true → K.signs out a.digest)
  (h : Shows d bench net)
include free verdicts attests signing h

theorem Shows.apply {event : Event C} (applied : bench.apply accept signs event = some bench') :
    ∃ net', d.Step K net net' ∧ Shows d bench' net' := by
  cases event with
  | deliver i input =>
    obtain ⟨⟨r, out⟩, found, made⟩ := bind_eq_some_iff.1 applied
    simp only at made
    split_ifs at made with playable
    cases made
    have index : i < bench.replicas.length := (List.getElem?_eq_some_iff.1 found).1
    obtain ⟨rfl, rfl⟩ := Prod.mk.inj (h.replicas i _ found)
    refine ⟨_, .deliver i input (h.correct i index)
      (admissible_of_playable verdicts attests h.signed playable), ?_, ?_, ?_⟩
    · intro j hj
      exact h.correct j (by simpa using hj)
    · intro j x hx
      by_cases same : i = j
      · subst same
        rw [getElem?_set_self index] at hx
        cases hx
        rw [(net.deliver_self i input).1, (net.deliver_self i input).2]
      · rw [getElem?_set_ne same] at hx
        rw [(net.deliver_other (Ne.symm same) input).1, (net.deliver_other (Ne.symm same) input).2]
        exact h.replicas j x hx
    · intro x hx
      rcases mem_append.1 hx with old | new
      · exact .inl (h.signed x old)
      · exact .inr (mem_releasedBy new)
  | attest i a =>
    obtain ⟨⟨r, out⟩, found, made⟩ := bind_eq_some_iff.1 applied
    simp only at made
    split_ifs at made with signed
    cases made
    have index : i < bench.replicas.length := (List.getElem?_eq_some_iff.1 found).1
    obtain ⟨-, rfl⟩ := Prod.mk.inj (h.replicas i _ found)
    refine ⟨_, .sign i a.digest (h.correct i index) (noVote_execDigest free a)
      (signing _ a signed), h.correct, h.replicas, ?_⟩
    exact forall_mem_snoc.2 ⟨fun x old => .inl (h.signed x old), .inr rfl⟩

theorem Shows.run {events : List (Event C)} (played : bench.run accept signs events = some bench') :
    ∃ net', d.Leads K net net' ∧ Shows d bench' net' := by
  induction events generalizing bench net with
  | nil =>
    cases played
    exact ⟨net, .refl, h⟩
  | cons event rest ih =>
    obtain ⟨next, applied, played⟩ := bind_eq_some_iff.1 played
    obtain ⟨mid, step, shows_⟩ := h.apply free verdicts attests signing applied
    obtain ⟨net', leads, shows'⟩ := ih shows_ played
    exact ⟨net', .head step leads, shows'⟩

end Bench

/-! ## A network of two validators -/

/-- A script of the pair, run from both freshly booted replicas. -/
def duoRun (accept : MinimmitReplica ideal → Nat → Propose ideal → Bool)
    (signs : List (Output ideal) → ExecAttest ideal → Bool) (events : List (Event ideal)) :
    Option (Bench ideal) :=
  (bootDuo 0).toOption.bind fun x => (bootDuo 1).toOption.bind fun y =>
    if x.1.committee.len = 2 then Bench.run accept signs ⟨[x, y], []⟩ events else none

theorem duoRun_some {accept : MinimmitReplica ideal → Nat → Propose ideal → Bool}
    {signs : List (Output ideal) → ExecAttest ideal → Bool} {events : List (Event ideal)}
    {bench : Bench ideal} (h : duoRun accept signs events = some bench) :
    ∃ x y, bootDuo 0 = .ok x ∧ bootDuo 1 = .ok y ∧ x.1.committee.len = 2 ∧
      Bench.run accept signs ⟨[x, y], []⟩ events = some bench := by
  obtain ⟨x, hx, h⟩ := bind_eq_some_iff.1 h
  obtain ⟨y, hy, h⟩ := bind_eq_some_iff.1 h
  split_ifs at h with len
  exact ⟨x, y, of_toOption hx, of_toOption hy, len, h⟩

/-- A script of the pair that plays is a run of a network in which both are correct. -/
theorem exists_duoRun (accept : MinimmitReplica ideal → Nat → Propose ideal → Bool)
    (signs : List (Output ideal) → ExecAttest ideal → Bool) (events : List (Event ideal))
    {K : Conduct ideal} (verdicts : ∀ r view p, accept r view p = true → K.verdict r view p)
    (attests : ∀ r a, K.attest r a) (signing : ∀ out a, signs out a = true → K.signs out a.digest)
    {q : Bench ideal → Bool} (played : (duoRun accept signs events).any q = true) :
    ∃ (d : Deployment ideal) (net : Net ideal) (bench : Bench ideal), d.epoch = 0 ∧
      d.genesisHash = (0 : Nat) ∧ d.correct = {0, 1} ∧ d.Reachable K net ∧
      bench.Shows d net ∧ q bench = true := by
  cases result : duoRun accept signs events with
  | none =>
    rw [result] at played
    cases played
  | some bench =>
    rw [result] at played
    obtain ⟨x, y, hx, hy, len, run⟩ := duoRun_some result
    obtain ⟨committee, unit, bootX⟩ := bootDuo_ok hx
    obtain ⟨committee', unit', bootY⟩ := bootDuo_ok hy
    obtain rfl : committee = committee' := Except.ok.inj (unit.symm.trans unit')
    rw [(newWithSigner_ok bootX).2.2.1] at len
    change committee.len = 2 at len
    have faulty : committee.weightOf (Finset.range committee.len \ {0, 1}) ≤
        committee.byzantineWeight := by
      rw [len]
      exact Nat.zero_le _
    let d : Deployment ideal := ⟨committee, 0, (0 : Nat), {0, 1}, faulty⟩
    let start : Net ideal :=
      ⟨fun i => if i = 0 then x.1 else y.1, fun i => if i = 0 then x.2 else y.2, ∅⟩
    have boots : d.Boots start := by
      refine ⟨fun i hi => ?_, rfl⟩
      rcases Finset.mem_insert.1 hi with rfl | hi
      · exact Or.inr ⟨(0 : Nat), bootX⟩
      · rw [Finset.mem_singleton.1 hi]
        exact Or.inr ⟨(1 : Nat), bootY⟩
    have shows_ : Bench.Shows d ⟨[x, y], []⟩ start := by
      refine ⟨fun i hi => ?_, fun i z found => ?_, by simp⟩
      · match i, hi with
        | 0, _ => exact Finset.mem_insert_self 0 _
        | 1, _ => exact Finset.mem_insert_of_mem (Finset.mem_singleton_self 1)
      · match i, found with
        | 0, rfl => rfl
        | 1, rfl => rfl
    obtain ⟨net, leads, shown⟩ := shows_.run ideal_collisionFree verdicts attests signing run
    exact ⟨d, net, bench, rfl, rfl, rfl, ⟨start, boots, leads⟩, shown, played⟩

/-- A node that accepts the first block only and signs nothing by itself. -/
def firstConduct : Conduct ideal where
  verdict _ _ p := p.block = firstBlock
  attest _ _ := True
  signs _ _ := False

def firstVote (i : Nat) : Nat × ideal.Hash := (i, notarizeDigest (C := ideal) 0 0 firstBlock.hash)

/-- Validator 0 proposes the first block and both vote for it. -/
def firstScript : List (Event ideal) :=
  [.deliver 0 (.message (.propose firstProposal)),
    .deliver 0 (.proposalVerified 0 firstBlock.hash true),
    .deliver 1 (.message (.propose firstProposal)),
    .deliver 1 (.proposalVerified 0 firstBlock.hash true),
    .deliver 0 (strayNotarize 0 firstBlock.hash)]

/-- After the script both validators find the first block final. -/
theorem exists_firstBlock_final :
    ∃ (d : Deployment ideal) (net : Net ideal), d.epoch = 0 ∧ d.genesisHash = (0 : Nat) ∧
      d.correct = {0, 1} ∧ d.Reachable firstConduct net ∧
      ∀ i ∈ d.correct, firstVote i ∈ net.signed ∧
        (net.replicas i).chain.get? 1 = some firstBlock.hash := by
  obtain ⟨d, net, bench, epoch, genesis, correct, run, shown, reached⟩ :=
    exists_duoRun (fun _ _ p => decide (p.block = firstBlock)) (fun _ _ => false) firstScript
      (K := firstConduct) (fun _ _ p h => (of_decide_eq_true h : p.block = firstBlock))
      (fun _ _ => trivial) (fun _ _ h => (Bool.false_ne_true h).elim)
      (q := fun bench => [0, 1].all fun i => decide (firstVote i ∈ bench.known) &&
        bench.holds i fun r _ => decide (r.chain.get? 1 = some firstBlock.hash))
      (by decide +kernel)
  refine ⟨d, net, epoch, genesis, correct, run, fun i hi => ?_⟩
  have listed : i ∈ [0, 1] := by
    rw [correct] at hi
    simpa using hi
  obtain ⟨voted, held⟩ := Bool.and_eq_true_iff.1 (all_eq_true.1 reached i listed)
  exact ⟨shown.signed _ (of_decide_eq_true voted), of_decide_eq_true (shown.holds held)⟩

end Dexos.Minimmit
