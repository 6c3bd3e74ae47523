import Dexos.Minimmit.Ideal
import Dexos.Minimmit.Steps

/-!
# A replica votes once

`Leaf.voting` classifies the moves by what they do to the voting state: most leave it
alone, two cast a nullify, one casts a notarize and one enters a later view. From it, a
replica casts at most one notarize and one nullify for each epoch and view, and no
notarize after a nullify, as long as no epoch number is activated twice.
-/

namespace Dexos.Minimmit

open Foundations List

variable {C : Crypto}

/-! ## Ballots -/

/-- A vote a replica cast, by its epoch and view. -/
inductive Ballot where
  | notarize (epoch view : Nat)
  | nullify (epoch view : Nat)
deriving DecidableEq

namespace Ballot

def round : Ballot → Nat × Nat
  | .notarize epoch view => (epoch, view)
  | .nullify epoch view => (epoch, view)

def isNotarize : Ballot → Bool
  | .notarize _ _ => true
  | .nullify _ _ => false

/-- The second ballot may be cast after the first: of two ballots of one round, the first
is the notarize and the second the nullify. -/
def MayPrecede (a b : Ballot) : Prop :=
  a.round = b.round → a.isNotarize = true ∧ b.isNotarize = false

instance : DecidableRel MayPrecede := fun a b =>
  inferInstanceAs (Decidable (a.round = b.round → a.isNotarize = true ∧ b.isNotarize = false))

end Ballot

/-- The ballot an output casts: a leader's proposal carries its notarize vote. -/
def ballot? : Output C → Option Ballot
  | .effect (.broadcast (.propose p)) => some (.notarize p.epoch p.view)
  | .effect (.broadcast (.notarize n)) => some (.notarize n.epoch n.view)
  | .effect (.broadcast (.nullify n)) => some (.nullify n.epoch n.view)
  | _ => none

def ballots (outputs : List (Output C)) : List Ballot := outputs.filterMap ballot?

/-- No second notarize, no second nullify, and no notarize after a nullify, for each
epoch and view. -/
def VoteOnce (outputs : List (Output C)) : Prop := (ballots outputs).Pairwise Ballot.MayPrecede

instance (outputs : List (Output C)) : Decidable (VoteOnce outputs) :=
  inferInstanceAs (Decidable (List.Pairwise _ _))

@[simp] theorem ballots_append (os os' : List (Output C)) :
    ballots (os ++ os') = ballots os ++ ballots os' := filterMap_append

theorem ballots_eq_nil {os : List (Output C)} (h : ∀ o ∈ os, ballot? o = none) :
    ballots os = [] :=
  filterMap_eq_nil_iff.2 h

theorem ballot?_of_note {o : Output C} (h : IsNote o) : ballot? o = none := by
  cases o with
  | formed f => rfl
  | dropped n => rfl
  | effect e =>
    cases e with
    | broadcast m =>
      cases m with
      | propose => exact h.elim
      | notarize => exact h.elim
      | nullify => exact h.elim
      | notarization => rfl
      | nullification => rfl
      | execAttest => rfl
    | armTimer => rfl
    | cancelTimer => rfl
    | needProposal => rfl
    | consensusFinal => rfl
    | finalized => rfl
    | slash => rfl

namespace MinimmitReplica

variable {P : Policy C} {A : Set (Nat × C.Hash)} {r r' : MinimmitReplica C}
  {os : List (Output C)} {hist : List (Output C)} {visited : List Nat}

/-! ## The voting state -/

/-- What a move does to the current view and its two vote flags. -/
inductive Voting (P : Policy C) (r : MinimmitReplica C) :
    List (Output C) → MinimmitReplica C → Prop where
  | quiet {os : List (Output C)} {r' : MinimmitReplica C} :
      r'.view = r.view → r'.notarized = r.notarized → r'.nullified = r.nullified →
      (∀ o ∈ os, ballot? o = none) → Voting P r os r'
  | timeout (signer : C.KeyPair) : r.notarized = none → r.nullified = false →
      Voting P r [.effect (.broadcast (.nullify (r.nullifyVote signer r.view)))]
        { r with nullified := true }
  | contradict (signer : C.KeyPair) (ours : C.Hash) :
      r.notarized = some ours → r.nullified = false →
      r.committee.advanceThreshold ≤ setWeight r.committee (r.contradictors r.view ours).keys →
      Voting P r [.effect (.broadcast (.nullify (r.nullifyVote signer r.view)))]
        { r with nullified := true }
  | cast (p : Propose C) (signature : C.Signature) :
      r.pendingProposals.get? r.view = some p → P.verdict r r.view p →
      r.notarized = none → r.nullified = false → r.validParent r.view p.parent = true → Voting P r
        [.effect (.broadcast (if p.proposerIndex = r.selfIndex then .propose p
            else .notarize ⟨r.epoch, r.view, p.blockHash, r.selfIndex, signature⟩))]
        { r.learned r.view p with notarized := some p.blockHash }
  | enter (next : Nat) : r.view < next →
      Voting P r [] { r with view := next, notarized := none, nullified := false }

theorem complete_ballots (r : MinimmitReplica C) (height : Nat) :
    ∀ o ∈ (r.tryCompleteFinality height).2, ballot? o = none := by
  intro o ho
  obtain ⟨block, rfl⟩ := r.complete_outputs height o ho
  rfl

theorem extended_voting (height blockView : Nat) (block : C.Hash) {os : List (Output C)}
    (silent : ∀ o ∈ os, ballot? o = none) :
    Voting P r os (r.extended height blockView block).1 := by
  rw [extended_frame]
  exact .quiet rfl rfl rfl silent

theorem Leaf.voting (h : Leaf P A r os r') : Voting P r os r' := by
  cases h with
  | note os notes => exact .quiet rfl rfl rfl fun o ho => ballot?_of_note (notes o ho)
  | form | drop => exact .quiet rfl rfl rfl fun o ho => by rw [mem_singleton.1 ho]; rfl
  | timeout signer _ silent open_ => exact .timeout signer silent open_
  | contradict signer ours _ voted open_ heavy => exact .contradict signer ours voted open_ heavy
  | cast p signature pending verdict silent open_ linked =>
    exact .cast p signature pending verdict silent open_ linked
  | enter next later => exact .enter next later
  | extend view tip entry =>
    exact extended_voting _ _ _ (forall_mem_cons.2 ⟨rfl, complete_ballots _ _⟩)
  | extendSilently view tip entry => exact extended_voting _ _ _ (by simp)
  | park a header cert =>
    rw [park_frame]
    exact .quiet rfl rfl rfl (by simp)
  | complete height =>
    rw [complete_frame]
    exact .quiet rfl rfl rfl (complete_ballots r height)
  | _ => exact .quiet rfl rfl rfl (by simp)

/-! ## One step -/

/-- The ballots cast so far respect the vote-once law, belong to the epochs visited, and
those of the current epoch and view are reflected in the vote flags. -/
structure Voted (visited : List Nat) (r : MinimmitReplica C) (hist : List (Output C)) : Prop where
  once : VoteOnce hist
  current : r.epoch ∈ visited
  epochs : ∀ b ∈ ballots hist, b.round.1 ∈ visited
  views : ∀ b ∈ ballots hist, b.round.1 = r.epoch → b.round.2 ≤ r.view
  notarized : .notarize r.epoch r.view ∈ ballots hist → r.notarized ≠ none
  nullified : .nullify r.epoch r.view ∈ ballots hist → r.nullified = true

variable (h : Voted visited r hist)
include h

theorem Voted.quiet (epoch : r'.epoch = r.epoch)
    (view : r'.view = r.view) (notarized : r'.notarized = r.notarized)
    (nullified : r'.nullified = r.nullified) (silent : ∀ o ∈ os, ballot? o = none) :
    Voted visited r' (hist ++ os) := by
  have same : ballots (hist ++ os) = ballots hist := by
    rw [ballots_append, ballots_eq_nil silent, append_nil]
  constructor
  · rw [VoteOnce, same]
    exact h.once
  · rw [epoch]
    exact h.current
  · rw [same]
    exact h.epochs
  · rw [same, epoch, view]
    exact h.views
  · rw [same, epoch, view, notarized]
    exact h.notarized
  · rw [same, epoch, view, nullified]
    exact h.nullified

/-- Appending a ballot of the current round that no earlier ballot forbids. -/
theorem Voted.push {b : Ballot} (cast : ballots os = [b])
    (round : b.round = (r.epoch, r.view)) (epoch : r'.epoch = r.epoch) (view : r'.view = r.view)
    (allowed : ∀ a ∈ ballots hist, a.round = (r.epoch, r.view) → a.MayPrecede b)
    (notarized : (.notarize r.epoch r.view ∈ ballots hist ∨ .notarize r.epoch r.view = b) →
      r'.notarized ≠ none)
    (nullified : (.nullify r.epoch r.view ∈ ballots hist ∨ .nullify r.epoch r.view = b) →
      r'.nullified = true) : Voted visited r' (hist ++ os) := by
  have all : ballots (hist ++ os) = ballots hist ++ [b] := by rw [ballots_append, cast]
  have mem : ∀ a, a ∈ ballots (hist ++ os) ↔ a ∈ ballots hist ∨ a = b := by
    intro a
    rw [all, mem_append, mem_singleton]
  constructor
  · rw [VoteOnce, all]
    refine pairwise_snoc.2 ⟨h.once, fun a ha => ?_⟩
    by_cases same : a.round = (r.epoch, r.view)
    · exact allowed a ha same
    · exact fun eq => absurd (eq.trans round) same
  · rw [epoch]
    exact h.current
  · intro a ha
    rcases (mem a).1 ha with ha | rfl
    · exact h.epochs a ha
    · rw [round]
      exact h.current
  · intro a ha same
    rw [view]
    rcases (mem a).1 ha with ha | rfl
    · exact h.views a ha (same.trans epoch)
    · rw [round]
  · rwa [mem, epoch, view]
  · rwa [mem, epoch, view]

theorem Voted.leaf (ready : Ready A r) (move : Leaf P A r os r') :
    Voted visited r' (hist ++ os) := by
  have epoch := move.sameIdentity.epoch
  cases move.voting with
  | quiet view notarized nullified silent => exact h.quiet epoch view notarized nullified silent
  | timeout _ _ open_ | contradict _ _ _ open_ =>
    refine h.push rfl rfl rfl rfl (fun a ha same => ?_) (fun cast => ?_) fun _ => rfl
    · cases a with
      | notarize e v => exact fun _ => ⟨rfl, rfl⟩
      | nullify e v =>
        cases same
        simp [h.nullified ha] at open_
    · rcases cast with ha | same
      · exact h.notarized ha
      · cases same
  | cast p signature pending _ silent open_ =>
    have checked := ready.pending r.view p pending
    have fresh : ∀ a ∈ ballots hist, a.round ≠ (r.epoch, r.view) := by
      intro a ha same
      cases a with
      | notarize e v =>
        cases same
        exact h.notarized ha silent
      | nullify e v =>
        cases same
        simp [h.nullified ha] at open_
    refine h.push (b := .notarize r.epoch r.view) ?_ rfl rfl rfl
      (fun a ha same => absurd same (fresh a ha)) (fun _ => by simp) fun cast => ?_
    · by_cases own : p.proposerIndex = r.selfIndex
      · simp [own, ballots, ballot?, checked.epoch_eq, checked.view_eq]
      · simp [own, ballots, ballot?]
    · rcases cast with ha | same
      · exact absurd rfl (fresh _ ha)
      · cases same
  | enter next later =>
    rw [append_nil]
    refine ⟨h.once, h.current, h.epochs, fun b hb same => ?_, fun hb => ?_, fun hb => ?_⟩
    · exact (h.views b hb same).trans later.le
    · exact absurd (h.views _ hb rfl) (not_le.2 later)
    · exact absurd (h.views _ hb rfl) (not_le.2 later)

/-! ## Whole runs -/

theorem Voted.weaken {visited' : List Nat} (sub : visited ⊆ visited') : Voted visited' r hist :=
  { h with current := sub h.current, epochs := fun b hb => sub (h.epochs b hb) }

omit h

theorem admissible_any (r : MinimmitReplica C) (input : Input C) :
    Admissible Policy.any Set.univ r input := by
  cases input with
  | message m =>
    refine ⟨?_, fun _ _ => trivial⟩
    cases m with
    | propose p => exact fun _ _ _ => .inl (Set.mem_univ _)
    | notarize | nullify | notarization | nullification => exact fun _ _ _ => Set.mem_univ _
    | execAttest a => exact fun _ => Set.mem_univ _
  | timerFired | tick => trivial
  | proposalVerified => exact fun _ _ _ _ => trivial

/-- Against an arbitrary network every step is a sequence of moves. -/
theorem step_performs_any (ready : Ready Set.univ r) (input : Input C) :
    Performs Policy.any Set.univ r (r.step input) :=
  step_performs ready (admissible_any r input)

/-- A replica that has buffered, tallied and stored nothing is ready. -/
theorem ready_of_empty (pending : r.pendingProposals = ∅) (notarize : r.notarizeVotes = ∅)
    (nullify : r.nullifyVotes = ∅) (exec : r.execVotes = ∅) (proofs : r.proofs = ∅) :
    Ready A r where
  pending view p h := by simp [pending] at h
  votes kind view candidate j h := by
    have empty : r.tally kind view = ∅ := by cases kind <;> simp [tally, votesOf, notarize, nullify]
    exact absurd (empty ▸ h) (Tally.not_hasVote_empty _ _)
  execs height digest j h := by
    have empty : r.execTally height = ∅ := by simp [execTally, exec]
    exact absurd (empty ▸ h) (Tally.not_hasVote_empty _ _)
  proofs view proof h := by simp [proofs] at h

/-- A successful activation rotates the committee and emits the entry effects of view 0. -/
theorem activateEpoch_ok {newEpoch : Nat} {x : Response C}
    (h : r.activateEpoch newEpoch = .ok x) :
    ∃ committee newIndex, x.1 = r.rotated newEpoch committee newIndex ∧
      x.2 = (r.rotated newEpoch committee newIndex).viewEntryEffects 0 := by
  unfold activateEpoch at h
  split at h
  · cases h
  · split_ifs at h
    split at h
    · cases h
    · split at h
      · cases h
      · rename_i committee _ _ newIndex _
        cases h
        exact ⟨committee, newIndex, rfl, rfl⟩

/-- A call is a step, schedules an update, rotates the epoch or changes nothing. -/
theorem call_kept {I : MinimmitReplica C → Prop} {c : Call C} (same : I r)
    (step : ∀ input, c = .step input → I (r.step input).1)
    (schedule : ∀ update, I (r.scheduleUpdate update))
    (rotate : ∀ newEpoch committee index, I (r.rotated newEpoch committee index)) :
    I (r.call c).1 := by
  cases c with
  | step input => exact step input rfl
  | scheduleUpdate update => exact schedule update
  | activateEpoch newEpoch =>
    cases active : r.activateEpoch newEpoch with
    | error e =>
      simp only [call, active]
      exact same
    | ok x =>
      obtain ⟨committee, index, state, -⟩ := activateEpoch_ok active
      simp only [call, active, state]
      exact rotate newEpoch committee index

theorem ready_call (ready : Ready Set.univ r) (c : Call C) : Ready Set.univ (r.call c).1 := by
  refine call_kept ready (fun input _ => ?_)
    (fun _ => ⟨ready.pending, ready.votes, ready.execs, ready.proofs⟩)
    fun _ _ _ => ready_of_empty rfl rfl rfl rfl rfl
  have := (step_performs_any ready input).ready ready
  rwa [Set.univ_union] at this

/-- What every move, scheduling and rotation keep, every run keeps. -/
theorem run_invariant {I : MinimmitReplica C → Prop}
    (leaf : ∀ r os r', I r → Leaf Policy.any Set.univ r os r' → I r')
    (schedule : ∀ r update, I r → I (scheduleUpdate r update))
    (rotate : ∀ r newEpoch committee index, I r → I (rotated r newEpoch committee index))
    (ready : Ready Set.univ r) (start : I r) (calls : List (Call C)) :
    I (Reaction.run call r calls).1 := by
  induction calls generalizing r with
  | nil => exact start
  | cons c rest ih =>
    refine ih (ready_call ready c) (call_kept start (fun input _ => ?_)
      (fun update => schedule _ _ start) fun _ _ _ => rotate _ _ _ _ start)
    refine (Moves.invariant (I := fun s => s.2 = Set.univ ∧ I s.1) (fun s os s' hs move => ?_)
      ⟨rfl, start⟩ (step_performs_any ready input)).2
    obtain ⟨all, held⟩ := hs
    obtain ⟨first, known⟩ := move
    rw [all] at first known
    exact ⟨by rw [known, Set.univ_union], leaf _ _ _ held first⟩

/-- A successful activation does not reuse the number of an epoch visited before. -/
def FreshCall (visited : List Nat) (r : MinimmitReplica C) : Call C → Prop
  | .activateEpoch newEpoch => (r.activateEpoch newEpoch).isOk = true → newEpoch ∉ visited
  | .step _ => True
  | .scheduleUpdate _ => True

/-- No activation of the run reuses an epoch number. -/
def FreshActivations : List Nat → MinimmitReplica C → List (Call C) → Prop
  | _, _, [] => True
  | visited, r, c :: rest =>
    FreshCall visited r c ∧ FreshActivations ((r.call c).1.epoch :: visited) (r.call c).1 rest

instance (visited : List Nat) (r : MinimmitReplica C) : (c : Call C) →
    Decidable (FreshCall visited r c)
  | .activateEpoch newEpoch =>
    inferInstanceAs (Decidable ((r.activateEpoch newEpoch).isOk = true → newEpoch ∉ visited))
  | .step _ => inferInstanceAs (Decidable True)
  | .scheduleUpdate _ => inferInstanceAs (Decidable True)

instance FreshActivations.decide : (visited : List Nat) → (r : MinimmitReplica C) →
    (calls : List (Call C)) → Decidable (FreshActivations visited r calls)
  | _, _, [] => inferInstanceAs (Decidable True)
  | visited, r, c :: rest =>
    have := FreshActivations.decide ((r.call c).1.epoch :: visited) (r.call c).1 rest
    inferInstanceAs (Decidable (_ ∧ _))

include h

theorem Voted.afterStep (ready : Ready Set.univ r) (input : Input C) :
    Voted visited (r.step input).1 (hist ++ (r.step input).2) :=
  (Moves.history (P := fun s hist => Ready s.2 s.1 ∧ Voted visited s.1 hist)
    (fun s hist os s' hs move => by
      refine ⟨?_, hs.2.leaf hs.1 move.1⟩
      rw [move.2]
      exact move.1.ready hs.1) ⟨ready, h⟩ (step_performs_any ready input)).2

theorem Voted.afterCall (ready : Ready Set.univ r) (c : Call C) (fresh : FreshCall visited r c) :
    Voted ((r.call c).1.epoch :: visited) (r.call c).1 (hist ++ (r.call c).2) := by
  cases c with
  | step input => exact (h.afterStep ready input).weaken (subset_cons_self _ _)
  | scheduleUpdate update =>
    have kept : Voted visited (r.scheduleUpdate update) (hist ++ []) :=
      h.quiet rfl rfl rfl rfl (by simp)
    exact kept.weaken (subset_cons_self _ _)
  | activateEpoch newEpoch =>
    cases hact : r.activateEpoch newEpoch with
    | error e =>
      simp only [call, hact, Reaction.idle_state, Reaction.idle_outputs, append_nil]
      exact h.weaken (subset_cons_self _ _)
    | ok x =>
      have unused := fresh (by rw [hact]; rfl)
      obtain ⟨committee, newIndex, state, outputs⟩ := activateEpoch_ok hact
      have silent : ballots (hist ++ x.2) = ballots hist := by
        rw [ballots_append, outputs, ballots_eq_nil fun o ho =>
          ballot?_of_note (viewEntryEffects_notes _ _ o ho), append_nil]
      -- Every ballot so far belongs to an epoch visited before, so none to this one.
      have other : ∀ b ∈ ballots hist, b.round.1 ≠ newEpoch := fun b hb same =>
        unused (same ▸ h.epochs b hb)
      simp only [call, hact, state]
      constructor
      · rw [VoteOnce, silent]
        exact h.once
      · exact mem_cons_self
      · rw [silent]
        exact fun b hb => mem_cons_of_mem _ (h.epochs b hb)
      · rw [silent]
        exact fun b hb same => absurd same (other b hb)
      · rw [silent]
        exact fun hb => absurd rfl (other _ hb)
      · rw [silent]
        exact fun hb => absurd rfl (other _ hb)

theorem Voted.run (ready : Ready Set.univ r) {calls : List (Call C)}
    (fresh : FreshActivations visited r calls) :
    VoteOnce (hist ++ (Reaction.run call r calls).2) := by
  induction calls generalizing visited r hist with
  | nil => simpa [Reaction.run] using h.once
  | cons c rest ih =>
    obtain ⟨first, later⟩ := fresh
    have := ih (h.afterCall ready c first) (ready_call ready c) later
    simpa [Reaction.run, append_assoc] using this

omit h

theorem voted_initial {committee : MinimmitCommittee C} {selfIndex epoch : Nat}
    {genesisHash : C.Hash} {signer : Option C.KeyPair} {out : List (Output C)}
    (silent : ∀ o ∈ out, ballot? o = none) :
    Voted [epoch] (initial committee selfIndex genesisHash epoch signer) out := by
  have none := ballots_eq_nil silent
  constructor
  · rw [VoteOnce, none]
    exact List.Pairwise.nil
  · exact mem_singleton.2 rfl
  all_goals simp [none]

/-- Over a whole run in which no epoch number is activated twice, a voting replica casts
for each epoch and view at most one notarize, at most one nullify, and no notarize after
a nullify. -/
theorem voteOnce_of_freshActivations {committee : MinimmitCommittee C} {selfIndex epoch : Nat}
    {genesisHash : C.Hash} {signer : C.KeyPair} {out : List (Output C)}
    (boot : newWithSigner committee selfIndex genesisHash epoch signer = .ok (r, out))
    (calls : List (Call C)) (fresh : FreshActivations [epoch] r calls) :
    VoteOnce (out ++ (Reaction.run call r calls).2) := by
  obtain ⟨-, -, rfl, rfl⟩ := newWithSigner_ok boot
  exact (voted_initial fun o ho => ballot?_of_note (viewEntryEffects_notes _ _ o ho)).run
    (ready_of_empty rfl rfl rfl rfl rfl) fresh

/-! ## A run of two validators -/

/-- Two unit-weight validators: `B = 0`, `M = 1`, `L = 2`. -/
def duo : List (Validator ideal) := [⟨(0 : Nat), 1⟩, ⟨(1 : Nat), 1⟩]

/-- Boot validator `index` of the pair in epoch 0, on genesis hash 0. -/
def bootDuo (index : Nat) : Except VoteError (Response ideal) := do
  let committee ← MinimmitCommittee.newUnit 0 duo
  newWithSigner committee index (0 : Nat) 0 index

theorem bootDuo_ok {index : Nat} {x : Response ideal}
    (h : bootDuo index = .ok x) :
    ∃ committee, MinimmitCommittee.newUnit 0 duo = .ok committee ∧
      newWithSigner committee index (0 : Nat) 0 index = .ok x := by
  unfold bootDuo at h
  cases hc : MinimmitCommittee.newUnit 0 duo with
  | error e =>
    rw [hc] at h
    cases h
  | ok committee =>
    rw [hc] at h
    exact ⟨committee, rfl, h⟩

/-- A decidable fact about the booted replica, found by evaluation. -/
theorem exists_bootDuo (index : Nat) {p : Response ideal → Prop}
    [DecidablePred p] (h : ((bootDuo index).toOption.map fun x => decide (p x)) = some true) :
    ∃ x, bootDuo index = .ok x ∧ p x := by
  obtain ⟨x, booted, holds⟩ := Option.map_eq_some_iff.1 h
  exact ⟨x, of_toOption booted, of_decide_eq_true holds⟩

/-- The timer of view 0 fires in epoch 0 and again in epoch 1. -/
def twoEpochs : List (Call ideal) :=
  [.step (.timerFired 0), .scheduleUpdate ⟨1, duo⟩, .activateEpoch 1, .step (.timerFired 0)]

theorem voteOnce_twoEpochs :
    ∃ committee r out, newWithSigner committee 0 (0 : Nat) 0 (0 : Nat) = .ok (r, out) ∧
      FreshActivations (C := ideal) [0] r twoEpochs ∧
      VoteOnce (out ++ (Reaction.run call r twoEpochs).2) := by
  obtain ⟨⟨r, out⟩, boot, fresh⟩ := exists_bootDuo 0
    (p := fun x => FreshActivations [0] x.1 twoEpochs) (by decide +kernel)
  obtain ⟨committee, -, built⟩ := bootDuo_ok boot
  exact ⟨committee, r, out, built, fresh, voteOnce_of_freshActivations built twoEpochs fresh⟩

/-- Epoch 0 is scheduled and activated a second time. -/
def reusedEpoch : List (Call ideal) :=
  [.step (.timerFired 0), .scheduleUpdate ⟨0, duo⟩, .activateEpoch 0, .step (.timerFired 0)]

/-- Activating the current epoch number again resets the view, and the replica nullifies
view 0 of epoch 0 twice. -/
theorem not_voteOnce_reusedEpoch :
    ∃ committee r out, MinimmitCommittee.newUnit 0 duo = .ok committee ∧
      newWithSigner committee 0 (0 : Nat) 0 (0 : Nat) = .ok (r, out) ∧
      ¬ VoteOnce (out ++ (Reaction.run call r reusedEpoch).2) := by
  obtain ⟨⟨r, out⟩, boot, twice⟩ := exists_bootDuo 0
    (p := fun x => ¬ VoteOnce (x.2 ++ (Reaction.run call x.1 reusedEpoch).2)) (by decide +kernel)
  obtain ⟨committee, unit, built⟩ := bootDuo_ok boot
  exact ⟨committee, r, out, unit, built, twice⟩

end MinimmitReplica

end Dexos.Minimmit
