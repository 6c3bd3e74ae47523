import Dexos.Minimmit.Refinement

/-!
# The network of replicas

Correct validators run the replica and exchange messages over a network that may lose,
repeat, reorder and forge anything but signatures: an input may be delivered whenever the
signatures a handler would accept in it exist. Faulty validators sign what they like.

`Reachable.context` is the refinement theorem: the votes signed in a reachable network are
those of a run of the abstract protocol. `Reachable.localInvariant` is the induction rule
for facts about one correct replica.
-/

namespace Dexos.Minimmit

open Foundations MinimmitReplica

variable {C : Crypto}

/-- What correct nodes do around their replicas: the verdicts and attestations they hand
in, and what they sign on their own after the outputs so far. -/
structure Conduct (C : Crypto) extends Policy C where
  signs : List (Output C) → C.Hash → Prop

/-- The replicas, what each has put out, and the signatures that exist. -/
structure Net (C : Crypto) where
  replicas : Nat → MinimmitReplica C
  outputs : Nat → List (Output C)
  signed : Set (Nat × C.Hash)

namespace Net

/-- Validator `i` processes one input. -/
def deliver (net : Net C) (i : Nat) (input : Input C) : Net C :=
  let reaction := (net.replicas i).step input
  { replicas := Function.update net.replicas i reaction.1
    outputs := Function.update net.outputs i (net.outputs i ++ reaction.2)
    signed := net.signed ∪ releasedBy reaction.2 }

/-- Validator `i` signs a digest outside the replica. -/
def sign (net : Net C) (i : Nat) (digest : C.Hash) : Net C :=
  { net with signed := net.signed ∪ {(i, digest)} }

theorem deliver_self (net : Net C) (i : Nat) (input : Input C) :
    (net.deliver i input).replicas i = ((net.replicas i).step input).1 ∧
      (net.deliver i input).outputs i = net.outputs i ++ ((net.replicas i).step input).2 := by
  simp [deliver]

theorem deliver_other (net : Net C) {i j : Nat} (ne : j ≠ i) (input : Input C) :
    (net.deliver i input).replicas j = net.replicas j ∧
      (net.deliver i input).outputs j = net.outputs j := by
  simp [deliver, ne]

end Net

namespace Deployment

variable (d : Deployment C) (K : Conduct C)

/-- A constructor of the source made the replica of validator `i`. -/
def BootsAs (i : Nat) (r : MinimmitReplica C) (out : List (Output C)) : Prop :=
  MinimmitReplica.new d.committee i d.genesisHash d.epoch = .ok (r, out) ∨
    ∃ signer, newWithSigner d.committee i d.genesisHash d.epoch signer = .ok (r, out)

/-- Correct validators have fresh replicas, and nothing is signed in the epoch. -/
structure Boots (net : Net C) : Prop where
  replicas : ∀ i ∈ d.correct, d.BootsAs i (net.replicas i) (net.outputs i)
  signed : net.signed = ∅

/-- One event of the network. Votes of a correct validator come from its replica alone. -/
inductive Step (net : Net C) : Net C → Prop where
  | deliver (i : Nat) (input : Input C) :
      i ∈ d.correct → Admissible K.toPolicy net.signed (net.replicas i) input →
      Step net (net.deliver i input)
  | sign (i : Nat) (digest : C.Hash) :
      i ∈ d.correct → NoVote d.epoch digest → K.signs (net.outputs i) digest →
      Step net (net.sign i digest)
  | corrupt (i : Nat) (digest : C.Hash) : i ∉ d.correct → Step net (net.sign i digest)

def Leads : Net C → Net C → Prop := Relation.ReflTransGen (d.Step K)

def Reachable (net : Net C) : Prop := ∃ start, d.Boots start ∧ d.Leads K start net

variable {d K} {Q : BlockHeader C → Prop} {A A' : Set (Nat × C.Hash)} {i : Nat}
  {r r' : MinimmitReplica C} {os : List (Output C)} {net net' : Net C}

theorem Reachable.leads (h : d.Reachable K net) (run : d.Leads K net net') :
    d.Reachable K net' :=
  let ⟨start, boots, before⟩ := h
  ⟨start, boots, before.trans run⟩

theorem Step.signed_subset (h : d.Step K net net') : net.signed ⊆ net'.signed := by
  cases h with
  | deliver | sign | corrupt => exact Set.subset_union_left

theorem Leads.signed_subset (h : d.Leads K net net') : net.signed ⊆ net'.signed := by
  induction h with
  | refl => exact subset_rfl
  | tail _ step ih => exact ih.trans step.signed_subset

theorem BootsAs.eq_initial (h : d.BootsAs i r os) :
    ∃ signer, r = initial d.committee i d.genesisHash d.epoch signer ∧
      os = r.viewEntryEffects 0 := by
  rcases h with boot | ⟨signer, boot⟩
  · unfold MinimmitReplica.new at boot
    split_ifs at boot
    cases boot
    exact ⟨none, rfl, rfl⟩
  · obtain ⟨-, -, eq, out⟩ := newWithSigner_ok boot
    exact ⟨some signer, eq, out⟩

/-! ## The refinement -/

/-- A correct replica within a network that runs the protocol. -/
structure Context (d : Deployment C) (Q : BlockHeader C → Prop) (i : Nat)
    (A : Set (Nat × C.Hash)) (r : MinimmitReplica C) : Prop where
  reachable : (d.protocol Q).Reachable (signedVotes d.epoch A)
  member : Member d i r
  ready : Ready A r
  tracks : Tracks A r

theorem BootsAs.context (h : d.BootsAs i r os) : Context d Q i ∅ r := by
  obtain ⟨signer, rfl, -⟩ := h.eq_initial
  exact ⟨.refl, ⟨rfl, rfl, rfl, rfl⟩, ready_of_empty rfl rfl rfl rfl rfl,
    ⟨fun _ _ voted => voted.elim, fun _ voted => voted.elim, fun _ voted => nomatch voted⟩⟩

theorem Context.leaf {P : Policy C} (h : Context d Q i A r) (free : C.CollisionFree)
    (accepts : ∀ r view p, P.verdict r view p → Q p.block) (move : Leaf P A r os r') :
    Context d Q i (A ∪ releasedBy os) r' := by
  obtain ⟨steps, tracks⟩ := move.simulates free h.member h.ready h.tracks accepts
  exact ⟨h.reachable.trans steps, h.member.leaf move, move.ready h.ready, tracks⟩

/-- The signatures of others leave the context of a replica alone. -/
theorem Context.grow (h : Context d Q i A r) (sub : A ⊆ A')
    (reachable : (d.protocol Q).Reachable (signedVotes d.epoch A'))
    (own : ∀ vote, (i, vote) ∈ signedVotes d.epoch A' → (i, vote) ∈ signedVotes d.epoch A) :
    Context d Q i A' r := by
  refine ⟨reachable, h.member, h.ready.mono sub, h.tracks.congr fun vote => ?_⟩
  rw [h.member.selfIndex, h.member.epoch]
  exact ⟨own vote, fun old => votes_mono sub old⟩

/-- A replica hands out signatures of its own validator only. -/
theorem releasedBy_self {P : Policy C} (move : Leaf P A r os r') :
    ∀ x ∈ releasedBy os, x.1 = r.selfIndex := by
  intro x hx
  cases move.voting with
  | quiet _ _ _ silent =>
    rw [releasedBy_eq_empty silent] at hx
    exact hx.elim
  | timeout signer | contradict signer =>
    rw [releasedBy_cons, releasedBy_nil, Set.union_empty] at hx
    rw [Set.mem_singleton_iff.1 hx]
    rfl
  | cast p signature =>
    rw [releasedBy_cons, releasedBy_nil, Set.union_empty] at hx
    split_ifs at hx with own
    · rcases hx with rfl | rfl <;> exact own
    · rw [Set.mem_singleton_iff.1 hx]
  | enter =>
    rw [releasedBy_nil] at hx
    exact hx.elim

variable {I : Set (Nat × C.Hash) → MinimmitReplica C → List (Output C) → Prop}

/-- A step of a correct replica keeps its context and any invariant of its moves. -/
theorem Context.step
    (free : C.CollisionFree) (accepts : ∀ r view p, K.verdict r view p → Q p.block)
    (leaf : ∀ {A r h os r'}, Context d Q i A r → Leaf K.toPolicy A r os r' → I A r h →
      I (A ∪ releasedBy os) r' (h ++ os))
    {hist : List (Output C)} (h : Context d Q i A r) (inv : I A r hist) {input : Input C}
    (admissible : Admissible K.toPolicy A r input) :
    Context d Q i (A ∪ releasedBy (r.step input).2) (r.step input).1 ∧
      I (A ∪ releasedBy (r.step input).2) (r.step input).1 (hist ++ (r.step input).2) ∧
      ∀ x ∈ releasedBy (r.step input).2, x.1 = i := by
  have moves := step_performs h.ready admissible
  have kept := Moves.history
    (P := fun s out => Context d Q i s.2 s.1 ∧ I s.2 s.1 (hist ++ out) ∧
      ∀ x ∈ releasedBy out, x.1 = i)
    (fun s out os s' hs move => by
      obtain ⟨context, inv, own⟩ := hs
      rw [move.2]
      refine ⟨context.leaf free accepts move.1, ?_, fun x hx => ?_⟩
      · rw [← List.append_assoc]
        exact leaf context move.1 inv
      · rw [releasedBy_append] at hx
        rcases hx with old | new
        · exact own x old
        · exact (releasedBy_self move.1 x new).trans context.member.selfIndex)
    (show Context d Q i A r ∧ I A r (hist ++ []) ∧ ∀ x ∈ releasedBy ([] : List (Output C)), x.1 = i
      from ⟨h, by rwa [List.append_nil], by simp⟩) moves
  simpa using kept

/-- A signature outside the replicas is no vote of a correct validator. -/
theorem reachable_sign (h : (d.protocol Q).Reachable (signedVotes d.epoch A)) (digest : C.Hash)
    (lawful : NoVote d.epoch digest ∨ i ∉ d.correct) :
    (d.protocol Q).Reachable (signedVotes d.epoch (A ∪ {(i, digest)})) := by
  rw [votes_union]
  rcases lawful with noVote | faulty
  · rwa [votes_of_noVote noVote, Set.union_empty]
  · refine h.tail (.faulty _ fun x hx => ?_)
    have := Set.mem_singleton_iff.1 (mem_signedVotes.1 hx)
    rwa [congrArg Prod.fst this]

/-- The induction rule for facts about correct replicas. `G` collects what is already known
of the signatures in every reachable network. -/
theorem Reachable.localInvariant {G : Set (Nat × C.Hash) → Prop}
    (free : C.CollisionFree) (accepts : ∀ r view p, K.verdict r view p → Q p.block)
    (known : ∀ {net}, d.Reachable K net → G net.signed)
    (boot : ∀ {i r out}, d.BootsAs i r out → I ∅ r out)
    (mono : ∀ {A A' r h}, A ⊆ A' → G A' → I A r h → I A' r h)
    (leaf : ∀ {i A r h os r'}, Context d Q i A r → Leaf K.toPolicy A r os r' → I A r h →
      I (A ∪ releasedBy os) r' (h ++ os))
    (run : d.Reachable K net) :
    (d.protocol Q).Reachable (signedVotes d.epoch net.signed) ∧
      ∀ i ∈ d.correct, Context d Q i net.signed (net.replicas i) ∧
        I net.signed (net.replicas i) (net.outputs i) := by
  obtain ⟨start, boots, leads⟩ := run
  induction leads with
  | refl =>
    rw [boots.signed]
    exact ⟨.refl, fun i hi => ⟨(boots.replicas i hi).context, boot (boots.replicas i hi)⟩⟩
  | @tail net net' before step ih =>
    obtain ⟨reachable, all⟩ := ih
    have later : G net'.signed := known ⟨start, boots, before.tail step⟩
    -- a replica that does not act sees only new signatures of another validator
    have passive : ∀ {j k digests}, j ∈ d.correct → (∀ x ∈ digests, x.1 = k) →
        (j = k → ∀ vote, (j, vote) ∈ signedVotes d.epoch digests → False) →
        net'.signed = net.signed ∪ digests →
        (d.protocol Q).Reachable (signedVotes d.epoch net'.signed) →
        Context d Q j net'.signed (net.replicas j) ∧
          I net'.signed (net.replicas j) (net.outputs j) := by
      intro j k digests hj others noVotes grown reachable'
      obtain ⟨context, inv⟩ := all j hj
      have sub : net.signed ⊆ net'.signed := by
        rw [grown]
        exact Set.subset_union_left
      refine ⟨context.grow sub reachable' fun vote voted => ?_, mono sub later inv⟩
      rw [grown] at voted
      exact voted.resolve_right fun new => noVotes (others _ new) vote new
    cases step with
    | deliver i input hi admissible =>
      obtain ⟨context, inv⟩ := all i hi
      obtain ⟨context', inv', own⟩ := context.step free accepts leaf inv admissible
      refine ⟨context'.reachable, fun j hj => ?_⟩
      by_cases same : j = i
      · subst same
        rw [(net.deliver_self j input).1, (net.deliver_self j input).2]
        exact ⟨context', inv'⟩
      · rw [(net.deliver_other same input).1, (net.deliver_other same input).2]
        exact passive hj own (fun eq => absurd eq same) rfl context'.reachable
    | sign i digest hi noVote =>
      have reachable' := reachable_sign (i := i) reachable digest (.inl noVote)
      refine ⟨reachable', fun j hj => passive hj (k := i) (by simp) (fun _ vote new => ?_)
        rfl reachable'⟩
      rwa [votes_of_noVote noVote] at new
    | corrupt i digest faulty =>
      have reachable' := reachable_sign reachable digest (.inr faulty)
      refine ⟨reachable', fun j hj => passive hj (k := i) (by simp) (fun eq => ?_) rfl reachable'⟩
      exact absurd (eq ▸ hj) faulty

/-- The votes signed in a reachable network are those of a run of the protocol. -/
theorem Reachable.context (free : C.CollisionFree)
    (accepts : ∀ r view p, K.verdict r view p → Q p.block) (run : d.Reachable K net) :
    (d.protocol Q).Reachable (signedVotes d.epoch net.signed) ∧
      ∀ i ∈ d.correct, Context d Q i net.signed (net.replicas i) := by
  have rule := run.localInvariant (G := fun _ => True) (I := fun _ _ _ => True) free accepts
    (fun _ => trivial) (fun _ => trivial) (fun _ _ _ => trivial) (fun _ _ _ => trivial)
  exact ⟨rule.1, fun i hi => (rule.2 i hi).1⟩

end Deployment

end Dexos.Minimmit
