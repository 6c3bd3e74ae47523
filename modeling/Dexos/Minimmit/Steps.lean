import Dexos.Minimmit.Moves

/-!
# Handlers perform moves

`Ready` is the part of the replica invariant that the decomposition itself needs:
buffered proposals passed their checks and tallied votes carry known signatures. Every
handler is then a sequence of moves, and so is `step`.
-/

namespace Dexos.Minimmit

open Foundations List OrdMap Option Tally

variable {C : Crypto}

namespace MinimmitReplica

variable {P : Policy C} {A A' : Set (Nat × C.Hash)} {r r' : MinimmitReplica C}
  {os : List (Output C)} {formedHere : Bool} {candidate digest tip : C.Hash}
  {signature : C.Signature} {a : ExecAttest C} {epoch i view : Nat} {n : Notarization C}
  {p : Propose C} {x : Response C} {kind : TallyKind}

/-! ## Tallies under updates -/

@[simp] theorem votesOf_setVotes (kind kind' : TallyKind) (votes : OrdMap Nat (Tally C)) :
    (r.setVotes kind votes).votesOf kind' = if kind' = kind then votes else r.votesOf kind' := by
  cases kind <;> cases kind' <;> rfl

theorem setVotes_self (kind : TallyKind) : r.setVotes kind (r.votesOf kind) = r := by
  cases kind <;> rfl

theorem tally_setVotes_erase (kind kind' : TallyKind) (view view' : Nat) :
    (r.setVotes kind ((r.votesOf kind).erase view)).tally kind' view' =
      if kind' = kind ∧ view' = view then ∅ else r.tally kind' view' := by
  by_cases hk : kind' = kind
  · subst hk
    by_cases hv : view' = view <;> simp [hv, get?_erase, tally]
  · simp [hk, tally]

theorem tally_halt (j : Nat) (kind : TallyKind) (view : Nat) :
    (r.halt j).tally kind view = (r.tally kind view).purge j := by
  have purged : ∀ m : OrdMap Nat (Tally C),
      ((m.mapValues (·.purge j)).get? view).getD ∅ = ((m.get? view).getD ∅).purge j := by
    intro m
    rw [get?_mapValues]
    cases m.get? view <;> rfl
  cases kind
  · exact purged r.notarizeVotes
  · exact purged r.nullifyVotes

theorem execTally_halt (j height : Nat) :
    (r.halt j).execTally height = (r.execTally height).purge j := by
  simp only [execTally, halt, get?_mapValues]
  cases r.execVotes.get? height <;> rfl

theorem tally_prune (horizon : Nat) (kind : TallyKind) (view : Nat) :
    (r.prune horizon).tally kind view = if horizon ≤ view then r.tally kind view else ∅ := by
  have kept : ∀ m : OrdMap Nat (Tally C), ((m.filter fun v _ => horizon ≤ v).get? view).getD ∅ =
        if horizon ≤ view then (m.get? view).getD ∅ else ∅ := by
    intro m
    rw [get?_filter]
    split_ifs with h <;> cases m.get? view <;> simp [h, Option.filter]
  cases kind
  · exact kept r.notarizeVotes
  · exact kept r.nullifyVotes

theorem votesOf_accepted (kind kind' : TallyKind) (view j : Nat) (candidate : C.Hash)
    (signature : C.Signature) : (r.accepted kind view j candidate signature).votesOf kind' =
      if kind' = kind then
        (r.votesOf kind).insert view ((r.tally kind view).add j candidate signature)
      else r.votesOf kind' := by
  cases kind <;> cases kind' <;> rfl

theorem tally_accepted (kind kind' : TallyKind) (view view' j : Nat) (candidate : C.Hash)
    (signature : C.Signature) :
    (r.accepted kind view j candidate signature).tally kind' view' =
      if kind' = kind ∧ view' = view then (r.tally kind view).add j candidate signature
      else r.tally kind' view' := by
  rw [tally, votesOf_accepted]
  by_cases hk : kind' = kind
  · subst hk
    by_cases hv : view' = view <;> simp [hv, get?_insert, tally]
  · simp [hk, tally]

theorem execTally_attested (a : ExecAttest C) (height : Nat) :
    (r.attested a).execTally height =
      if height = a.height then (r.execTally height).add a.validatorIndex a.digest a.signature
      else r.execTally height := by
  simp only [execTally, attested, get?_insert]
  split_ifs with h
  · simp [h]
  · rfl

variable (r : MinimmitReplica C)

/-- Completing a height touches only its finality stage and its execution tally. -/
theorem tryCompleteFinality_cases (height : Nat) :
    (∃ root cert view block, r.execCertificates.get? height = some (root, cert) ∧
        r.finality.get? height = some (.consensusFinal view block) ∧
        r.tryCompleteFinality height = ({ r with
              finality := r.finality.insert height (.finalized view block root cert)
              execVotes := r.execVotes.erase height }, [.effect (.finalized block height)])) ∨
      ((∀ root cert view block, r.execCertificates.get? height = some (root, cert) →
          r.finality.get? height ≠ some (.consensusFinal view block)) ∧
        r.tryCompleteFinality height = .idle r) := by
  unfold tryCompleteFinality
  split
  · rename_i root cert view block hcert hstage
    exact .inl ⟨root, cert, view, block, hcert, hstage, rfl⟩
  · rename_i none
    refine .inr ⟨fun root cert view block hcert hstage => ?_, rfl⟩
    exact none _ _ _ _ hcert hstage

theorem complete_frame (height : Nat) : (r.tryCompleteFinality height).1 = { r with
        finality := (r.tryCompleteFinality height).1.finality
        execVotes := (r.tryCompleteFinality height).1.execVotes } := by
  rcases r.tryCompleteFinality_cases height with ⟨root, cert, view, block, -, -, eq⟩ | ⟨-, eq⟩
  · rw [eq]
  · rw [eq]
    rfl

theorem extended_frame (height blockView : Nat) (block : C.Hash) :
    (r.extended height blockView block).1 = { r with
        chain := r.chain.insert height block
        finality := (r.extended height blockView block).1.finality
        execVotes := (r.extended height blockView block).1.execVotes } :=
  (r.recorded height blockView block).complete_frame height

theorem park_frame (height : Nat) (root : C.Hash) (cert : Certificate C) :
    r.parkCertificate height root cert =
      { r with execCertificates := (r.parkCertificate height root cert).execCertificates } := by
  unfold parkCertificate
  split_ifs <;> rfl

theorem complete_outputs (height : Nat) :
    ∀ o ∈ (r.tryCompleteFinality height).2, ∃ block, o = .effect (.finalized block height) := by
  intro o ho
  rcases r.tryCompleteFinality_cases height with ⟨root, cert, view, block, -, -, eq⟩ | ⟨-, eq⟩
  · rw [eq] at ho
    exact ⟨block, mem_singleton.1 ho⟩
  · simp [eq] at ho

variable {r} {committee : MinimmitCommittee C} {j : Nat}

theorem extended_chain (height blockView : Nat) (block : C.Hash) :
    (r.extended height blockView block).1.chain = r.chain.insert height block := by
  rw [extended_frame]

theorem complete_hasVote {height n : Nat}
    (hv : ((r.tryCompleteFinality height).1.execTally n).HasVote digest i) :
    (r.execTally n).HasVote digest i := by
  rcases r.tryCompleteFinality_cases height with ⟨root, cert, view, block, -, -, eq⟩ | ⟨-, eq⟩
  · rw [eq] at hv
    simp only [execTally, get?_erase] at hv ⊢
    split_ifs at hv
    · exact absurd hv (not_hasVote_empty _ _)
    · exact hv
  · rwa [eq] at hv

theorem halted_insert (hi : (r.halt j).halted.contains i = true) (ne : i ≠ j) :
    r.halted.contains i = true := by
  rw [OrdMap.contains_iff] at hi ⊢
  simpa [halt, OrdMap.get?_insert, ne] using hi

/-- A vote in a tally after a move was there before it, and its signer is not halted by the
move, or it is a known vote of a member that is not halted. -/
theorem Leaf.hasVote (move : Leaf P A r os r') (hv : (r'.tally kind view).HasVote candidate i) :
    ((r.tally kind view).HasVote candidate i ∧
        (r'.halted.contains i = true → r.halted.contains i = true)) ∨
      (r'.halted.contains i = false ∧ i < r.committee.len ∧
        (i, voteDigest kind r.epoch view candidate) ∈ A ∧
        (kind = .nullify → candidate = nullifyDigest C r.epoch view)) := by
  cases move with
  | accept kind' view' j candidate' signature _ live member known digest =>
    rw [tally_accepted] at hv
    split_ifs at hv with same
    · obtain ⟨rfl, rfl⟩ := same
      rcases hasVote_add.1 hv with old | ⟨rfl, rfl⟩
      · exact .inl ⟨old, id⟩
      · exact .inr ⟨live, member, known, digest⟩
    · exact .inl ⟨hv, id⟩
  | dropEmpty kind' view' =>
    rw [tally_setVotes_erase] at hv
    split_ifs at hv
    · exact absurd hv (not_hasVote_empty _ _)
    · exact .inl ⟨hv, id⟩
  | halt j =>
    rw [tally_halt, hasVote_purge] at hv
    exact .inl ⟨hv.1, fun halted => halted_insert halted hv.2⟩
  | settle view' tip =>
    rw [tally_prune] at hv
    split_ifs at hv
    · exact .inl ⟨hv, id⟩
    · exact absurd hv (not_hasVote_empty _ _)
  | extend _ _ entry | extendSilently _ _ entry =>
    rw [extended_frame] at hv ⊢
    exact .inl ⟨hv, id⟩
  | complete height =>
    rw [complete_frame] at hv ⊢
    exact .inl ⟨hv, id⟩
  | park a header cert =>
    rw [park_frame] at hv ⊢
    exact .inl ⟨hv, id⟩
  | _ => exact .inl ⟨hv, id⟩

/-- The same for execution tallies, whose votes are not checked against the halted set. -/
theorem Leaf.hasExecVote (move : Leaf P A r os r') {height : Nat}
    (hv : (r'.execTally height).HasVote digest i) :
    ((r.execTally height).HasVote digest i ∧
        (r'.halted.contains i = true → r.halted.contains i = true)) ∨
      (i, digest) ∈ A ∧ r'.halted = r.halted ∧ ∃ a header, a.validatorIndex = i ∧ P.attest r a ∧
        a.epoch = r.epoch ∧ a.verify r.committee = .ok () ∧
        r.blocks.get? a.blockHash = some (a.view, header) ∧ header.height = a.height ∧
        ¬ (r.execTally a.height).Conflicts a.digest a.validatorIndex := by
  cases move with
  | attest a header policy epoch verified known block high fresh =>
    rw [execTally_attested] at hv
    split_ifs at hv
    · rcases hasVote_add.1 hv with old | ⟨rfl, rfl⟩
      · exact .inl ⟨old, id⟩
      · exact .inr ⟨known, rfl, a, header, rfl, policy, epoch, verified, block, high, fresh⟩
    · exact .inl ⟨hv, id⟩
  | halt j =>
    rw [execTally_halt, hasVote_purge] at hv
    exact .inl ⟨hv.1, fun halted => halted_insert halted hv.2⟩
  | extend _ _ entry | extendSilently _ _ entry =>
    have before := complete_hasVote hv
    rw [extended_frame]
    exact .inl ⟨before, id⟩
  | complete n =>
    have before := complete_hasVote hv
    rw [complete_frame]
    exact .inl ⟨before, id⟩
  | park a header cert =>
    rw [park_frame] at hv ⊢
    exact .inl ⟨hv, id⟩
  | accept kind => cases kind <;> exact .inl ⟨hv, id⟩
  | _ => exact .inl ⟨hv, id⟩

/-! ## Frames -/

/-- What no step changes: the identity of the replica and its epoch. -/
structure SameIdentity (r r' : MinimmitReplica C) : Prop where
  epoch : r'.epoch = r.epoch
  committee : r'.committee = r.committee
  selfIndex : r'.selfIndex = r.selfIndex
  signer : r'.signer = r.signer
  genesisHash : r'.genesisHash = r.genesisHash

theorem SameIdentity.refl (r : MinimmitReplica C) : SameIdentity r r := ⟨rfl, rfl, rfl, rfl, rfl⟩

theorem SameIdentity.trans {r'' : MinimmitReplica C} (h : SameIdentity r r')
    (h' : SameIdentity r' r'') : SameIdentity r r'' :=
  ⟨h'.1.trans h.1, h'.2.trans h.2, h'.3.trans h.3, h'.4.trans h.4, h'.5.trans h.5⟩

theorem SameIdentity.complete (r : MinimmitReplica C) (height : Nat) :
    SameIdentity r (r.tryCompleteFinality height).1 := by
  rw [complete_frame]
  exact ⟨rfl, rfl, rfl, rfl, rfl⟩

theorem Leaf.sameIdentity (h : Leaf P A r os r') : SameIdentity r r' := by
  cases h with
  | extend view tip entry | extendSilently view tip entry =>
    rw [extended_frame]
    exact ⟨rfl, rfl, rfl, rfl, rfl⟩
  | complete height => exact SameIdentity.complete _ _
  | park a header cert =>
    rw [park_frame]
    exact ⟨rfl, rfl, rfl, rfl, rfl⟩
  | _ => exact ⟨rfl, rfl, rfl, rfl, rfl⟩

theorem Performs.sameIdentity (h : Performs P A r x) : SameIdentity r x.1 :=
  Moves.invariant (I := fun s => SameIdentity r s.1)
    (fun _ _ _ hs move => hs.trans move.1.sameIdentity) (SameIdentity.refl r) h

theorem complete_blocks (r : MinimmitReplica C) (height : Nat) :
    (r.tryCompleteFinality height).1.blocks = r.blocks := by
  rw [complete_frame]

/-! ## Readiness -/

/-- A buffered proposal passed the stateless checks. -/
structure ProposalChecked (A : Set (Nat × C.Hash)) (committee : MinimmitCommittee C)
    (epoch selfIndex view : Nat) (p : Propose C) : Prop where
  view_eq : p.view = view
  epoch_eq : p.epoch = epoch
  not_bottom : p.view ≠ bottomView
  hash_eq : p.block.hash = p.blockHash
  parent_eq : p.block.parentHash = p.parent.parentHash
  proposer_lt : p.proposerIndex < committee.len
  signed : (p.proposerIndex, p.notarizeDigest) ∈ A ∨ p.proposerIndex = selfIndex

/-- A stored proof verifies at `M` and its signatures are known. -/
def ProofChecked (A : Set (Nat × C.Hash)) (committee : MinimmitCommittee C) (epoch view : Nat) :
    Proof C → Prop
  | .notarization n => n.view = view ∧ n.epoch = epoch ∧ n.verify committee = .ok () ∧
      Backed A n.cert
  | .nullification n => n.view = view ∧ n.epoch = epoch ∧ n.verify committee = .ok () ∧
      Backed A n.cert

/-- Buffered proposals passed their checks, tallied votes carry known signatures and the
stored proofs are verified. -/
structure Ready (A : Set (Nat × C.Hash)) (r : MinimmitReplica C) : Prop where
  pending : ∀ view p, r.pendingProposals.get? view = some p →
    ProposalChecked A r.committee r.epoch r.selfIndex view p
  votes : ∀ kind view candidate j, (r.tally kind view).HasVote candidate j →
    j < r.committee.len ∧ (j, voteDigest kind r.epoch view candidate) ∈ A ∧
      (kind = .nullify → candidate = nullifyDigest C r.epoch view)
  execs : ∀ height digest j, (r.execTally height).HasVote digest j → (j, digest) ∈ A
  proofs : ∀ view proof, r.proofs.get? view = some proof →
    ProofChecked A r.committee r.epoch view proof

theorem ProposalChecked.mono {selfIndex : Nat}
    (h : ProposalChecked A committee epoch selfIndex view p) (sub : A ⊆ A') :
    ProposalChecked A' committee epoch selfIndex view p :=
  { h with signed := h.signed.imp_left fun known => sub known }

theorem ProofChecked.mono {proof : Proof C}
    (h : ProofChecked A committee epoch view proof) (sub : A ⊆ A') :
    ProofChecked A' committee epoch view proof := by
  cases proof with
  | notarization n | nullification n => exact ⟨h.1, h.2.1, h.2.2.1, h.2.2.2.mono sub⟩

theorem Ready.mono (h : Ready A r) (sub : A ⊆ A') : Ready A' r where
  pending view p hp := (h.pending view p hp).mono sub
  votes kind view candidate j hv :=
    let ⟨member, known, digest⟩ := h.votes kind view candidate j hv
    ⟨member, sub known, digest⟩
  execs height digest j hv := sub (h.execs height digest j hv)
  proofs view proof hp := (h.proofs view proof hp).mono sub

theorem Leaf.ready (h : Leaf P A r os r') (ready : Ready A r) :
    Ready (A ∪ releasedBy os) r' := by
  have grown : Ready (A ∪ releasedBy os) r := ready.mono Set.subset_union_left
  have same := h.sameIdentity
  have votes : ∀ kind view candidate j, (r'.tally kind view).HasVote candidate j →
      j < r'.committee.len ∧ (j, voteDigest kind r'.epoch view candidate) ∈ A ∪ releasedBy os ∧
        (kind = .nullify → candidate = nullifyDigest C r'.epoch view) := by
    intro kind view candidate j hv
    rw [same.committee, same.epoch]
    rcases h.hasVote hv with ⟨old, -⟩ | ⟨-, member, known, digest⟩
    · exact grown.votes kind view candidate j old
    · exact ⟨member, .inl known, digest⟩
  have execs : ∀ height digest j, (r'.execTally height).HasVote digest j →
      (j, digest) ∈ A ∪ releasedBy os := by
    intro height digest j hv
    rcases h.hasExecVote hv with ⟨old, -⟩ | ⟨known, -⟩
    · exact grown.execs height digest j old
    · exact .inl known
  cases h with
  | storeNotarization n _ epoch verified _ backed
  | storeNullification n _ epoch verified _ backed =>
    refine ⟨grown.pending, votes, execs, fun view proof hp => ?_⟩
    simp only [MinimmitReplica.storeNotarization, get?_insert] at hp
    split_ifs at hp with same
    · cases hp
      exact ⟨same.symm, epoch, verified, backed.mono Set.subset_union_left⟩
    · exact grown.proofs view proof hp
  | dismiss | learn | cast =>
    refine ⟨fun v p hp => grown.pending v p ?_, votes, execs, grown.proofs⟩
    simp only [learned, get?_erase] at hp
    split_ifs at hp
    exact hp
  | buffer p epoch bottom _ _ member hash parent signed =>
    refine ⟨fun v q hq => ?_, votes, execs, grown.proofs⟩
    simp only [bufferProposal, get?_insert] at hq
    split_ifs at hq with same
    · cases hq
      exact ⟨same.symm, epoch, bottom, hash, parent, member, signed.imp_left .inl⟩
    · exact grown.pending v q hq
  | settle view tip =>
    refine ⟨grown.pending, votes, execs, fun v proof hp => ?_⟩
    simp only [prune, get?_filter, filter_eq_some_iff] at hp
    exact grown.proofs v proof hp.1
  | extend _ _ entry | extendSilently _ _ entry =>
    rw [extended_frame] at votes execs ⊢
    exact ⟨grown.pending, votes, execs, grown.proofs⟩
  | complete height =>
    rw [complete_frame] at votes execs ⊢
    exact ⟨grown.pending, votes, execs, grown.proofs⟩
  | park a header cert =>
    rw [park_frame] at votes execs ⊢
    exact ⟨grown.pending, votes, execs, grown.proofs⟩
  | _ => exact ⟨grown.pending, votes, execs, grown.proofs⟩

theorem Performs.ready (h : Performs P A r x) (ready : Ready A r) :
    Ready (A ∪ releasedBy x.2) x.1 :=
  Moves.invariant (I := fun s => Ready s.2 s.1)
    (fun s os s' hs move => by
      rw [move.2]
      exact move.1.ready hs) ready h

theorem Performs.readyAfter (h : Performs P A r (r', [])) (ready : Ready A r) : Ready A r' := by
  have after := h.ready ready
  rwa [releasedBy_nil, Set.union_empty] at after

/-! ## View entry and finality -/

variable (r : MinimmitReplica C)

theorem viewEntryEffects_notes (view : Nat) : ∀ o ∈ r.viewEntryEffects view, IsNote o := by
  refine forall_mem_cons.2 ⟨trivial, fun o ho => ?_⟩
  split at ho
  · split at ho
    · rw [mem_singleton.1 ho]
      trivial
    · cases ho
  · cases ho

theorem enterView_performs (next : Nat) : Performs P A r (r.enterView next) := by
  unfold enterView
  split_ifs with stale
  · exact .idle
  · exact .after (.enter next (not_le.1 stale)) (.leaf (.note _ (viewEntryEffects_notes _ _)))

theorem complete_performs (height : Nat) : Performs P A r (r.tryCompleteFinality height) :=
  .leaf (.complete height)

variable {r} {header : BlockHeader C} {result : Tally C × Except VoteError (TallyOutcome C)}
  {cert : Certificate C} {votes : OrdMap Nat (Tally C)} {c : MinimmitCommittee C}

theorem walkPath_onLine {fuel : Nat} {cursor : C.Hash} {path found : List (Nat × Nat × C.Hash)}
    (h : r.walkPath fuel cursor path = some found) (reach : Reaches r.blocks tip cursor)
    (line : ∀ e ∈ path, OnLine r.blocks tip e) : ∀ e ∈ found, OnLine r.blocks tip e := by
  induction fuel generalizing cursor path with
  | zero => cases h
  | succ fuel ih =>
    rw [walkPath] at h
    split_ifs at h with known
    · cases h
      exact line
    · cases hblock : r.blocks.get? cursor with
      | none => simp [hblock] at h
      | some entry =>
        obtain ⟨blockView, block⟩ := entry
        simp only [hblock] at h
        exact ih h (reach.parent hblock) (forall_mem_cons.2 ⟨⟨reach, block, hblock, rfl⟩, line⟩)

/-- The accumulated effects only prefix the result of the loop. -/
theorem extendChain_accumulate (r : MinimmitReplica C) (path : List (Nat × Nat × C.Hash))
    (acc : List (Output C)) :
    r.extendChain path acc =
      ((r.extendChain path []).1, (r.extendChain path []).2.map (acc ++ ·)) := by
  induction path generalizing r acc with
  | nil => simp [extendChain]
  | cons entry rest ih =>
    simp only [extendChain]
    split_ifs
    · rfl
    · rw [ih]
    · rw [ih, ih _ ([] ++ _)]
      simp [Option.map_map, Function.comp_def]

theorem extendChain_cons {entry : Nat × Nat × C.Hash} (rest : List (Nat × Nat × C.Hash))
    (agrees : (r.chain.get? entry.1).any (· ≠ entry.2.2) = false)
    (fresh : r.finality.get? entry.1 = none) :
    r.extendChain (entry :: rest) [] =
      (((r.extended entry.1 entry.2.1 entry.2.2).1.extendChain rest []).1,
        ((r.extended entry.1 entry.2.1 entry.2.2).1.extendChain rest []).2.map
          (.effect (.consensusFinal entry.2.2 entry.1) ::
            (r.extended entry.1 entry.2.1 entry.2.2).2 ++ ·)) := by
  obtain ⟨height, blockView, block⟩ := entry
  have absent : r.finality.contains height = false := contains_eq_false.2 fresh
  rw [extendChain, if_neg (by rw [agrees]; exact Bool.false_ne_true),
    if_neg (by rw [absent]; exact Bool.false_ne_true), extendChain_accumulate]
  rfl

theorem extended_released (height blockView : Nat) (block : C.Hash) :
    releasedBy (.effect (.consensusFinal block height) ::
      (r.extended height blockView block).2) = ∅ := by
  unfold extended
  rcases (r.recorded height blockView block).tryCompleteFinality_cases height with
    ⟨root, cert, view, b, -, -, eq⟩ | ⟨-, eq⟩ <;> rw [eq] <;> simp [released]

theorem extendChain_performs {path : List (Nat × Nat × C.Hash)}
    (cert : Certified A r.committee r.epoch view tip) (line : ∀ e ∈ path, OnLine r.blocks tip e) :
    Performs P A r ((r.extendChain path []).1, (r.extendChain path []).2.getD []) := by
  induction path generalizing r with
  | nil => exact .idle
  | cons entry rest ih =>
    have tail : ∀ e ∈ rest, OnLine r.blocks tip e := fun e he =>
      line e (mem_cons_of_mem _ he)
    by_cases conflict : (r.chain.get? entry.1).any (· ≠ entry.2.2) = true
    · have stop : r.extendChain (entry :: rest) [] = (r, none) := by
        rw [extendChain, if_pos conflict]
      rw [stop]
      exact .idle
    · have agrees := Bool.eq_false_iff.2 conflict
      by_cases known : r.finality.contains entry.1 = true
      · have skip : r.extendChain (entry :: rest) [] = r.extendChain rest [] := by
          rw [extendChain, if_neg conflict, if_pos known]
        rw [skip]
        exact ih cert tail
      · have fresh := contains_eq_false.1 (Bool.eq_false_iff.2 known)
        have same := SameIdentity.complete (r.recorded entry.1 entry.2.1 entry.2.2) entry.1
        have next := ih (r := (r.extended entry.1 entry.2.1 entry.2.2).1)
          (by rw [extended, same.epoch, same.committee]; exact cert)
          (by rw [extended, complete_blocks]; exact tail)
        have split := extendChain_cons rest agrees fresh
        cases result : ((r.extended entry.1 entry.2.1 entry.2.2).1.extendChain rest []).2 with
        | some outs =>
          have first : Performs P A r _ :=
            .leaf (.extend view tip entry cert (line entry mem_cons_self) fresh agrees)
          rw [result] at next
          have whole := first.trans (y := (_, outs)) (by
            rw [extended_released, Set.union_empty]
            exact next)
          rw [split, result]
          simpa using whole
        | none =>
          rw [result] at next
          rw [split, result]
          refine .after (.extendSilently view tip entry rest cert line fresh agrees ?_) next
          rw [split, result]
          rfl

theorem consensusFinalize_performs (cert : Certified A r.committee r.epoch view tip) :
    Performs P A r (r.consensusFinalize view tip) := by
  unfold consensusFinalize
  split_ifs with old
  · exact .idle
  · cases hwalk : r.walkPath (r.blocks.size + 1) tip [] with
    | none => exact .idle
    | some path =>
      have line := walkPath_onLine hwalk .refl (by simp)
      have extends_ := extendChain_performs (P := P) cert line
      have same := extends_.sameIdentity
      simp only
      cases hext : r.extendChain path [] with
      | mk r' result =>
        rw [hext] at extends_ same
        cases result with
        | none => exact extends_
        | some outs =>
          have settled : Leaf P (A ∪ releasedBy outs) r' []
              ({ r' with finalizedTip := (view, tip) }.prune (view - defaultViewHorizon)) := by
            refine .settle view tip ?_
            rw [same.epoch, same.committee]
            obtain ⟨c, verified, message, backed⟩ := cert
            exact ⟨c, verified, message, backed.mono Set.subset_union_left⟩
          have whole := Performs.trans (x := (r', outs)) extends_ (.leaf settled)
          simpa using whole

/-! ## Certificates -/

theorem verify_ok {m : C.Hash} {x : Except QuorumError Unit}
    (h : (if m ≠ digest then .error .digestMismatch else x.mapError CertError.quorum) = .ok ()) :
    m = digest ∧ x = .ok () := by
  split_ifs at h with mismatch
  refine ⟨not_not.1 mismatch, ?_⟩
  cases x with
  | ok u => rfl
  | error e => cases h

theorem notarization_verify_ok (h : n.verify c = .ok ()) :
    n.cert.message = n.digest ∧ c.verify n.cert .advance = .ok () :=
  verify_ok h

theorem nullification_verify_ok {n : Nullification C} (h : n.verify c = .ok ()) :
    n.cert.message = n.digest ∧ c.verify n.cert .advance = .ok () :=
  verify_ok h

theorem recordNotarization_performs (epoch : n.epoch = r.epoch)
    (verified : n.verify r.committee = .ok ())
    (agrees : r.proofConflicts n.view n.blockHash = false) (backed : Backed A n.cert) :
    Performs P A r (r.recordNotarization n formedHere) := by
  have announced : ∀ os : List (Output C), (∀ o ∈ os, IsNote o) →
      Performs P A r (r.storeNotarization n formedHere, os) := fun os notes =>
    .after (.storeNotarization n formedHere epoch verified agrees backed) (.leaf (.note os notes))
  have notes : ∀ isNew : Bool, ∀ o ∈ (if isNew then [.effect (.cancelTimer n.view)] else []) ++
      (if formedHere then [.effect (.broadcast (.notarization n))] else []),
      IsNote (o : Output C) := by
    intro isNew o ho
    cases isNew <;> cases formedHere <;> simp at ho
    · rw [ho]
      trivial
    · rw [ho]
      trivial
    · rcases ho with rfl | rfl <;> trivial
  unfold recordNotarization
  cases (!r.proofs.contains n.view) with
  | true =>
    exact (announced _ (notes true)).andThen (f := fun r => r.enterView (satAdd n.view 1))
      (enterView_performs _ _)
  | false =>
    cases (r.isFinalizeCert n.cert && !r.existingIsL n.view) with
    | true => exact announced _ (notes false)
    | false => exact .idle

theorem onNotarization_performs
    (known : n.epoch = r.epoch → n.verify r.committee = .ok () → Backed A n.cert) :
    Performs P A r (r.onNotarization n formedHere) := by
  unfold onNotarization
  split_ifs with bad conflict final finalizing
  · exact .idle
  all_goals
    obtain ⟨epoch, verified⟩ := not_or.1 bad
    have epoch := not_not.1 epoch
    have verified := not_not.1 verified
    have backed := known epoch verified
  · exact .leaf (.drop n epoch verified conflict final backed)
  · exact .idle
  all_goals
    have recorded : Performs P A r (r.recordNotarization n formedHere) :=
      recordNotarization_performs epoch verified (Bool.eq_false_iff.2 conflict) backed
  · have same := recorded.sameIdentity
    refine recorded.andThen (consensusFinalize_performs ⟨n.cert, ?_, ?_, ?_⟩)
    · rw [same.committee]
      simpa [isFinalizeCert] using finalizing
    · rw [same.epoch, ← epoch]
      exact (notarization_verify_ok verified).1
    · exact backed.mono Set.subset_union_left
  · exact recorded

theorem onNullification_performs {n : Nullification C}
    (known : n.epoch = r.epoch → n.verify r.committee = .ok () → Backed A n.cert) :
    Performs P A r (r.onNullification n formedHere) := by
  unfold onNullification
  split
  · exact .idle
  · rename_i bad
    split
    · exact .idle
    · rename_i present
      obtain ⟨epoch, verified⟩ := not_or.1 bad
      have stored := fun views => Leaf.storeNullification (P := P) n views (not_not.1 epoch)
        (not_not.1 verified) (contains_eq_false.1 (Bool.eq_false_iff.2 present))
        (known (not_not.1 epoch) (not_not.1 verified))
      refine Performs.andThen (.after (stored _) (.leaf (.note _ ?_))) (enterView_performs _ _)
      intro o ho
      cases formedHere <;> simp at ho
      · rw [ho]
        trivial
      · rcases ho with rfl | rfl <;> trivial

/-- A certificate is formed from the tally the replica keeps for the view. -/
theorem forms_of_bind {form : Tally C → Option (Certificate C)}
    (h : (votes.get? view).bind form = some cert) :
    form ((votes.get? view).getD ∅) = some cert := by
  obtain ⟨tally, found, formed⟩ := bind_eq_some_iff.1 h
  rwa [found]

/-- A certificate formed from known votes is backed. -/
theorem Ready.backed (kind : TallyKind) {level : ThresholdKind}
    (ready : Ready A r)
    (h : (r.tally kind view).tryForm r.committee candidate (voteDigest kind r.epoch view candidate)
      level = some cert) : Backed A cert := by
  obtain ⟨message, signers, -, -⟩ := tryForm_some h
  intro i hi
  rw [signers, mem_voters] at hi
  rw [message]
  exact (ready.votes kind view candidate i hi).2.1

theorem formNullification_performs (ready : Ready A r) (epoch view : Nat) :
    Performs P A r (r.formNullification epoch view) := by
  unfold formNullification
  cases hform : r.tryFormNullification view .advance with
  | none => exact .idle
  | some cert =>
    have backed := ready.backed .nullify (forms_of_bind hform)
    have formed : Leaf P A r _ r :=
      .form (.nullification view) _ _ cert (.nullification view cert hform)
    refine (Performs.leaf formed).andThen (onNullification_performs fun _ _ => ?_)
    exact backed.mono Set.subset_union_left

theorem formNotarization_performs (ready : Ready A r) (epoch view : Nat) (block : C.Hash) :
    Performs P A r (r.formNotarization epoch view block) := by
  unfold formNotarization
  cases hform : r.tryFormNotarization view block .advance with
  | none => exact .idle
  | some cert =>
    have backed := ready.backed .notarize (forms_of_bind hform)
    have formed : Leaf P A r _ r :=
      .form (.notarization view block) _ _ cert (.notarization view block cert hform)
    refine (Performs.leaf formed).andThen (onNotarization_performs fun _ _ => ?_)
    exact backed.mono Set.subset_union_left

/-! ## Votes -/

theorem insert_tally_self {key : Nat} (filled : (votes.get? key).getD ∅ ≠ ∅) :
    votes.insert key ((votes.get? key).getD ∅) = votes := by
  cases found : votes.get? key with
  | none =>
    rw [found] at filled
    exact absurd rfl filled
  | some tally => exact insert_get?_self found

theorem recordAdmission_performs {quota : Bool} (window : r.viewFloor ≤ view)
    (live : r.halted.contains j = false) (member : j < r.committee.len)
    (known : (j, voteDigest kind r.epoch view candidate) ∈ A)
    (digest : kind = .nullify → candidate = nullifyDigest C r.epoch view)
    (room : quota = true → (r.perValidator.get? j).getD 0 < r.voteQuota)
    (admission : (r.tally kind view).Admission j candidate signature quota result) :
    Performs P A r ((r.recordAdmission kind view j result).1, []) := by
  have present : r.tally kind view ≠ ∅ →
      r.setVotes kind ((r.votesOf kind).insert view (r.tally kind view)) = r := fun filled => by
    rw [tally, insert_tally_self filled, setVotes_self]
  cases admission with
  | equivocated first firstSignature seen =>
    simp only [recordAdmission, present (ne_empty_of_seen seen)]
    exact .leaf (.halt j)
  | duplicate voted =>
    simp only [recordAdmission, present (ne_empty_of_hasVote voted)]
    exact .idle
  | overQuota =>
    simp only [recordAdmission]
    cases hget : (r.votesOf kind).get? view with
    | none =>
      have fresh : r.tally kind view = ∅ := by simp [tally, hget]
      rw [fresh, if_pos (show (∅ : Tally C).isEmpty = true from rfl), erase_insert_of_absent _ hget,
        setVotes_self]
      exact .idle
    | some t =>
      have same : r.tally kind view = t := by simp [tally, hget]
      rw [insert_get?_self (by rw [hget, same])]
      split_ifs with empty
      · exact .leaf (.dropEmpty kind view empty)
      · rw [setVotes_self]
        exact .idle
  | accepted _ new =>
    exact .leaf (.accept kind view j candidate signature window live member known digest
      (room rfl) new)

theorem admitVote_performs
    (known : ∀ key, r.committee.cachedKey j = some key →
      C.verify key (voteDigest kind epoch view candidate) signature = true →
      (j, voteDigest kind epoch view candidate) ∈ A)
    (digest : kind = .nullify → candidate = nullifyDigest C epoch view) :
    Performs P A r ((r.admitVote kind epoch view j candidate signature).1, []) := by
  unfold admitVote
  split_ifs with other window live
  · exact .idle
  · exact .idle
  · exact .idle
  · have epochs : epoch = r.epoch := not_not.1 other
    subst epochs
    cases hkey : r.committee.cachedKey j with
    | none => exact .idle
    | some key =>
      simp only
      split_ifs with valid
      · exact recordAdmission_performs (by omega) (Bool.eq_false_iff.2 live)
          (MinimmitCommittee.lt_len_of_cachedKey hkey) (known key hkey valid) digest
          of_decide_eq_true (admit_admission _ _ _ _ _)
      · exact .idle

/-- Every signature in the message that a handler would accept is known. A proposal of
the replica itself may carry its node's own signature. -/
def Authentic (A : Set (Nat × C.Hash)) (r : MinimmitReplica C) : ConsensusMessage C → Prop
  | .propose p => ∀ key, r.committee.cachedKey p.proposerIndex = some key →
      C.verify key p.notarizeDigest p.notarizeSig = true →
      (p.proposerIndex, p.notarizeDigest) ∈ A ∨ p.proposerIndex = r.selfIndex
  | .notarize n => ∀ key, r.committee.cachedKey n.validatorIndex = some key →
      C.verify key n.digest n.signature = true → (n.validatorIndex, n.digest) ∈ A
  | .nullify n => ∀ key, r.committee.cachedKey n.validatorIndex = some key →
      C.verify key n.digest n.signature = true → (n.validatorIndex, n.digest) ∈ A
  | .notarization n => r.committee.verify n.cert .advance = .ok () → Backed A n.cert
  | .nullification n => r.committee.verify n.cert .advance = .ok () → Backed A n.cert
  | .execAttest a => a.verify r.committee = .ok () → (a.validatorIndex, a.digest) ∈ A

theorem admitNullify_performs {n : Nullify C} (known : Authentic A r (.nullify n)) :
    Performs P A r ((r.admitNullify n).1, []) :=
  admitVote_performs known fun _ => rfl

theorem admitNotarize_performs {n : Notarize C} (known : Authentic A r (.notarize n)) :
    Performs P A r ((r.admitNotarize n).1, []) :=
  admitVote_performs known fun h => by cases h

/-- Continue with the state that silent moves lead to. -/
theorem Performs.silent (first : Performs P A r (r', [])) (second : Performs P A r' x) :
    Performs P A r x := by
  have := first.trans (y := x) (by simpa using second)
  simpa using this

theorem maybeNullify_performs (ready : Ready A r) (view : Nat) :
    Performs P A r (r.maybeNullifyByContradiction view) := by
  unfold maybeNullifyByContradiction
  split_ifs with guard
  · exact .idle
  · obtain ⟨current, open_⟩ := not_or.1 guard
    have current := not_not.1 current
    subst current
    split
    · exact .idle
    · rename_i ours hours
      split_ifs with light
      · exact .idle
      · split
        · exact .idle
        · rename_i signer hsigner
          have cast : Performs P A r ({ r with nullified := true },
              [.effect (.broadcast (.nullify (r.nullifyVote signer r.view)))]) :=
            .leaf (.contradict signer ours hsigner hours (Bool.eq_false_iff.2 open_)
              (not_lt.1 light))
          have admitted := admitNullify_performs (P := P)
            (r := { r with nullified := true }) (n := r.nullifyVote signer r.view)
            (A := A ∪ releasedBy [.effect (.broadcast (.nullify (r.nullifyVote signer r.view)))])
            (fun _ _ _ => .inr (by simp [released]))
          have ready' := admitted.readyAfter (cast.ready ready)
          refine cast.andThen ?_
          split
          · rename_i r' e heq
            rwa [heq] at admitted
          · rename_i r' outcome heq
            rw [heq] at admitted ready'
            exact admitted.silent (formNullification_performs ready' _ _)

/-- After a vote was admitted a certificate may be formed, and the replica looks for a
contradiction. -/
theorem Performs.tallied {form : Response C}
    (admitted : Performs P A r (r', [])) (ready : Ready A r)
    (forms : Ready A r' → Performs P A r' form) (view : Nat) :
    Performs P A r (form.andThen fun r => r.maybeNullifyByContradiction view) := by
  have ready' := admitted.readyAfter ready
  have formed := forms ready'
  exact admitted.silent (formed.andThen (maybeNullify_performs (formed.ready ready') view))

theorem onNullify_performs {n : Nullify C} (ready : Ready A r)
    (known : Authentic A r (.nullify n)) : Performs P A r (r.onNullify n) := by
  have admitted := admitNullify_performs (P := P) known
  unfold onNullify
  split
  · rename_i r' e heq
    rwa [heq] at admitted
  · rename_i r' outcome heq
    rw [heq] at admitted
    exact admitted.tallied ready (fun ready' => formNullification_performs ready' _ _) n.view

theorem onNotarize_performs {n : Notarize C} (ready : Ready A r)
    (known : Authentic A r (.notarize n)) : Performs P A r (r.onNotarize n) := by
  have admitted := admitNotarize_performs (P := P) known
  unfold onNotarize
  split
  · rename_i r' e heq
    rwa [heq] at admitted
  · rename_i r' first firstSignature heq
    rw [heq] at admitted
    exact admitted.silent (.leaf (.note _ (forall_mem_singleton.2 trivial)))
  · rename_i r' outcome _ heq
    rw [heq] at admitted
    exact admitted.tallied ready (fun ready' => formNotarization_performs ready' _ _ _) n.view

/-! ## The reactor -/

/-- The input respects the known signatures and the policy. -/
def Admissible (P : Policy C) (A : Set (Nat × C.Hash)) (r : MinimmitReplica C) : Input C → Prop
  | .message m => Authentic A r m ∧ ∀ a, m = .execAttest a → P.attest r a
  | .proposalVerified view blockHash valid => valid = true →
      ∀ p, r.pendingProposals.get? view = some p → p.blockHash = blockHash → P.verdict r view p
  | .timerFired _ => True
  | .tick => True

theorem onTimerFired_performs (ready : Ready A r) (view : Nat) :
    Performs P A r (r.onTimerFired view) := by
  unfold onTimerFired
  split_ifs with guard
  · exact .idle
  · obtain ⟨current, idle_⟩ := not_or.1 guard
    obtain ⟨silent, open_⟩ := not_or.1 idle_
    have current := not_not.1 current
    subst current
    split
    · exact .idle
    · rename_i signer hsigner
      have cast : Performs P A r ({ r with nullified := true },
          [.effect (.broadcast (.nullify (r.nullifyVote signer r.view)))]) :=
        .leaf (.timeout signer hsigner (not_isSome_iff_eq_none.1 silent)
          (Bool.eq_false_iff.2 open_))
      refine cast.andThen (onNullify_performs (cast.ready ready) fun _ _ _ => .inr ?_)
      simp [released]

theorem onTick_performs (r : MinimmitReplica C) : Performs P A r r.onTick := by
  refine .after (.redisseminate _) (.leaf (.note _ ?_))
  intro o ho
  obtain ⟨e, -, rfl⟩ := mem_map.1 ho
  cases e.2 <;> trivial

theorem finalizeLate_performs (ready : Ready A r) (view : Nat) (blockHash : C.Hash) :
    Performs P A r (r.finalizeLate view blockHash) := by
  unfold finalizeLate
  split
  · rename_i value hproof
    split_ifs with final
    · obtain ⟨sameBlock, isL⟩ := final
      obtain ⟨sameView, epoch, verified, backed⟩ := ready.proofs view _ hproof
      refine consensusFinalize_performs
        ⟨value.cert, by simpa [isFinalizeCert] using isL, ?_, backed⟩
      rw [(notarization_verify_ok verified).1, Notarization.digest, epoch, sameView, sameBlock]
    · exact .idle
  · exact .idle

/-- After the broadcast, the proposer's vote and the replica's own enter the tally. -/
theorem castNotarize_performs {l : MinimmitReplica C}
    (checked : ProposalChecked A l.committee l.epoch l.selfIndex l.view p)
    (cast : Performs P A r ({ l with notarized := some p.blockHash },
      [.effect (.broadcast (if p.proposerIndex = l.selfIndex then .propose p
          else .notarize ⟨l.epoch, l.view, p.blockHash, l.selfIndex, signature⟩))]))
    (ready : Ready A r) : Performs P A r (l.castNotarize l.view p signature) := by
  have ready' := cast.ready ready
  unfold castNotarize
  by_cases own : p.proposerIndex = l.selfIndex
  · simp only [if_pos own] at cast ready' ⊢
    refine cast.andThen (onNotarize_performs ready' fun _ _ _ => .inr ?_)
    simp [released, Notarize.digest, Propose.notarizeDigest]
  · simp only [if_neg own] at cast ready' ⊢
    have tallied := cast.andThen (f := fun r => r.onNotarize
      ⟨p.epoch, p.view, p.blockHash, p.proposerIndex, p.notarizeSig⟩)
      (onNotarize_performs ready' fun _ _ _ => .inl (checked.signed.resolve_right own))
    refine tallied.andThen (onNotarize_performs (tallied.ready ready) fun _ _ _ => .inr ?_)
    simp [released, Notarize.digest]

theorem onProposalVerified_performs (ready : Ready A r) {blockHash : C.Hash} {valid : Bool}
    (admissible : Admissible P A r (.proposalVerified view blockHash valid)) :
    Performs P A r (r.onProposalVerified view blockHash valid) := by
  unfold onProposalVerified
  split
  · exact .idle
  · rename_i p hp
    have checked := ready.pending view p hp
    simp only
    split_ifs with refused past stale
    · exact .leaf (.dismiss view)
    all_goals
      obtain ⟨same, accepted⟩ := not_or.1 refused
      have same := not_not.1 same
      have accepted : valid = true := by simpa using accepted
      subst same
      have verdict := admissible accepted p hp rfl
      have learn : Leaf P A r [] (r.learned view p) := .learn view p hp verdict
    · have ready' := (Performs.leaf learn).readyAfter ready
      exact .after learn (finalizeLate_performs ready' view p.blockHash)
    · exact .leaf learn
    · split
      · exact .leaf learn
      · rename_i signature hsig
        have current := not_not.1 past
        subst current
        obtain ⟨silent, rest⟩ := not_or.1 stale
        obtain ⟨open_, linked⟩ := not_or.1 rest
        have cast : Performs P A r _ :=
          .leaf (.cast p signature hp verdict (not_isSome_iff_eq_none.1 silent)
            (Bool.eq_false_iff.2 open_) (Bool.eq_true_of_not_eq_false linked))
        exact castNotarize_performs checked cast ready

theorem onPropose_performs (known : Authentic A r (.propose p)) :
    Performs P A r (r.onPropose p) := by
  unfold onPropose
  split
  · exact .idle
  rename_i bad
  simp only [not_or, not_not, not_lt] at bad
  obtain ⟨epoch, bottom, view, leader, hash, parent⟩ := bad
  split
  · exact .idle
  rename_i key hkey
  split
  · exact .idle
  rename_i forged
  have valid : C.verify key p.notarizeDigest p.notarizeSig = true := by
    simpa using (not_or.1 forged).1
  split
  · rename_i first hfirst
    split
    · exact .idle
    · exact .after (.halt p.proposerIndex)
        (.leaf (.note _ (forall_mem_singleton.2 trivial)))
  rename_i fresh
  have buffered : Performs P A r (.idle (r.bufferProposal p)) :=
    .leaf (.buffer p epoch bottom view leader (MinimmitCommittee.lt_len_of_cachedKey hkey)
      hash parent (known key hkey valid) fresh)
  split
  · split
    · split
      · exact buffered
      · exact .idle
    · exact .idle
  · split
    · exact .idle
    · exact buffered

theorem formExecution_performs (epoch : a.epoch = r.epoch)
    (block : r.blocks.get? a.blockHash = some (a.view, header))
    (height : header.height = a.height) : Performs P A r (r.formExecution a) := by
  unfold formExecution
  simp only
  split
  · exact .idle
  · rename_i cert hform
    have formed : Performs P A r (r, [r.formation (.execution a.height a.digest)
        (r.execTally a.height) a.digest cert]) :=
      .leaf (.form _ _ _ cert (.execution a.height a.digest cert hform))
    split
    · exact formed
    · rename_i verified
      exact formed.andThen (.after (.park a header cert epoch block height hform
        (not_not.1 verified)) (complete_performs _ _))

theorem recordAttest_performs (policy : P.attest r a) (epoch : a.epoch = r.epoch)
    (verified : a.verify r.committee = .ok ()) (known : (a.validatorIndex, a.digest) ∈ A)
    (block : r.blocks.get? a.blockHash = some (a.view, header))
    (height : header.height = a.height)
    (admission : (r.execTally a.height).Admission a.validatorIndex a.digest
      a.signature true result) : Performs P A r (r.recordAttest a result) := by
  have present : r.execTally a.height ≠ ∅ →
      { r with execVotes := r.execVotes.insert a.height (r.execTally a.height) } = r :=
    fun filled => by rw [execTally, insert_tally_self filled]
  cases admission with
  | equivocated first firstSignature seen =>
    simp only [recordAttest, present (ne_empty_of_seen seen)]
    exact .leaf (.halt a.validatorIndex)
  | duplicate voted =>
    simp only [recordAttest, present (ne_empty_of_hasVote voted)]
    exact formExecution_performs epoch block height
  | accepted fresh =>
    exact .after (.attest a header policy epoch verified known block height fresh)
      (formExecution_performs epoch block height)

theorem onExecAttest_performs
    (known : a.verify r.committee = .ok () → (a.validatorIndex, a.digest) ∈ A)
    (policy : P.attest r a) : Performs P A r (r.onExecAttest a) := by
  unfold onExecAttest
  split
  · exact .idle
  rename_i bad
  obtain ⟨epoch, verified⟩ := not_or.1 bad
  have verified := not_not.1 verified
  split
  · exact .idle
  rename_i view header hblock
  split
  · exact .idle
  rename_i mismatch
  obtain ⟨sameView, sameHeight⟩ := not_or.1 mismatch
  rw [not_not.1 sameView] at hblock
  exact recordAttest_performs policy (not_not.1 epoch) verified (known verified) hblock
    (not_not.1 sameHeight) (admit_admission _ _ _ _ _)

/-- Every step of a ready replica on an admissible input is a sequence of moves. -/
theorem step_performs (ready : Ready A r) {input : Input C} (admissible : Admissible P A r input) :
    Performs P A r (r.step input) := by
  cases input with
  | timerFired view => exact onTimerFired_performs ready view
  | tick => exact onTick_performs r
  | proposalVerified view blockHash valid => exact onProposalVerified_performs ready admissible
  | message m =>
    obtain ⟨authentic, policy⟩ := admissible
    cases m with
    | propose p => exact onPropose_performs authentic
    | notarize n => exact onNotarize_performs ready authentic
    | nullify n => exact onNullify_performs ready authentic
    | notarization n =>
      exact onNotarization_performs fun _ verified =>
        authentic (notarization_verify_ok verified).2
    | nullification n =>
      exact onNullification_performs fun _ verified =>
        authentic (nullification_verify_ok verified).2
    | execAttest a => exact onExecAttest_performs authentic (policy a rfl)

end MinimmitReplica

end Dexos.Minimmit
