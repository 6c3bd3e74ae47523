import Dexos.Minimmit.Protocol
import Dexos.Minimmit.VoteOnce

/-!
# A replica follows the protocol

The signatures that exist in a network are read as protocol votes, and every move of a
correct replica is a step of the abstract protocol, or leaves the votes as they are. The
link between the two levels is `Tracks`: the vote flags of a replica record exactly what
its validator signed in the current view.
-/

namespace Dexos.Minimmit

open Foundations List OrdMap MinimmitCommittee

variable {C : Crypto} {A A' : Set (Nat × C.Hash)} {epoch : Nat} {view : Nat}

/-! ## Signatures as votes -/

/-- The digest a vote signs. -/
def Vote.digest (epoch : Nat) : Vote C.Hash → C.Hash
  | .notarize view block => notarizeDigest epoch view block
  | .nullify view => nullifyDigest C epoch view

theorem Vote.digest_injective (free : C.CollisionFree) (epoch : Nat) :
    Function.Injective (Vote.digest (C := C) epoch) := by
  intro x y same
  cases x with
  | notarize v c =>
    cases y with
    | notarize v' c' =>
      obtain ⟨-, rfl, rfl⟩ := free.notarize_inj same
      rfl
    | nullify v' => exact absurd same free.notarize_ne_nullify
  | nullify v =>
    cases y with
    | notarize v' c' => exact absurd same.symm free.notarize_ne_nullify
    | nullify v' =>
      obtain ⟨-, rfl⟩ := free.nullify_inj same
      rfl

/-- The votes of an epoch among the known signatures. -/
def signedVotes (epoch : Nat) (A : Set (Nat × C.Hash)) : Set (Nat × Vote C.Hash) :=
  {x | (x.1, x.2.digest epoch) ∈ A}

theorem mem_signedVotes {x : Nat × Vote C.Hash} :
    x ∈ signedVotes epoch A ↔ (x.1, x.2.digest epoch) ∈ A :=
  Iff.rfl

theorem votes_mono (sub : A ⊆ A') : signedVotes epoch A ⊆ signedVotes epoch A' := fun _ hx => sub hx

theorem votes_union (A A' : Set (Nat × C.Hash)) :
    signedVotes epoch (A ∪ A') = signedVotes epoch A ∪ signedVotes epoch A' := rfl

theorem votes_singleton (free : C.CollisionFree) (i : Nat) (vote : Vote C.Hash) :
    signedVotes epoch {(i, vote.digest epoch)} = {(i, vote)} := by
  ext ⟨j, vote'⟩
  rw [mem_signedVotes, Set.mem_singleton_iff, Set.mem_singleton_iff, Prod.mk.injEq, Prod.mk.injEq]
  exact and_congr_right fun _ => (Vote.digest_injective free epoch).eq_iff

/-- The digest is no vote of the epoch. -/
def NoVote (epoch : Nat) (digest : C.Hash) : Prop := ∀ vote :
    Vote C.Hash, vote.digest epoch ≠ digest

theorem votes_of_noVote {i : Nat} {digest : C.Hash} (h : NoVote epoch digest) :
    signedVotes epoch {(i, digest)} = ∅ := by
  ext ⟨j, vote⟩
  rw [mem_signedVotes, Set.mem_singleton_iff, Prod.mk.injEq]
  exact ⟨fun eq => absurd eq.2 (h vote), fun empty => empty.elim⟩

theorem noVote_authDigest (free : C.CollisionFree) (p : Propose C) : NoVote epoch p.authDigest := by
  intro vote
  cases vote with
  | notarize v c => exact free.notarize_ne_propose
  | nullify v => exact free.nullify_ne_propose

theorem noVote_execDigest (free : C.CollisionFree) (a : ExecAttest C) : NoVote epoch a.digest := by
  intro vote
  cases vote with
  | notarize v c => exact free.notarize_ne_exec
  | nullify v => exact free.nullify_ne_exec

theorem released_eq_empty {o : Output C} (h : ballot? o = none) : released o = ∅ := by
  cases o with
  | formed f => rfl
  | dropped n => rfl
  | effect e =>
    cases e with
    | broadcast m =>
      cases m with
      | propose => cases h
      | notarize => cases h
      | nullify => cases h
      | notarization => rfl
      | nullification => rfl
      | execAttest => rfl
    | armTimer => rfl
    | cancelTimer => rfl
    | needProposal => rfl
    | consensusFinal => rfl
    | finalized => rfl
    | slash => rfl

theorem releasedBy_eq_empty {os : List (Output C)} (h : ∀ o ∈ os, ballot? o = none) :
    releasedBy os = ∅ := by
  ext x
  constructor
  · rintro ⟨o, ho, hx⟩
    rwa [released_eq_empty (h o ho)] at hx
  · exact fun empty => empty.elim

/-! ## The deployment -/

/-- A committee in one epoch and the validators that run the replica. -/
structure Deployment (C : Crypto) where
  committee : MinimmitCommittee C
  epoch : Nat
  genesisHash : C.Hash
  correct : Finset Nat
  faulty_le : committee.weightOf (Finset.range committee.len \ correct) ≤ committee.byzantineWeight

namespace Deployment

variable (d : Deployment C) (Q : BlockHeader C → Prop) {cert : Certificate C}

/-- The protocol the deployment runs, when correct nodes accept only headers that satisfy
`Q`. -/
def protocol : Protocol Nat C.Hash where
  members := Finset.range d.committee.len
  weight := d.committee.weightAt
  correct := d.correct
  faultBound := d.committee.byzantineWeight
  faulty_le := d.faulty_le
  sized := (d.committee.sizing).trans d.committee.weightOf_range.ge
  genesis := d.genesisHash
  link := fun block parent => ∃ header : BlockHeader C,
    header.hash = block ∧ header.parentHash = parent ∧ Q header

variable {d Q} {block : C.Hash}

theorem protocol_advance : (d.protocol Q).advance = d.committee.advanceThreshold :=
  d.committee.advanceThreshold_eq.symm

theorem protocol_finalize : (d.protocol Q).finalize = d.committee.finalizeThreshold := by
  rw [d.committee.finalizeThreshold_eq, ← d.committee.weightOf_range]
  rfl

/-- A verified certificate over a known vote is a support of that vote. -/
theorem supports_of_cert {kind : ThresholdKind} (vote : Vote C.Hash)
    (verified : d.committee.verify cert kind = .ok ())
    (message : cert.message = vote.digest d.epoch) (backed : Backed A cert) :
    (d.protocol Q).Supports (d.committee.threshold kind)
      fun i => (i, vote) ∈ signedVotes d.epoch A := by
  obtain ⟨members, heavy, -⟩ := verify_ok verified
  refine ⟨_, members, heavy, fun i hi => ?_⟩
  change (i, vote.digest d.epoch) ∈ A
  rw [← message]
  exact backed i hi

theorem notarized_of_cert (verified : d.committee.verify cert .advance = .ok ())
    (message : cert.message = notarizeDigest d.epoch view block) (backed : Backed A cert) :
    (d.protocol Q).Notarized (signedVotes d.epoch A) view block := by
  rw [Protocol.Notarized, protocol_advance]
  exact supports_of_cert (.notarize view block) verified message backed

theorem nullified_of_cert (verified : d.committee.verify cert .advance = .ok ())
    (message : cert.message = nullifyDigest C d.epoch view) (backed : Backed A cert) :
    (d.protocol Q).Nullified (signedVotes d.epoch A) view := by
  rw [Protocol.Nullified, protocol_advance]
  exact supports_of_cert (.nullify view) verified message backed

theorem finalized_of_cert (verified : d.committee.verify cert .finalize = .ok ())
    (message : cert.message = notarizeDigest d.epoch view block) (backed : Backed A cert) :
    (d.protocol Q).Finalized (signedVotes d.epoch A) view block := by
  rw [Protocol.Finalized, protocol_finalize]
  exact supports_of_cert (.notarize view block) verified message backed

end Deployment

namespace MinimmitReplica

variable {P : Policy C} {r r' : MinimmitReplica C} {os : List (Output C)} {start stop : Nat}

/-! ## Parents and contradictors -/

theorem nullifiedScan_spec {entries : List (Nat × Proof C)}
    (h : nullifiedScan entries start = some stop) :
    ∀ w, start ≤ w → w < stop → ∃ n, (w, Proof.nullification n) ∈ entries := by
  induction entries generalizing start with
  | nil =>
    cases h
    omega
  | cons entry rest ih =>
    obtain ⟨skipped, proof⟩ := entry
    simp only [nullifiedScan] at h
    split_ifs at h with gap
    cases proof with
    | notarization n => cases h
    | nullification n =>
      intro w low high
      rcases low.eq_or_lt with rfl | lt
      · rw [not_not.1 gap]
        exact ⟨n, mem_cons_self⟩
      · obtain ⟨n', mem⟩ := ih h w (by omega) high
        exact ⟨n', mem_cons_of_mem _ mem⟩

/-- The skipped views hold stored nullifications. -/
theorem allNullified_spec (h : r.allNullified start stop = true) :
    ∀ w, start ≤ w → w < stop → ∃ n, r.proofs.get? w = some (.nullification n) := by
  intro w low high
  obtain ⟨n, mem⟩ := nullifiedScan_spec (of_decide_eq_true h) w low high
  exact ⟨n, mem_entries.1 (mem_filter.1 mem).1⟩

/-- A saturating weight is at most the weight. -/
theorem setWeight_le {committee : MinimmitCommittee C} {indices : List Nat}
    (nodup : indices.Nodup) :
    setWeight committee indices ≤ committee.weightOf indices.toFinset := by
  have sat : ∀ (ws : List Nat) (acc : Nat), ws.foldl satAdd acc ≤ acc + ws.sum := by
    intro ws
    induction ws with
    | nil => simp
    | cons w ws ih =>
      intro acc
      calc ws.foldl satAdd (satAdd acc w) ≤ satAdd acc w + ws.sum := ih _
        _ ≤ acc + w + ws.sum := Nat.add_le_add_right (satAdd_le_add acc w) _
        _ = acc + (w :: ws).sum := by rw [sum_cons, Nat.add_assoc]
  have sum : ∀ is : List Nat, (is.filterMap committee.weight).sum =
      (is.map committee.weightAt).sum := by
    intro is
    induction is with
    | nil => rfl
    | cons i is ih =>
      cases hw : committee.weight i with
      | none => simp [hw, ih, weightAt]
      | some w => simp [hw, ih, weightAt]
  calc setWeight committee indices ≤ 0 + (indices.filterMap committee.weight).sum := sat _ _
    _ = (indices.map committee.weightAt).sum := by rw [Nat.zero_add, sum]
    _ = committee.weightOf indices.toFinset := (sum_toFinset _ nodup).symm

/-- A contradictor has a retained nullify, or a notarize for another block. -/
theorem mem_contradictors {i : Nat} {ours : C.Hash} (h : i ∈ (r.contradictors view ours).keys) :
    (∃ candidate, (r.tally .nullify view).HasVote candidate i) ∨
      ∃ other, other ≠ ours ∧ (r.tally .notarize view).HasVote other i := by
  rcases mem_foldl_insert.1 h with mem | mem
  · rcases mem_append.1 mem with null | other
    · obtain ⟨per, hper, hi⟩ := mem_flatMap.1 null
      obtain ⟨candidate, hcandidate⟩ := mem_values.1 hper
      exact .inl ⟨candidate, Tally.hasVote_iff.2 ⟨per, hcandidate, contains_iff.2 (mem_keys.1 hi)⟩⟩
    · obtain ⟨entry, hentry, hi⟩ := mem_flatMap.1 other
      obtain ⟨mem', ne⟩ := mem_filter.1 hentry
      exact .inr ⟨entry.1, of_decide_eq_true ne, Tally.hasVote_iff.2 ⟨entry.2, mem_entries.1 mem',
          contains_iff.2 (mem_keys.1 hi)⟩⟩
  · cases mem

/-! ## Moves as protocol steps -/

/-- The vote flags record what the validator signed: nothing beyond the current view, and
in the current view what the flags say. -/
structure Tracks (A : Set (Nat × C.Hash)) (r : MinimmitReplica C) : Prop where
  notarized : ∀ v c, (r.selfIndex, .notarize v c) ∈ signedVotes r.epoch A →
    v ≤ r.view ∧ (v = r.view → r.notarized = some c)
  nullified : ∀ v, (r.selfIndex, .nullify v) ∈ signedVotes r.epoch A →
    v ≤ r.view ∧ (v = r.view → r.nullified = true)
  current : ∀ c, r.notarized = some c → (r.selfIndex, .notarize r.view c) ∈ signedVotes r.epoch A

variable (h : Tracks A r)
include h

theorem Tracks.congr
    (same : ∀ vote, (r.selfIndex, vote) ∈ signedVotes r.epoch A' ↔
      (r.selfIndex, vote) ∈ signedVotes r.epoch A) : Tracks A' r where
  notarized v c hv := h.notarized v c ((same _).1 hv)
  nullified v hv := h.nullified v ((same _).1 hv)
  current c hc := (same _).2 (h.current c hc)

theorem Tracks.silent (none : r.notarized = none) :
    ∀ c, (r.selfIndex, .notarize r.view c) ∉ signedVotes r.epoch A := by
  intro c voted
  have := (h.notarized r.view c voted).2 rfl
  simp [none] at this

theorem Tracks.open_ (none : r.nullified = false) :
    (r.selfIndex, .nullify r.view) ∉ signedVotes r.epoch A := by
  intro voted
  have := (h.nullified r.view voted).2 rfl
  simp [none] at this

theorem Tracks.cast_nullify
    (votes_eq : signedVotes r.epoch A' =
      insert (r.selfIndex, .nullify r.view) (signedVotes r.epoch A)) :
    Tracks A' { r with nullified := true } where
  notarized v c hv := by
    rw [votes_eq] at hv
    exact h.notarized v c (hv.resolve_left (by simp))
  nullified v hv := by
    rw [votes_eq] at hv
    rcases hv with eq | old
    · cases eq
      exact ⟨le_rfl, fun _ => rfl⟩
    · exact ⟨(h.nullified v old).1, fun _ => rfl⟩
  current c hc := by
    rw [votes_eq]
    exact .inr (h.current c hc)

theorem Tracks.cast_notarize {p : Propose C} (none : r.notarized = none)
    (votes_eq : signedVotes r.epoch A' =
      insert (r.selfIndex, .notarize r.view p.blockHash) (signedVotes r.epoch A)) :
    Tracks A' { r.learned r.view p with notarized := some p.blockHash } where
  notarized v c hv := by
    change (r.selfIndex, .notarize v c) ∈ signedVotes r.epoch A' at hv
    rw [votes_eq] at hv
    rcases hv with eq | old
    · cases eq
      exact ⟨le_rfl, fun _ => rfl⟩
    · refine ⟨(h.notarized v c old).1, fun now => ?_⟩
      subst now
      exact absurd old (h.silent none c)
  nullified v hv := by
    change (r.selfIndex, .nullify v) ∈ signedVotes r.epoch A' at hv
    rw [votes_eq] at hv
    exact h.nullified v (hv.resolve_left (by simp))
  current c hc := by
    cases hc
    change (r.selfIndex, .notarize r.view p.blockHash) ∈ signedVotes r.epoch A'
    rw [votes_eq]
    exact .inl rfl

theorem Tracks.enter {next : Nat} (later : r.view < next) :
    Tracks A { r with view := next, notarized := none, nullified := false } where
  notarized v c hv := by
    have old := (h.notarized v c hv).1
    refine ⟨old.trans later.le, fun now => ?_⟩
    exact absurd now (old.trans_lt later).ne
  nullified v hv := by
    have old := (h.nullified v hv).1
    refine ⟨old.trans later.le, fun now => ?_⟩
    exact absurd now (old.trans_lt later).ne
  current c hc := by cases hc

omit h

theorem votes_nullify (free : C.CollisionFree) (signer : C.KeyPair) :
    signedVotes r.epoch (A ∪ releasedBy
        [.effect (.broadcast (.nullify (r.nullifyVote signer r.view)))]) =
      insert (r.selfIndex, .nullify r.view) (signedVotes r.epoch A) := by
  have one : releasedBy [.effect (.broadcast (.nullify (r.nullifyVote signer r.view)))] =
      {(r.selfIndex, Vote.digest r.epoch (.nullify r.view))} := by
    rw [releasedBy_cons, releasedBy_nil, Set.union_empty]
    rfl
  rw [one, votes_union, votes_singleton free, Set.union_singleton]

theorem votes_cast (free : C.CollisionFree) {p : Propose C} (signature : C.Signature)
    (checked : ProposalChecked A r.committee r.epoch r.selfIndex r.view p) :
    signedVotes r.epoch (A ∪ releasedBy [.effect (.broadcast
        (if p.proposerIndex = r.selfIndex then .propose p
          else .notarize ⟨r.epoch, r.view, p.blockHash, r.selfIndex, signature⟩))]) =
      insert (r.selfIndex, .notarize r.view p.blockHash) (signedVotes r.epoch A) := by
  rw [releasedBy_cons, releasedBy_nil, Set.union_empty, votes_union]
  by_cases own : p.proposerIndex = r.selfIndex
  · have parts : released (.effect (.broadcast (.propose p)) : Output C) =
        {(r.selfIndex, Vote.digest r.epoch (.notarize r.view p.blockHash))} ∪
          {(r.selfIndex, p.authDigest)} := by
      rw [← own, ← checked.epoch_eq, ← checked.view_eq]
      rfl
    rw [if_pos own, parts, votes_union, votes_singleton free,
      votes_of_noVote (noVote_authDigest free p), Set.union_empty, Set.union_singleton]
  · rw [if_neg own]
    change _ ∪
      signedVotes r.epoch {(r.selfIndex, Vote.digest r.epoch (.notarize r.view p.blockHash))} = _
    rw [votes_singleton free, Set.union_singleton]

/-- The replica is validator `i` of the deployment. -/
structure Member (d : Deployment C) (i : Nat) (r : MinimmitReplica C) : Prop where
  epoch : r.epoch = d.epoch
  committee : r.committee = d.committee
  selfIndex : r.selfIndex = i
  genesisHash : r.genesisHash = d.genesisHash

theorem Member.leaf {d : Deployment C} {i : Nat} (h : Member d i r) (move : Leaf P A r os r') :
    Member d i r' where
  epoch := move.sameIdentity.epoch.trans h.epoch
  committee := move.sameIdentity.committee.trans h.committee
  selfIndex := move.sameIdentity.selfIndex.trans h.selfIndex
  genesisHash := move.sameIdentity.genesisHash.trans h.genesisHash

section Simulation

variable {d : Deployment C} {Q : BlockHeader C → Prop} {i : Nat}

theorem Ready.nullified_of_proof (ready : Ready A r) (member : Member d i r) {n : Nullification C}
    (stored : r.proofs.get? view = some (.nullification n)) :
    (d.protocol Q).Nullified (signedVotes d.epoch A) view := by
  obtain ⟨sameView, sameEpoch, verified, backed⟩ := ready.proofs view _ stored
  obtain ⟨message, quorum⟩ := nullification_verify_ok verified
  rw [member.committee] at quorum
  refine Deployment.nullified_of_cert quorum ?_ backed
  rw [message, Nullification.digest, sameView, sameEpoch, member.epoch]

theorem Ready.notarized_of_proof (ready : Ready A r) (member : Member d i r) {n : Notarization C}
    (stored : r.proofs.get? view = some (.notarization n)) :
    (d.protocol Q).Notarized (signedVotes d.epoch A) view n.blockHash := by
  obtain ⟨sameView, sameEpoch, verified, backed⟩ := ready.proofs view _ stored
  obtain ⟨message, quorum⟩ := notarization_verify_ok verified
  rw [member.committee] at quorum
  refine Deployment.notarized_of_cert quorum ?_ backed
  rw [message, Notarization.digest, sameView, sameEpoch, member.epoch]

/-- A parent the replica accepts is supported by the votes. -/
theorem Ready.supported (ready : Ready A r) (member : Member d i r) {parent : ParentRef C}
    (valid : r.validParent view parent = true) :
    (d.protocol Q).Supported (signedVotes d.epoch A) view parent.parentHash := by
  have skipped : ∀ {start w}, r.allNullified start view = true → start ≤ w → w < view →
      (d.protocol Q).Nullified (signedVotes d.epoch A) w := by
    intro start w all low high
    obtain ⟨n, stored⟩ := allNullified_spec all w low high
    exact ready.nullified_of_proof member stored
  unfold validParent at valid
  split at valid
  · split_ifs at valid with other
    left
    exact ⟨(not_not.1 other).trans member.genesisHash,
      fun w below => skipped valid (Nat.zero_le w) below⟩
  · rename_i parentView _
    split_ifs at valid with above
    split at valid
    · rename_i n stored
      split_ifs at valid with same
      right
      refine ⟨parentView, not_le.1 above, ?_, fun w low high => skipped valid low high⟩
      rw [← same]
      exact ready.notarized_of_proof member stored
    · cases valid

/-- The weight behind a nullify by contradiction. -/
theorem Ready.contradicts (ready : Ready A r) (member : Member d i r) {ours : C.Hash}
    (heavy : r.committee.advanceThreshold ≤
      setWeight r.committee (r.contradictors r.view ours).keys) :
    (d.protocol Q).Contradicts (signedVotes d.epoch A) r.view ours := by
  have voted : ∀ j ∈ (r.contradictors r.view ours).keys, j < r.committee.len ∧
      ((j, .nullify r.view) ∈ signedVotes d.epoch A ∨
        ∃ other, other ≠ ours ∧ (j, .notarize r.view other) ∈ signedVotes d.epoch A) := by
    intro j hj
    rw [← member.epoch]
    rcases mem_contradictors hj with ⟨candidate, vote⟩ | ⟨other, ne, vote⟩
    · obtain ⟨lt, signed, -⟩ := ready.votes _ _ _ _ vote
      exact ⟨lt, .inl signed⟩
    · obtain ⟨lt, signed, -⟩ := ready.votes _ _ _ _ vote
      exact ⟨lt, .inr ⟨other, ne, signed⟩⟩
  refine ⟨(r.contradictors r.view ours).keys.toFinset, fun j hj => ?_, ?_, fun j hj => ?_⟩
  · rw [mem_toFinset] at hj
    change j ∈ Finset.range d.committee.len
    rw [← member.committee, Finset.mem_range]
    exact (voted j hj).1
  · rw [Deployment.protocol_advance]
    change _ ≤ d.committee.weightOf _
    rw [← member.committee]
    exact heavy.trans (setWeight_le (keys_nodup _))
  · rw [mem_toFinset] at hj
    exact (voted j hj).2

/-- Every move of a replica is a step of the protocol or casts no vote. -/
theorem Leaf.simulates (free : C.CollisionFree) (member : Member d i r) (ready : Ready A r)
    (tracks : Tracks A r) (accepts : ∀ r view p, P.verdict r view p → Q p.block)
    (move : Leaf P A r os r') :
    Relation.ReflTransGen (d.protocol Q).Step (signedVotes d.epoch A)
        (signedVotes d.epoch (A ∪ releasedBy os)) ∧ Tracks (A ∪ releasedBy os) r' := by
  have same := move.sameIdentity
  cases move.voting with
  | quiet view notarized nullified silent =>
    rw [releasedBy_eq_empty silent, Set.union_empty]
    refine ⟨.refl, ?_⟩
    constructor
    · rw [same.selfIndex, same.epoch, view, notarized]
      exact tracks.notarized
    · rw [same.selfIndex, same.epoch, view, nullified]
      exact tracks.nullified
    · rw [same.selfIndex, same.epoch, view, notarized]
      exact tracks.current
  | timeout signer silent open_ =>
    have cast := votes_nullify (A := A) (r := r) free signer
    refine ⟨.single ?_, tracks.cast_nullify cast⟩
    rw [← member.epoch, cast]
    exact .timeout r.selfIndex r.view (tracks.silent silent)
  | contradict signer ours voted open_ heavy =>
    have cast := votes_nullify (A := A) (r := r) free signer
    refine ⟨.single ?_, tracks.cast_nullify cast⟩
    have contradicts : (d.protocol Q).Contradicts (signedVotes d.epoch A) r.view ours :=
      ready.contradicts member heavy
    rw [← member.epoch] at contradicts ⊢
    rw [cast]
    exact .contradict r.selfIndex r.view ours (tracks.current ours voted) contradicts
  | cast p signature pending verdict silent open_ linked =>
    have checked := ready.pending r.view p pending
    have cast := votes_cast free signature checked
    refine ⟨.single ?_, tracks.cast_notarize silent cast⟩
    have justified : (d.protocol Q).Justified (signedVotes d.epoch A) r.view p.blockHash :=
      ⟨p.parent.parentHash, ⟨p.block, checked.hash_eq, checked.parent_eq, accepts _ _ _ verdict⟩,
        ready.supported member linked⟩
    rw [← member.epoch] at justified ⊢
    rw [cast]
    exact .notarize r.selfIndex r.view p.blockHash (tracks.silent silent) (tracks.open_ open_)
      justified
  | enter next later =>
    rw [releasedBy_nil, Set.union_empty]
    exact ⟨.refl, tracks.enter later⟩

end Simulation

end MinimmitReplica

end Dexos.Minimmit
