import Dexos.LightClient.Chain

/-!
# Succession of committees

What a client accepts after the committee of an epoch was installed, and when a superseded
committee has lost its authority.

The digest of a transition binds the commitment of the new committee, which sorts the members,
while a certificate names its signers by their position in the presented list. The installed
committee therefore accepts the certificates of the real one exactly when it was presented in
the same order.

Neither a transition nor a checkpoint is compared with the latest installed epoch. The epochs
along the chain are ordered in the runs in which the host keeps that order.
-/

namespace Dexos.LightClient

open Foundations Minimmit List OrdMap ValidatorSet

variable {C : Crypto}

namespace ShardSync

variable {D : Digests C} {start s s' : ShardSync C} {chain : List (Checkpoint C)}
  {cp : Checkpoint C}
  {epoch : Nat} {set : ValidatorSet C}

/-! ## Registered sets -/

@[simp] theorem accept_validatorSets (s : ShardSync C) (cp : Checkpoint C) :
    (s.accept cp).validatorSets = s.validatorSets := rfl

@[simp] theorem drain_validatorSets (turns : Nat) (s : ShardSync C) :
    (drain turns s).validatorSets = s.validatorSets := by
  fun_induction drain turns s <;> first | rfl | assumption

@[simp] theorem drainBuffer_validatorSets (s : ShardSync C) :
    s.drainBuffer.validatorSets = s.validatorSets := drain_validatorSets _ _

theorem perform_registered (c : Call C) (known : s.validatorSets.get? epoch = some set) :
    (s.perform D c).2.validatorSets.get? epoch = some set := by
  have effect := perform_effect (D := D) s c
  generalize s.perform D c = out at effect
  cases effect with
  | bootstrapped _ _ empty => exact get?_insert_of_absent (get?_of_isEmpty empty _) known
  | installed t old later absent known' message signed => exact get?_insert_of_absent absent known
  | advanced cp certified next => simpa using known
  | unchanged | dropped | buffered => exact known

theorem Reached.registered {allowed : ShardSync C → Call C → Prop} (run : Reached D allowed start s)
    (known : start.validatorSets.get? epoch = some set) :
    s.validatorSets.get? epoch = some set := by
  induction run with
  | start => exact known
  | call c before ok ih => exact perform_registered c ih

theorem applyValidatorSetTransition_installs {t : ValidatorSetTransition C}
    (absent : s.validatorSets.get? t.newEpoch = none)
    (done : (s.perform D (.transition t)).1 = .ok ()) :
    (s.perform D (.transition t)).2.validatorSets.get? t.newEpoch =
      some t.newCommittee.finalizeSet := by
  rw [perform, applyValidatorSetTransition, absent] at done ⊢
  cases known : s.validatorSets.get? t.oldEpoch with
  | none =>
    simp only [known] at done
    split_ifs at done
  | some old =>
    simp only [known] at done ⊢
    split_ifs at done ⊢
    cases signed : old.verify t.certificate with
    | error err => simp [signed] at done
    | ok _ => exact get?_insert_self _ _ _

/-! ## Certificates of a committee -/

/-- A checkpoint is refused for its certificate exactly when the registered set refuses it. -/
theorem ingest_refused_iff (shard : cp.shardId = s.shardId)
    (known : s.validatorSets.get? cp.epoch = some set) :
    (∃ err, (s.ingest D cp).1 = .error (.checkpoint err)) ↔ verifyCheckpoint D cp set ≠ .ok () := by
  rw [ingest, if_neg (not_not.2 shard), known]
  dsimp only
  cases verified : verifyCheckpoint D cp set with
  | error err => simp
  | ok _ =>
    refine iff_of_false ?_ (not_not.2 rfl)
    rintro ⟨err, refused⟩
    cases atTip : s.tip with
    | none =>
      simp only [atTip] at refused
      split_ifs at refused <;> cases refused
    | some tip =>
      simp only [atTip, ingestWithTip, classifyOld] at refused
      cases retained : s.accepted.get? cp.firstSequence with
      | none =>
        rw [retained] at refused
        split_ifs at refused <;> cases refused
      | some range =>
        rw [retained] at refused
        dsimp only at refused
        split_ifs at refused <;> cases refused

theorem verifyCheckpoint_eq_ok :
    verifyCheckpoint D cp set = .ok () ↔ cp.firstSequence ≤ cp.lastSequence ∧
      cp.quorumCertificate.message = cp.hash D ∧ set.verify cp.quorumCertificate = .ok () := by
  simp only [verifyCheckpoint, ok_iff]
  cases set.verify cp.quorumCertificate with
  | error err => simp [Except.mapError]
  | ok _ => simp [Except.mapError]

/-- A client that has registered a set refuses no certified checkpoint of a committee with the same
commitment exactly when the two list their members in the same order. -/
theorem accepts_certified_iff (free : D.CollisionFree) (exclusive : C.Exclusive)
    {real : ValidatorSet C} (known : s.validatorSets.get? epoch = some set)
    (same : set.commitment D = real.commitment D)
    (signable : ∀ v ∈ real.validators, ∀ message, ∃ signature,
      C.verify v.publicKey message signature = true) :
    (∀ cp, cp.shardId = s.shardId → cp.epoch = epoch → verifyCheckpoint D cp real = .ok () →
      ∀ err, (s.ingest D cp).1 ≠ .error (.checkpoint err)) ↔ set.validators = real.validators := by
  constructor
  · intro accepts
    -- One header is enough: the certificate over it names every member by position.
    let header (qc : Certificate C) : Checkpoint C := ⟨epoch, s.shardId, 0, 0, s.trustedRoot,
      s.trustedRoot, s.trustedRoot, s.trustedRoot, s.trustedRoot, 0, qc⟩
    let message := (header ⟨s.trustedRoot, 0, []⟩).hash D
    symm
    apply (verify_iff_of_commitment free exclusive same.symm
      fun v listed => signable v listed message).1
    intro qc covers accepted
    have verified : verifyCheckpoint D (header qc) real = .ok () :=
      verifyCheckpoint_eq_ok.2 ⟨le_rfl, covers, accepted⟩
    by_contra refused
    have rejected : verifyCheckpoint D (header qc) set ≠ .ok () :=
      fun ok => refused (verifyCheckpoint_eq_ok.1 ok).2.2
    obtain ⟨err, failed⟩ : ∃ err, (s.ingest D (header qc)).1 = .error (.checkpoint err) :=
      (ingest_refused_iff rfl known).2 rejected
    exact accepts (header qc) rfl rfl verified err failed
  · rintro order cp shard rfl verified err failed
    have equal : set = real := eq_of_order free same order
    rw [← equal] at verified
    exact (ingest_refused_iff shard known).1 ⟨err, failed⟩ verified

/-- Every member of the set can sign every message. -/
def CanSign (set : ValidatorSet C) : Prop :=
  ∀ v ∈ set.validators, ∀ message, ∃ signature, C.verify v.publicKey message signature = true

/-- Sets with one commitment accept the same certificates exactly when they list their members in
the same order; and after an accepted transition a client accepts, in every later state, the
checkpoints that the committed committee certifies exactly when that committee was presented in
its own order. -/
theorem commitment_determines_certificates_iff (free : D.CollisionFree) (exclusive : C.Exclusive) :
    (∀ set set' : ValidatorSet C, CanSign set → set.commitment D = set'.commitment D →
      ((∀ qc, set.verify qc = .ok () ↔ set'.verify qc = .ok ()) ↔
        set.validators = set'.validators)) ∧
    (∀ (s later : ShardSync C) (t : ValidatorSetTransition C) (real : MinimmitCommittee C),
      CanSign real.finalizeSet →
      s.validatorSets.get? t.newEpoch = none → (s.perform D (.transition t)).1 = .ok () →
      t.newCommittee.finalizeSet.commitment D = real.finalizeSet.commitment D →
      Reached D (fun _ _ => True) (s.perform D (.transition t)).2 later →
      ((∀ cp, cp.shardId = later.shardId → cp.epoch = t.newEpoch →
          verifyCheckpoint D cp real.finalizeSet = .ok () →
          ∀ err, (later.ingest D cp).1 ≠ .error (.checkpoint err)) ↔
        t.newCommittee.validators = real.validators)) := by
  constructor
  · intro set set' signable same
    constructor
    · intro agree
      apply (verify_iff_of_commitment free exclusive same
        fun v listed => signable v listed (set.commitment D)).1
      exact fun qc _ => (agree qc).1
    · intro order qc
      have equal : set = set' := eq_of_order free same order
      rw [equal]
  · intro s later t real signable absent done same run
    have installed := run.registered (applyValidatorSetTransition_installs absent done)
    exact accepts_certified_iff free exclusive installed same signable

def pairOf (first second : Nat) : List (Validator ideal) := [⟨first, 1⟩, ⟨second, 1⟩]

/-- A committee of two members of weight one. -/
def pairCommittee (first second : Nat) (valid : validateMembership (pairOf first second) = .ok 2) :
    MinimmitCommittee ideal where
  epoch := 1
  byzantineWeight := 0
  advanceSet := ⟨pairOf first second, 2, 1, valid, by decide, by decide⟩
  finalizeSet := ⟨pairOf first second, 2, 2, valid, by decide, by decide⟩
  cachedKeys := [first, second]
  weightLanes := laneWeights (pairOf first second)
  unitWeights := true
  sameMembers := rfl
  sized := (by decide : requireMinimmitSizing 2 0 = .ok ())
  thresholds := (by decide : minimmitThresholds 2 0 = .ok (1, 2))
  keys := rfl
  lanes := rfl
  unit := rfl

/-- A transition to a committee of two that all six voters have signed. -/
def signedTransition (oldEpoch newEpoch : Nat) (committee : MinimmitCommittee ideal) :
    ValidatorSetTransition ideal :=
  ⟨oldEpoch, newEpoch, committee,
    signAll sixVoters (validatorSetTransitionDigest idealDigests oldEpoch newEpoch committee)⟩

/-- A relayed transition with the two members exchanged: the certificate collected for the real
committee covers it, and the client then refuses what the real committee certifies. -/
theorem exchanged_members_refused :
    let real := pairCommittee 10 11 (by decide)
    let presented := pairCommittee 11 10 (by decide)
    let t : ValidatorSetTransition ideal :=
      { signedTransition 0 1 real with newCommittee := presented }
    let s := (withLimits 7 (100 : Nat) 4 4).performAll idealDigests [.bootstrap 0 sixVoters]
    let cp := linkAt 1 real.finalizeSet 0
    presented.finalizeSet.commitment idealDigests = real.finalizeSet.commitment idealDigests ∧
    (s.perform idealDigests (.transition t)).1 = .ok () ∧
    verifyCheckpoint idealDigests cp real.finalizeSet = .ok () ∧
    real.finalizeSet.verify cp.quorumCertificate = .ok () ∧
    presented.finalizeSet.verify cp.quorumCertificate ≠ .ok () ∧
    ((s.perform idealDigests (.transition t)).2.ingest idealDigests cp).1 =
      .error (.checkpoint .quorum) := by
  decide +kernel

theorem ideal_canSign (set : ValidatorSet ideal) : CanSign set :=
  fun v _ message => ⟨(v.publicKey, message), ideal_verify_iff.2 rfl⟩

theorem commitment_determines_certificates_iff_ideal :
    ¬ ∀ qc, (pairCommittee 10 11 (by decide)).finalizeSet.verify qc = .ok () ↔
      (pairCommittee 11 10 (by decide)).finalizeSet.verify qc = .ok () := by
  intro agree
  obtain ⟨sets, -⟩ :=
    commitment_determines_certificates_iff idealDigests_collisionFree ideal_exclusive
  have order := (sets _ _ (ideal_canSign _) (by decide +kernel)).1 agree
  revert order
  decide

/-! ## Order of epochs -/

/-- The checkpoint extends the tip, or it is ahead of it and finds room in the buffer. -/
def Takes (s : ShardSync C) (cp : Checkpoint C) : Prop :=
  s.Extends cp ∨ ∃ tip, s.tip = some tip ∧ nextSequence tip.height < cp.firstSequence ∧
    s.buffer.get? cp.firstSequence = none ∧ s.buffer.size < s.bufferLimit

/-- The checkpoint is of no earlier epoch than the tip and than the buffered checkpoints before it,
and of no later epoch than the buffered ones after it. -/
def KeepsOrder (s : ShardSync C) (cp : Checkpoint C) : Prop :=
  BelowMax s (.ingest cp) ∧ (∀ tip, s.tip = some tip → tip.epoch ≤ cp.epoch) ∧
    ∀ k held, s.buffer.get? k = some held →
      (k < cp.firstSequence → held.epoch ≤ cp.epoch) ∧
        (cp.firstSequence < k → cp.epoch ≤ held.epoch)

/-- A call that keeps the order of epochs if the client does not refuse or ignore it: a transition
that installs a set starts from the latest installed epoch, and a checkpoint that is taken fits the
tip and the buffer. -/
def Orderly (D : Digests C) (s : ShardSync C) : Call C → Prop
  | .bootstrap _ _ => True
  | .transition t => (s.perform D (.transition t)).1 = .ok () →
      s.validatorSets.get? t.newEpoch = none → s.latestEpoch = some t.oldEpoch
  | .ingest cp => s.Certified D cp → s.Takes cp → s.KeepsOrder cp

/-- Without a tip and a buffer there is nothing to be in order with. -/
theorem KeepsOrder.of_idle (noTip : s.tip = none) (noBuffer : s.buffer = ∅)
    (bound : BelowMax s (.ingest cp)) : KeepsOrder s cp := by
  refine ⟨bound, ?_, ?_⟩
  · intro tip atTip
    simp [noTip] at atTip
  · intro k held found
    simp [noBuffer] at found

/-- The epochs of the accepted and of the waiting checkpoints are in order. -/
structure InOrder (s : ShardSync C) (chain : List (Checkpoint C)) : Prop where
  epochs : chain.Pairwise fun a b => a.epoch ≤ b.epoch
  buffer : ∀ k k' a b, s.buffer.get? k = some a → s.buffer.get? k' = some b → k < k' →
    a.epoch ≤ b.epoch
  ahead : ∀ last k b, chain.getLast? = some last → s.buffer.get? k = some b →
    last.lastSequence < k → last.epoch ≤ b.epoch
  latest : ∀ epoch set, s.validatorSets.get? epoch = some set →
    ∃ newest, s.latestEpoch = some newest ∧ epoch ≤ newest

theorem InOrder.init (shardId : Nat) (root : C.Hash) (historyLimit bufferLimit : Nat) :
    InOrder (withLimits shardId root historyLimit bufferLimit) [] where
  epochs := List.Pairwise.nil
  buffer := fun _ _ _ _ found => nomatch found
  ahead := fun _ _ _ found => nomatch found
  latest := fun _ _ found => nomatch found

variable (h : InOrder s chain)
include h

theorem InOrder.snoc {last : Checkpoint C} (atEnd : chain.getLast? = some last)
    (later : last.epoch ≤ cp.epoch) : (chain ++ [cp]).Pairwise fun a b => a.epoch ≤ b.epoch := by
  refine pairwise_snoc.2 ⟨h.epochs, fun link mem => le_trans ?_ later⟩
  have ordered := h.epochs
  obtain ⟨older, rfl⟩ := getLast?_eq_some_iff.1 atEnd
  exact forall_mem_snoc.2 ⟨(pairwise_snoc.1 ordered).2, le_rfl⟩ link mem

theorem InOrder.accept (later : ∀ last, chain.getLast? = some last → last.epoch ≤ cp.epoch)
    (ahead : ∀ k b, s.buffer.get? k = some b → cp.lastSequence < k → cp.epoch ≤ b.epoch) :
    InOrder (s.accept cp) (chain ++ [cp]) where
  epochs := by
    cases atEnd : chain.getLast? with
    | none =>
      rw [getLast?_eq_none_iff] at atEnd
      rw [atEnd]
      exact pairwise_singleton _ cp
    | some last => exact h.snoc atEnd (later last atEnd)
  __ := h
  ahead := by
    intro last k b atEnd
    rw [getLast?_concat] at atEnd
    cases atEnd
    exact ahead k b

theorem InOrder.erase (k : Nat) (count : Nat) :
    InOrder { s with buffer := s.buffer.erase k, bufferedDropped := count } chain := by
  have kept : ∀ k' b, (s.buffer.erase k).get? k' = some b → s.buffer.get? k' = some b := by
    intro k' b found
    rw [get?_erase] at found
    split_ifs at found
    exact found
  constructor
  · exact h.epochs
  · exact fun i j a b left right => h.buffer i j a b (kept i a left) (kept j b right)
  · exact fun last i b atEnd found => h.ahead last i b atEnd (kept i b found)
  · exact h.latest

variable (sound : Sound D start s chain)
include sound

/-- The buffered checkpoint next to the tip is accepted in order: those after it in the buffer are
not of an earlier epoch. -/
theorem InOrder.takeBuffered {k : Nat} (found : s.buffer.get? k = some cp)
    (atTip : ∃ tip, s.tip = some tip ∧ k = nextSequence tip.height) :
    InOrder ({ s with buffer := s.buffer.erase k }.accept cp) (chain ++ [cp]) := by
  obtain ⟨key, -, certified⟩ := sound.buffered k cp found
  apply (h.erase k s.bufferedDropped).accept
  · intro last atEnd
    obtain ⟨tip, isTip, next⟩ := atTip
    rw [sound.tip, atEnd] at isTip
    cases isTip
    apply h.ahead last k cp atEnd found
    rw [next, nextSequence_of_lt]
    · exact Nat.lt_succ_self _
    · exact sound.bounded last (mem_of_getLast? atEnd)
  · intro k' b stored after
    have kept : (s.buffer.erase k).get? k' = some b := stored
    rw [get?_erase] at kept
    split_ifs at kept
    apply h.buffer k k' cp b found kept
    calc k = cp.firstSequence := key.symm
      _ ≤ cp.lastSequence := certified.ordered
      _ < k' := after

theorem InOrder.drainBuffer :
    ∃ more, Sound D start s.drainBuffer (chain ++ more) ∧
      InOrder s.drainBuffer (chain ++ more) := by
  apply drain_induction (P := fun s => ∃ more, Sound D start s (chain ++ more) ∧
    InOrder s (chain ++ more))
  · rintro s k count ⟨more, sound, ordered⟩
    exact ⟨more, sound.erase k count, ordered.erase k count⟩
  · rintro s k cp ⟨more, sound, ordered⟩ found next atTip
    refine ⟨more ++ [cp], ?_⟩
    rw [← append_assoc]
    exact ⟨sound.takeBuffered found next, ordered.takeBuffered sound found atTip⟩
  · refine ⟨[], ?_⟩
    rw [append_nil]
    exact ⟨sound, h⟩
  · exact fun k cp found => (sound.buffered k cp found).1

/-- A checkpoint that keeps the order may wait in the buffer. -/
theorem InOrder.hold (orderly : KeepsOrder s cp) :
    InOrder { s with buffer := s.buffer.insert cp.firstSequence cp } chain where
  __ := h
  buffer := by
    intro k k' a b left right below
    rw [get?_insert] at left right
    split_ifs at left with first
    · cases left
      rw [if_neg (by omega)] at right
      exact (orderly.2.2 k' b right).2 (first ▸ below)
    · split_ifs at right with second
      · cases right
        exact (orderly.2.2 k a left).1 (second ▸ below)
      · exact h.buffer k k' a b left right below
  ahead := by
    intro last k b atEnd found after
    rw [get?_insert] at found
    split_ifs at found with key
    · cases found
      apply orderly.2.1 (tipOf last)
      rw [sound.tip, atEnd]
      rfl
    · exact h.ahead last k b atEnd found after

omit sound

theorem InOrder.install {newest : Nat} (set : ValidatorSet C)
    (known : ∀ older old, s.validatorSets.get? older = some old → older ≤ newest)
    (own : epoch ≤ newest) :
    InOrder { s with
      validatorSets := s.validatorSets.insert epoch set
      latestEpoch := some newest } chain where
  __ := h
  latest := by
    intro other registered found
    rw [get?_insert] at found
    split_ifs at found with same
    · exact ⟨newest, rfl, same ▸ own⟩
    · exact ⟨newest, rfl, known other registered found⟩

/-- An orderly call keeps the order of epochs. -/
theorem InOrder.perform (sound : Sound D start s chain) {c : Call C} (orderly : Orderly D s c) :
    ∃ more, Sound D start (s.perform D c).2 (chain ++ more) ∧
      InOrder (s.perform D c).2 (chain ++ more) := by
  have effect := perform_effect (D := D) s c
  generalize s.perform D c = out at effect
  have same : Sound D start s (chain ++ []) ∧ InOrder s (chain ++ []) := by
    rw [append_nil]
    exact ⟨sound, h⟩
  obtain ⟨sound', ordered'⟩ := same
  cases effect with
  | unchanged => exact ⟨[], sound', ordered'⟩
  | bootstrapped epoch set empty =>
    refine ⟨[], sound'.install set _ (get?_of_isEmpty empty _), ordered'.install set ?_ le_rfl⟩
    intro older old found
    simp [get?_of_isEmpty empty] at found
  | installed t old later absent known message signed =>
    refine ⟨[], sound'.install _ _ absent, ordered'.install _ ?_ (le_max_right _ _)⟩
    intro older other found
    obtain ⟨newest, latest, le⟩ := ordered'.latest older other found
    rw [latest]
    exact le.trans (le_max_left _ _)
  | advanced cp certified next =>
    obtain ⟨bound, overTip, inBuffer⟩ := orderly certified (.inl next)
    have accepted : InOrder (s.accept cp) (chain ++ [cp]) := by
      apply h.accept
      · intro last atEnd
        apply overTip (tipOf last)
        rw [sound.tip, atEnd]
        rfl
      · intro k b found after
        exact (inBuffer k b found).2 (certified.ordered.trans_lt after)
    obtain ⟨more, drained⟩ := accepted.drainBuffer (sound.accept certified next bound.2)
    rw [append_assoc] at drained
    exact ⟨[cp] ++ more, drained⟩
  | dropped cp count =>
    refine ⟨[], sound'.reshape (fun _ _ known => known) sound'.buffered, ?_⟩
    exact ⟨ordered'.epochs, ordered'.buffer, ordered'.ahead, ordered'.latest⟩
  | buffered cp tip certified atTip ahead absent room =>
    have fits := orderly certified (.inr ⟨tip, atTip, ahead, absent, room⟩)
    exact ⟨[], sound'.hold certified fits.1.2, ordered'.hold sound' fits⟩

omit h

theorem Reached.inOrder {shardId : Nat} {root : C.Hash} {historyLimit bufferLimit : Nat}
    (run : Reached D (Orderly D) (withLimits shardId root historyLimit bufferLimit) s) :
    ∃ chain, Sound D (withLimits shardId root historyLimit bufferLimit) s chain ∧
      InOrder s chain := by
  induction run with
  | start =>
    exact ⟨[], Sound.init shardId root historyLimit bufferLimit,
      InOrder.init shardId root historyLimit bufferLimit⟩
  | call c before orderly ih =>
    obtain ⟨chain, sound, ordered⟩ := ih
    obtain ⟨more, after⟩ := ordered.perform sound orderly
    exact ⟨chain ++ more, after⟩

/-- A set that a call registers comes from the first installation or from a transition that the
named epoch's set has signed. -/
theorem perform_registers {c : Call C} (absent : s.validatorSets.get? epoch = none)
    (known : (s.perform D c).2.validatorSets.get? epoch = some set) :
    s.validatorSets.isEmpty = true ∨
    ∃ t old, c = .transition t ∧ (s.perform D c).1 = .ok () ∧ t.newEpoch = epoch ∧
      set = t.newCommittee.finalizeSet ∧
      s.validatorSets.get? t.oldEpoch = some old ∧ old.verify t.certificate = .ok () ∧
      t.certificate.message =
      validatorSetTransitionDigest D t.oldEpoch t.newEpoch t.newCommittee := by
  have effect := perform_effect (D := D) s c
  generalize s.perform D c = out at effect known
  cases effect with
  | bootstrapped _ _ empty => exact .inl empty
  | installed t old later _ registered message signed =>
    have stored : (s.validatorSets.insert t.newEpoch t.newCommittee.finalizeSet).get? epoch =
      some set := known
    rw [get?_insert] at stored
    split_ifs at stored with same
    · cases stored
      exact .inr ⟨t, old, rfl, rfl, same.symm, rfl, registered, signed, message⟩
    · simp [absent] at stored
  | advanced cp certified next =>
    simp [drainBuffer_validatorSets, accept_validatorSets, absent] at known
  | unchanged | dropped | buffered => simp [absent] at known

/-- In every state of a run of orderly calls the epochs along the chain never decrease, a call
extends the chain by checkpoints of the tip's epoch or a later one only, and a set is installed
after the first one only with a certificate of the latest installed epoch, which is not before the
tip's. -/
theorem superseded_committee_without_authority {shardId : Nat} {root : C.Hash}
    {historyLimit bufferLimit : Nat}
    (run : Reached D (Orderly D) (withLimits shardId root historyLimit bufferLimit) s) :
    ∃ chain, Follows D s chain ∧ (chain.Pairwise fun a b => a.epoch ≤ b.epoch) ∧ ∀ c,
      Orderly D s c → (∃ more, Follows D (s.perform D c).2 (chain ++ more) ∧
          ∀ tip, s.tip = some tip → ∀ cp ∈ more, tip.epoch ≤ cp.epoch) ∧
        ∀ epoch set, s.validatorSets.get? epoch = none →
          (s.perform D c).2.validatorSets.get? epoch = some set → s.validatorSets.isEmpty = true ∨
          ∃ t old, c = .transition t ∧ t.newEpoch = epoch ∧ set = t.newCommittee.finalizeSet ∧
            s.latestEpoch = some t.oldEpoch ∧ (∀ tip, s.tip = some tip → tip.epoch ≤ t.oldEpoch) ∧
            s.validatorSets.get? t.oldEpoch = some old ∧ old.verify t.certificate = .ok () ∧
            t.certificate.message =
              validatorSetTransitionDigest D t.oldEpoch t.newEpoch t.newCommittee := by
  obtain ⟨chain, sound, ordered⟩ := run.inOrder
  refine ⟨chain, sound.toFollows, ordered.epochs, ?_⟩
  intro c orderly
  constructor
  · obtain ⟨more, after, afterOrder⟩ := ordered.perform sound orderly
    refine ⟨more, after.toFollows, ?_⟩
    intro tip atTip cp added
    rw [sound.tip] at atTip
    obtain ⟨last, atEnd, rfl⟩ := Option.map_eq_some_iff.1 atTip
    obtain ⟨-, -, across⟩ := pairwise_append.1 afterOrder.epochs
    exact across last (mem_of_getLast? atEnd) cp added
  · intro epoch set absent known
    rcases perform_registers absent known with
      empty | ⟨t, old, rfl, done, rfl, rfl, registered, signed⟩
    · exact .inl empty
    · have same : s.latestEpoch = some t.oldEpoch := orderly done absent
      refine .inr ⟨t, old, rfl, rfl, rfl, same, ?_, registered, signed⟩
      intro tip atTip
      rw [sound.tip] at atTip
      obtain ⟨last, atEnd, rfl⟩ := Option.map_eq_some_iff.1 atTip
      obtain ⟨-, owner, found, -⟩ := sound.certified last (mem_of_getLast? atEnd)
      obtain ⟨newest, latest, le⟩ := ordered.latest last.epoch owner found
      rw [same] at latest
      cases latest
      exact le

/-- The committee of epoch 0 certifies a checkpoint after the tip has reached epoch 1, and then
installs the committee of epoch 2. -/
def supersededCalls : List (Call ideal) :=
  [.bootstrap 0 sixVoters, .transition (signedTransition 0 1 (pairCommittee 10 11 (by decide))),
    .ingest (linkAt 1 (pairCommittee 10 11 (by decide)).finalizeSet 0)]

theorem superseded_committee_continues :
    let before := (withLimits 7 (100 : Nat) 4 4).performAll idealDigests supersededCalls
    let after := before.performAll idealDigests [.ingest (linkAt 0 sixVoters 1),
      .transition (signedTransition 0 2 (pairCommittee 20 21 (by decide)))]
    before.tip.map (·.epoch) = some 1 ∧ before.latestEpoch = some 1 ∧
    after.tip.map (fun tip => (tip.height, tip.epoch)) = some (1, 0) ∧
    after.validatorSets.get? 2 = some (pairCommittee 20 21 (by decide)).finalizeSet := by
  decide +kernel

theorem superseded_committee_without_authority_run :
    let s := (withLimits 7 (100 : Nat) 4 4).performAll idealDigests supersededCalls
    s.tip.map (·.epoch) = some 1 ∧
    ∃ chain, Follows idealDigests s chain ∧ chain.Pairwise fun a b => a.epoch ≤ b.epoch := by
  have run : Reached idealDigests (Orderly idealDigests) (withLimits 7 (100 : Nat) 4 4)
      ((withLimits 7 (100 : Nat) 4 4).performAll idealDigests supersededCalls) := by
    apply Reached.call (.ingest _)
    · apply Reached.call (.transition _)
      · exact Reached.call (.bootstrap 0 sixVoters) Reached.start trivial
      · intro _ _
        change ((withLimits 7 (100 : Nat) 4 4).perform idealDigests
          (.bootstrap 0 sixVoters)).2.latestEpoch = some 0
        decide +kernel
    · intro _ _
      apply KeepsOrder.of_idle
      · decide +kernel
      · decide +kernel
      · simp [BelowMax, linkAt, u64Max]
  obtain ⟨chain, follows, ordered, -⟩ := superseded_committee_without_authority run
  exact ⟨by decide +kernel, chain, follows, ordered⟩

end ShardSync

end Dexos.LightClient
