import Dexos.Crypto.Ideal
import Dexos.LightClient.ShardSync

/-!
# The chain that a light client follows

The checkpoints that a client has accepted form one chain from the trusted root: each carries a
certificate of the set registered for its epoch and continues its predecessor. A checkpoint may
wait in the buffer between its verification and its acceptance, while sets are added to the
registry; what carries the invariant over this time is that no registered set is ever replaced.
-/

namespace Dexos.LightClient

open Foundations Minimmit List OrdMap

variable {C : Crypto}

namespace ShardSync

variable {D : Digests C} {start s : ShardSync C} {chain : List (Checkpoint C)} {cp : Checkpoint C}
  {V : Type} {tip : VerifiedTip C} {range : AcceptedRange C} {last : Checkpoint C}
  {m : OrdMap Nat V} {s' : ShardSync C}

/-! ## Statement -/

/-- A checkpoint of the client's shard that the set registered for its epoch has signed. -/
def Certified (D : Digests C) (s : ShardSync C) (cp : Checkpoint C) : Prop :=
  cp.shardId = s.shardId ∧
    ∃ set, s.validatorSets.get? cp.epoch = some set ∧ verifyCheckpoint D cp set = .ok ()

/-- One checkpoint starts where another ends. -/
structure Continues (previous next : Checkpoint C) : Prop where
  root : next.previousStateRoot = previous.newStateRoot
  sequence : next.firstSequence = previous.lastSequence + 1

/-- The client has accepted the checkpoints of this chain, the oldest first. -/
structure Follows (D : Digests C) (s : ShardSync C) (chain : List (Checkpoint C)) : Prop where
  tip : s.tip = chain.getLast?.map tipOf
  trusted : ∀ cp ∈ chain.head?, cp.previousStateRoot = s.trustedRoot
  continuous : chain.IsChain Continues
  certified : ∀ cp ∈ chain, s.Certified D cp
  history : s.accepted.entries =
    (chain.drop (chain.length - s.historyLimit)).map fun cp => (cp.firstSequence, rangeOf cp)

/-- The sequence numbers of an ingested checkpoint are below `u64::MAX`. -/
def BelowMax (_ : ShardSync C) : Call C → Prop
  | .ingest cp => cp.firstSequence < u64Max ∧ cp.lastSequence < u64Max
  | _ => True

/-! ## What a call does -/

/-- A checkpoint continues the tip, or starts at the trusted root when there is none. -/
def Extends (s : ShardSync C) (cp : Checkpoint C) : Prop :=
  match s.tip with
  | none => cp.previousStateRoot = s.trustedRoot
  | some tip => cp.previousStateRoot = tip.stateRoot ∧ cp.firstSequence = nextSequence tip.height

/-- The results of a call together with the states that it leaves. -/
inductive Effect (D : Digests C) (s : ShardSync C) :
    Call C → Except LightClientError Unit × ShardSync C → Prop
  | unchanged (c : Call C) (r : Except LightClientError Unit) : Effect D s c (r, s)
  | bootstrapped (epoch : Nat) (set : ValidatorSet C) (empty : s.validatorSets.isEmpty = true) :
      Effect D s (.bootstrap epoch set) (.ok (), { s with
        validatorSets := s.validatorSets.insert epoch set
        latestEpoch := some epoch })
  | installed (t : ValidatorSetTransition C) (old : ValidatorSet C)
      (later : t.oldEpoch < t.newEpoch)
      (absent : s.validatorSets.get? t.newEpoch = none)
      (known : s.validatorSets.get? t.oldEpoch = some old)
      (message : t.certificate.message =
        validatorSetTransitionDigest D t.oldEpoch t.newEpoch t.newCommittee)
      (signed : old.verify t.certificate = .ok ()) :
      Effect D s (.transition t) (.ok (), { s with
        validatorSets := s.validatorSets.insert t.newEpoch t.newCommittee.finalizeSet
        latestEpoch := some (max (s.latestEpoch.getD 0) t.newEpoch) })
  | advanced (cp : Checkpoint C) (certified : s.Certified D cp) (next : s.Extends cp) :
      Effect D s (.ingest cp) (.ok (), (s.accept cp).drainBuffer)
  | dropped (cp : Checkpoint C) (count : Nat) :
      Effect D s (.ingest cp) (.ok (), { s with bufferedDropped := count })
  | buffered (cp : Checkpoint C) (tip : VerifiedTip C) (certified : s.Certified D cp)
      (atTip : s.tip = some tip) (ahead : nextSequence tip.height < cp.firstSequence)
      (absent : s.buffer.get? cp.firstSequence = none)
      (room : s.buffer.size < s.bufferLimit) :
      Effect D s (.ingest cp) (.ok (), { s with buffer := s.buffer.insert cp.firstSequence cp })

theorem bootstrapValidatorSet_effect (s : ShardSync C) (epoch : Nat) (set : ValidatorSet C) :
    Effect D s (.bootstrap epoch set) (s.bootstrapValidatorSet epoch set) := by
  rw [bootstrapValidatorSet]
  split_ifs with used
  · apply Effect.unchanged
  dsimp only
  split_ifs
  · apply Effect.unchanged
  · apply Effect.bootstrapped
    exact Bool.eq_true_of_not_eq_false used

theorem applyValidatorSetTransition_effect (s : ShardSync C) (t : ValidatorSetTransition C) :
    Effect D s (.transition t) (s.applyValidatorSetTransition D t) := by
  rw [applyValidatorSetTransition]
  by_cases order : t.newEpoch ≤ t.oldEpoch
  · rw [if_pos order]
    apply Effect.unchanged
  rw [if_neg order]
  cases absent : s.validatorSets.get? t.newEpoch with
  | some existing =>
    dsimp only
    split_ifs <;> apply Effect.unchanged
  | none =>
    cases known : s.validatorSets.get? t.oldEpoch with
    | none => apply Effect.unchanged
    | some old =>
      dsimp only
      split_ifs with message
      · apply Effect.unchanged
      cases signed : old.verify t.certificate with
      | error err => apply Effect.unchanged
      | ok _ =>
        apply Effect.installed t old (Nat.lt_of_not_le order) absent known _ signed
        exact not_not.1 message

theorem bufferFuture_effect (certified : s.Certified D cp) (atTip : s.tip = some tip)
    (ahead : nextSequence tip.height < cp.firstSequence) :
    Effect D s (.ingest cp) (.ok (), s.bufferFuture cp) := by
  rw [bufferFuture]
  split_ifs with present full
  · apply Effect.unchanged
  · apply Effect.dropped
  · refine Effect.buffered cp tip certified atTip ahead ?_ (not_le.1 full)
    exact contains_eq_false.1 (Bool.eq_false_of_not_eq_true present)

theorem ingestWithTip_effect (certified : s.Certified D cp) (atTip : s.tip = some tip) :
    Effect D s (.ingest cp)
      ((s.ingestWithTip cp tip).1.map fun _ => (), (s.ingestWithTip cp tip).2) := by
  rw [ingestWithTip]
  split_ifs with follows broken ahead
  · apply Effect.unchanged
  · apply Effect.advanced cp certified
    rw [Extends, atTip]
    exact ⟨not_not.1 broken, follows⟩
  · exact bufferFuture_effect certified atTip ahead
  · apply Effect.unchanged

theorem ingest_effect (s : ShardSync C) (cp : Checkpoint C) :
    Effect D s (.ingest cp) ((s.ingest D cp).1.map fun _ => (), (s.ingest D cp).2) := by
  rw [ingest]
  by_cases shard : cp.shardId ≠ s.shardId
  · rw [if_pos shard]
    apply Effect.unchanged
  rw [if_neg shard]
  cases known : s.validatorSets.get? cp.epoch with
  | none => apply Effect.unchanged
  | some set =>
    cases verified : verifyCheckpoint D cp set with
    | error err =>
      dsimp only
      rw [verified]
      apply Effect.unchanged
    | ok _ =>
      have certified : s.Certified D cp := ⟨not_not.1 shard, set, known, verified⟩
      dsimp only
      rw [verified]
      cases atTip : s.tip with
      | none =>
        split_ifs with untrusted
        · apply Effect.unchanged
        · apply Effect.advanced cp certified
          rw [Extends, atTip]
          exact not_not.1 untrusted
      | some tip => exact ingestWithTip_effect certified atTip

theorem perform_effect (s : ShardSync C) (c : Call C) : Effect D s c (s.perform D c) := by
  cases c with
  | bootstrap => exact bootstrapValidatorSet_effect s ..
  | transition => exact applyValidatorSetTransition_effect s ..
  | ingest => exact ingest_effect s ..

theorem perform_error {c : Call C} {err : LightClientError}
    (failed : (s.perform D c).1 = .error err) : (s.perform D c).2 = s := by
  have effect := perform_effect (D := D) s c
  generalize s.perform D c = out at effect failed
  cases effect <;> first | rfl | cases failed

/-- What acceptance from the buffer and removal from it preserve, draining preserves. -/
theorem drain_induction {P : ShardSync C → Prop}
    (removed : ∀ s k count, P s → P { s with buffer := s.buffer.erase k, bufferedDropped := count })
    (accepted : ∀ s k next, P s → s.buffer.get? k = some next → s.Extends next →
      (∃ tip, s.tip = some tip ∧ k = nextSequence tip.height) →
      P ({ s with buffer := s.buffer.erase k }.accept next)) (turns : Nat) :
    ∀ s, P s → (∀ k next, s.buffer.get? k = some next → next.firstSequence = k) →
      P (drain turns s) := by
  induction turns with
  | zero => exact fun s holds _ => holds
  | succ turns ih =>
    intro s holds keyed
    rw [drain]
    cases atTip : s.tip with
    | none => exact holds
    | some tip =>
      dsimp only
      cases found : s.buffer.get? (nextSequence tip.height) with
      | none => exact holds
      | some next =>
        dsimp only
        rw [← atTip]
        split_ifs with broken
        · exact removed s _ _ holds
        · apply ih
          · apply accepted s _ next holds found
            · rw [Extends, atTip]
              exact ⟨not_not.1 broken, keyed _ _ found⟩
            · exact ⟨tip, atTip, rfl⟩
          · intro k other stored
            have kept : (s.buffer.erase (nextSequence tip.height)).get? k = some other := stored
            rw [get?_erase] at kept
            split_ifs at kept
            exact keyed k other kept

/-! ## Acceptance -/

theorem removeOldest_entries (m : OrdMap Nat V) : (removeOldest m).entries = m.entries.tail := by
  rw [removeOldest]
  cases first : m.entries with
  | nil => exact first
  | cons e rest => exact entries_erase_first first

theorem iterate_removeOldest_entries (n : Nat) (m : OrdMap Nat V) :
    (removeOldest^[n] m).entries = m.entries.drop n := by
  induction n generalizing m with
  | zero => rfl
  | succ n ih => rw [Function.iterate_succ_apply, ih, removeOldest_entries, drop_tail]

theorem Certified.ordered (h : s.Certified D cp) : cp.firstSequence ≤ cp.lastSequence := by
  obtain ⟨-, set, -, verified⟩ := h
  obtain ⟨_, ascending, _⟩ := bind_eq_ok.1 verified
  exact require_eq_ok.1 ascending

/-- More registered sets certify more checkpoints. -/
theorem Certified.mono (h : s.Certified D cp) (shard : s'.shardId = s.shardId)
    (grows : ∀ epoch set, s.validatorSets.get? epoch = some set →
      s'.validatorSets.get? epoch = some set) : s'.Certified D cp := by
  obtain ⟨own, set, known, verified⟩ := h
  exact ⟨own.trans shard.symm, set, grows _ _ known, verified⟩

theorem nextSequence_of_lt {height : Nat} (h : height < u64Max) :
    nextSequence height = height + 1 := by
  rw [nextSequence]
  rw [u64Max] at h
  omega

/-- The invariant of a client started in `start`. -/
structure Sound (D : Digests C) (start s : ShardSync C) (chain : List (Checkpoint C)) : Prop
    extends Follows D s chain where
  shardId : s.shardId = start.shardId
  trustedRoot : s.trustedRoot = start.trustedRoot
  historyLimit : s.historyLimit = start.historyLimit
  remembers : 0 < s.historyLimit
  increasing : chain.Pairwise fun a b => a.lastSequence < b.firstSequence
  bounded : ∀ cp ∈ chain, cp.lastSequence < u64Max
  buffered : ∀ k cp, s.buffer.get? k = some cp →
    cp.firstSequence = k ∧ cp.lastSequence < u64Max ∧ s.Certified D cp

theorem get?_insert_of_absent {k k' : Nat} {v v' : V}
    (absent : m.get? k = none) (known : m.get? k' = some v') :
    (m.insert k v).get? k' = some v' := by
  rw [get?_insert_ne]
  · exact known
  · intro same
    simp [same, absent] at known

theorem Sound.init (shardId : Nat) (root : C.Hash) (historyLimit bufferLimit : Nat) :
    Sound D (withLimits shardId root historyLimit bufferLimit)
      (withLimits shardId root historyLimit bufferLimit) [] where
  tip := rfl
  trusted := by simp
  continuous := List.IsChain.nil
  certified := by simp
  history := by simp [withLimits]
  shardId := rfl
  trustedRoot := rfl
  historyLimit := rfl
  remembers := Nat.lt_of_lt_of_le Nat.one_pos (le_max_right historyLimit 1)
  increasing := List.Pairwise.nil
  bounded := by simp
  buffered := fun k cp found => nomatch found

/-- No link of the chain ends after its last one. -/
theorem Sound.last_le (h : Sound D start s chain)
    (atEnd : chain.getLast? = some last) (mem : cp ∈ chain) :
    cp.lastSequence ≤ last.lastSequence := by
  have own := (h.certified last (mem_of_getLast? atEnd)).ordered
  obtain ⟨older, rfl⟩ := getLast?_eq_some_iff.1 atEnd
  obtain ⟨-, before⟩ := pairwise_snoc.1 h.increasing
  exact forall_mem_snoc.2 ⟨fun cp inside => (before cp inside).le.trans own, le_rfl⟩ cp mem

theorem Sound.continues (h : Sound D start s chain) (next : s.Extends cp)
    (atEnd : chain.getLast? = some last) : Continues last cp := by
  have bound := h.bounded last (mem_of_getLast? atEnd)
  rw [Extends, h.tip, atEnd] at next
  obtain ⟨root, sequence⟩ := next
  rw [tipOf, nextSequence_of_lt bound] at sequence
  exact ⟨root, sequence⟩

theorem Sound.before (h : Sound D start s chain) (next : s.Extends cp) :
    ∀ link ∈ chain, link.lastSequence < cp.firstSequence := by
  intro link mem
  have atEnd := getLast?_eq_getLast_of_ne_nil (ne_nil_of_mem mem)
  calc link.lastSequence ≤ (chain.getLast (ne_nil_of_mem mem)).lastSequence :=
        h.last_le atEnd mem
    _ < cp.firstSequence := by
        rw [(h.continues next atEnd).sequence]
        exact Nat.lt_succ_self _

theorem Follows.of_accepted (h : Follows D s chain) {first : Nat}
    (found : s.accepted.get? first = some range) :
    ∃ link ∈ chain, link.firstSequence = first ∧ rangeOf link = range := by
  have listed := mem_entries.2 found
  rw [h.history] at listed
  obtain ⟨link, mem, same⟩ := mem_map.1 listed
  obtain ⟨rfl, rfl⟩ := Prod.mk.inj same
  exact ⟨link, mem_of_mem_drop mem, rfl, rfl⟩

variable (h : Sound D start s chain)
include h

/-- Dropping from the history what exceeds the limit leaves the last links of the longer chain. -/
theorem Sound.history_accept (next : s.Extends cp) : (s.accept cp).accepted.entries =
      ((chain ++ [cp]).drop ((chain ++ [cp]).length - s.historyLimit)).map
        fun cp => (cp.firstSequence, rangeOf cp) := by
  have appended : (s.accepted.insert cp.firstSequence (rangeOf cp)).entries =
      ((chain.drop (chain.length - s.historyLimit)) ++ [cp]).map
        fun cp => (cp.firstSequence, rangeOf cp) := by
    rw [entries_insert_last, h.history, map_append]
    · rfl
    · intro first range found
      obtain ⟨link, mem, rfl, -⟩ := h.of_accepted found
      exact (h.certified link mem).ordered.trans_lt (h.before next link mem)
  change (removeOldest^[_] _).entries = _
  rw [iterate_removeOldest_entries, OrdMap.size, appended, ← map_drop]
  have positive := h.remembers
  have short : (chain.drop (chain.length - s.historyLimit)).length + 1 - s.historyLimit ≤
      (chain.drop (chain.length - s.historyLimit)).length := by
    omega
  congr 1
  rw [length_map, length_append, length_singleton,
    drop_append_of_le_length short, drop_drop, length_drop,
    length_append, length_singleton, drop_append_of_le_length (by omega)]
  congr 2
  omega

theorem Sound.accept (certified : s.Certified D cp) (next : s.Extends cp)
    (bound : cp.lastSequence < u64Max) : Sound D start (s.accept cp) (chain ++ [cp]) where
  tip := by simp [ShardSync.accept]
  trusted := by
    intro first atHead
    cases chain with
    | nil =>
      cases atHead
      rwa [Extends, h.tip] at next
    | cons link rest => exact h.trusted first atHead
  continuous := by
    apply isChain_append.2
    refine ⟨h.continuous, List.IsChain.singleton cp, ?_⟩
    intro last atEnd first atHead
    cases atHead
    exact h.continues next atEnd
  certified := forall_mem_snoc.2 ⟨h.certified, certified⟩
  history := h.history_accept next
  __ := h
  increasing := pairwise_snoc.2 ⟨h.increasing, h.before next⟩
  bounded := forall_mem_snoc.2 ⟨h.bounded, bound⟩

/-! ## Buffer and registry -/

/-- Only the buffer and the registry change, and the registry only grows. -/
theorem Sound.reshape {sets : OrdMap Nat (ValidatorSet C)}
    {latest : Option Nat} {buffer : OrdMap Nat (Checkpoint C)} {count : Nat}
    (grows : ∀ epoch set, s.validatorSets.get? epoch = some set → sets.get? epoch = some set)
    (buffered : ∀ k cp, buffer.get? k = some cp →
      cp.firstSequence = k ∧ cp.lastSequence < u64Max ∧ s.Certified D cp) :
    Sound D start { s with
      validatorSets := sets
      latestEpoch := latest
      buffer := buffer
      bufferedDropped := count } chain where
  __ := h
  certified := fun link mem => (h.certified link mem).mono rfl grows
  buffered := by
    intro k cp found
    obtain ⟨key, bound, certified⟩ := buffered k cp found
    exact ⟨key, bound, certified.mono rfl grows⟩

theorem Sound.erase (k : Nat) (count : Nat) :
    Sound D start { s with buffer := s.buffer.erase k, bufferedDropped := count } chain := by
  apply h.reshape (fun _ _ known => known)
  intro k' cp found
  rw [get?_erase] at found
  split_ifs at found
  exact h.buffered k' cp found

theorem Sound.hold (certified : s.Certified D cp) (bound : cp.lastSequence < u64Max) :
    Sound D start { s with buffer := s.buffer.insert cp.firstSequence cp } chain := by
  apply h.reshape (fun _ _ known => known)
  intro k other found
  rw [get?_insert] at found
  split_ifs at found with key
  · cases found
    exact ⟨key.symm, bound, certified⟩
  · exact h.buffered k other found

theorem Sound.install {epoch : Nat} (set : ValidatorSet C)
    (latest : Option Nat) (absent : s.validatorSets.get? epoch = none) :
    Sound D start { s with
      validatorSets := s.validatorSets.insert epoch set
      latestEpoch := latest } chain := by
  apply h.reshape _ h.buffered
  exact fun _ _ known => get?_insert_of_absent absent known

omit h

theorem get?_of_isEmpty (h : m.isEmpty = true) (k : Nat) : m.get? k = none := by
  rw [OrdMap.isEmpty, List.isEmpty_iff] at h
  rw [OrdMap.get?, h]
  rfl

/-! ## Steps and runs -/

include h

/-- A buffered checkpoint that continues the tip is accepted with the invariant. -/
theorem Sound.takeBuffered {k : Nat} (found : s.buffer.get? k = some cp) (next : s.Extends cp) :
    Sound D start ({ s with buffer := s.buffer.erase k }.accept cp) (chain ++ [cp]) := by
  obtain ⟨-, bound, certified⟩ := h.buffered k cp found
  exact (h.erase k s.bufferedDropped).accept certified next bound

theorem Sound.drainBuffer : ∃ more, Sound D start s.drainBuffer (chain ++ more) := by
  apply drain_induction (P := fun s => ∃ more, Sound D start s (chain ++ more))
  · rintro s k count ⟨more, sound⟩
    exact ⟨more, sound.erase k count⟩
  · rintro s k cp ⟨more, sound⟩ found next -
    refine ⟨more ++ [cp], ?_⟩
    rw [← append_assoc]
    exact sound.takeBuffered found next
  · exact ⟨[], by rwa [append_nil]⟩
  · exact fun k cp found => (h.buffered k cp found).1

theorem Sound.perform {c : Call C} (bound : BelowMax s c) :
    ∃ more, Sound D start (s.perform D c).2 (chain ++ more) := by
  have effect := perform_effect (D := D) s c
  generalize s.perform D c = out at effect
  have same : Sound D start s (chain ++ []) := by rwa [append_nil]
  cases effect with
  | unchanged => exact ⟨[], same⟩
  | bootstrapped epoch set empty => exact ⟨[], same.install set _ (get?_of_isEmpty empty _)⟩
  | installed t old later absent known message signed => exact ⟨[], same.install _ _ absent⟩
  | advanced cp certified next =>
    obtain ⟨more, sound⟩ := (h.accept certified next bound.2).drainBuffer
    rw [append_assoc] at sound
    exact ⟨[cp] ++ more, sound⟩
  | dropped cp count => exact ⟨[], same.reshape (fun _ _ known => known) same.buffered⟩
  | buffered cp tip certified => exact ⟨[], same.hold certified bound.2⟩

omit h

theorem Reached.sound {shardId : Nat} {root : C.Hash} {historyLimit bufferLimit : Nat}
    (run : Reached D BelowMax (withLimits shardId root historyLimit bufferLimit) s) :
    ∃ chain, Sound D (withLimits shardId root historyLimit bufferLimit) s chain := by
  induction run with
  | start => exact ⟨[], Sound.init shardId root historyLimit bufferLimit⟩
  | call c before bound ih =>
    obtain ⟨chain, sound⟩ := ih
    obtain ⟨more, sound⟩ := sound.perform bound
    exact ⟨chain ++ more, sound⟩

theorem Sound.height_le {more : List (Checkpoint C)} (h : Sound D start s chain)
    (h' : Sound D start s' (chain ++ more)) (atTip : s.tip = some tip) :
    ∃ tip', s'.tip = some tip' ∧ tip.height ≤ tip'.height := by
  rw [h.tip] at atTip
  obtain ⟨last, atEnd, rfl⟩ := Option.map_eq_some_iff.1 atTip
  have mem : last ∈ chain ++ more := mem_append_left more (mem_of_getLast? atEnd)
  have atEnd' := getLast?_eq_getLast_of_ne_nil (ne_nil_of_mem mem)
  refine ⟨tipOf ((chain ++ more).getLast (ne_nil_of_mem mem)), ?_, h'.last_le atEnd' mem⟩
  rw [h'.tip, atEnd']
  rfl

/-- A certified checkpoint that conflicts with a retained link is an equivocation. -/
theorem Sound.ingest_conflict (h : Sound D start s chain) (certified : s.Certified D cp)
    (retained : s.accepted.get? cp.firstSequence = some range)
    (conflict : ¬(range.last = cp.lastSequence ∧ range.root = cp.newStateRoot)) :
    s.ingest D cp = (.error (.equivocation cp.firstSequence cp.lastSequence), s) := by
  obtain ⟨link, mem, first, -⟩ := h.of_accepted retained
  have atEnd := getLast?_eq_getLast_of_ne_nil (ne_nil_of_mem mem)
  generalize chain.getLast (ne_nil_of_mem mem) = last at atEnd
  have atTip : s.tip = some (tipOf last) := by rw [h.tip, atEnd]; rfl
  have old : cp.firstSequence < nextSequence (tipOf last).height := by
    have bound := h.bounded last (mem_of_getLast? atEnd)
    calc cp.firstSequence = link.firstSequence := first.symm
      _ ≤ link.lastSequence := (h.certified link mem).ordered
      _ ≤ last.lastSequence := h.last_le atEnd mem
      _ < last.lastSequence + 1 := Nat.lt_succ_self _
      _ = nextSequence (tipOf last).height := (nextSequence_of_lt bound).symm
  obtain ⟨shard, set, known, verified⟩ := certified
  have reported : s.classifyOld cp = .error (.equivocation cp.firstSequence cp.lastSequence) := by
    rw [classifyOld, retained]
    exact if_neg conflict
  rw [ingest, if_neg (not_not.2 shard), known]
  dsimp only
  rw [verified, atTip]
  dsimp only
  rw [ingestWithTip, if_neg old.ne, if_neg old.asymm, reported]

/-- In every state that calls reach, the client follows one chain of certified checkpoints from its
trusted root. Every call extends that chain or leaves it, the tip never falls back, a failed call
changes neither the tip nor the history nor the buffer, and a certified checkpoint that conflicts
with a retained link is reported. -/
theorem follows_one_chain {shardId : Nat} {root : C.Hash} {historyLimit bufferLimit : Nat}
    (run : Reached D BelowMax (withLimits shardId root historyLimit bufferLimit) s) :
    s.shardId = shardId ∧ s.trustedRoot = root ∧ s.historyLimit = max historyLimit 1 ∧
    ∃ chain, Follows D s chain ∧ (∀ c, BelowMax s c →
        (∃ more, Follows D (s.perform D c).2 (chain ++ more)) ∧ (∀ tip, s.tip = some tip →
          ∃ tip', (s.perform D c).2.tip = some tip' ∧ tip.height ≤ tip'.height) ∧
        (∀ err, (s.perform D c).1 = .error err →
          (s.perform D c).2.tip = s.tip ∧ (s.perform D c).2.accepted = s.accepted ∧
          (s.perform D c).2.buffer = s.buffer)) ∧
      (∀ cp range, s.Certified D cp → s.accepted.get? cp.firstSequence = some range →
        ¬(range.last = cp.lastSequence ∧ range.root = cp.newStateRoot) →
        (s.ingest D cp).1 = .error (.equivocation cp.firstSequence cp.lastSequence)) := by
  obtain ⟨chain, sound⟩ := run.sound
  refine ⟨sound.shardId, sound.trustedRoot, sound.historyLimit, chain, sound.toFollows, ?_, ?_⟩
  · intro c bound
    obtain ⟨more, after⟩ := sound.perform bound
    refine ⟨⟨more, after.toFollows⟩, fun tip atTip => sound.height_le after atTip, ?_⟩
    intro err failed
    rw [perform_error failed]
    exact ⟨rfl, rfl, rfl⟩
  · intro cp range certified retained conflict
    rw [sound.ingest_conflict certified retained conflict]

/-! ## A run -/

/-- The state after a list of calls. -/
def performAll (D : Digests C) (s : ShardSync C) (calls : List (Call C)) : ShardSync C :=
  calls.foldl (fun s c => (s.perform D c).2) s

theorem Reached.performAll {allowed : ShardSync C → Call C → Prop} (calls : List (Call C))
    (before : Reached D allowed start s) (ok : ∀ c ∈ calls, ∀ s, allowed s c) :
    Reached D allowed start (s.performAll D calls) := by
  induction calls generalizing s with
  | nil => exact before
  | cons c rest ih =>
    apply ih (before.call c (ok c mem_cons_self s))
    exact fun d later => ok d (mem_cons_of_mem c later)

/-- The checkpoint of one command that takes the root `100 + n` to `101 + n`. -/
def linkAt (epoch : Nat) (set : ValidatorSet ideal) (n : Nat) : Checkpoint ideal :=
  let header : Checkpoint ideal := ⟨epoch, 7, n, n, (100 + n : Nat), (101 + n : Nat), (0 : Nat),
    (0 : Nat), (0 : Nat), 0, ⟨(0 : Nat), 0, []⟩⟩
  { header with quorumCertificate := signAll set (header.hash idealDigests) }

def outOfOrder : List (Call ideal) :=
  [.bootstrap 0 sixVoters, .ingest (linkAt 0 sixVoters 0), .ingest (linkAt 0 sixVoters 2),
    .ingest (linkAt 0 sixVoters 1)]

theorem follows_one_chain_outOfOrder :
    ((withLimits 7 (100 : Nat) 2 4).performAll idealDigests outOfOrder).tip.map (·.height) =
      some 2 ∧
    ∃ chain, Follows idealDigests
      ((withLimits 7 (100 : Nat) 2 4).performAll idealDigests outOfOrder) chain := by
  have run : Reached idealDigests BelowMax (withLimits 7 (100 : Nat) 2 4)
      ((withLimits 7 (100 : Nat) 2 4).performAll idealDigests outOfOrder) := by
    apply Reached.performAll outOfOrder Reached.start
    simp [outOfOrder, BelowMax, linkAt, u64Max]
  obtain ⟨-, -, -, chain, follows, -⟩ := follows_one_chain run
  exact ⟨by decide +kernel, chain, follows⟩

end ShardSync

end Dexos.LightClient
