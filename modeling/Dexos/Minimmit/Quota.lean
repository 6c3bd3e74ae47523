import Dexos.Minimmit.VoteOnce

/-!
# The vote quota

A validator's counter is the number of its votes in the two view-keyed tally maps. The
counter changes where a vote is accepted, where a validator is halted, where views are
pruned and where an epoch begins; each of these changes the list of retained votes alike.
-/

namespace Dexos.Minimmit

open Foundations List OrdMap Tally

variable {C : Crypto} {i j : Nat} {candidate : C.Hash} {t : Tally C}

/-- A stored value that lists one more element makes the whole map list one more. -/
theorem flatMap_insert_perm {K V A : Type} [LinearOrder K] {m : OrdMap K V} {f : V → List A} {k : K}
    {v : V} {a : A} (grown : (f v).Perm (a :: ((m.get? k).map f).getD [])) :
    ((m.insert k v).values.flatMap f).Perm (a :: m.values.flatMap f) := by
  have inserted : ((m.insert k v).values.flatMap f).Perm (f v ++ (m.erase k).values.flatMap f) :=
    ((entries_insert_perm m k v).map Prod.snd).flatMap_right f
  refine inserted.trans ((grown.append_right _).trans (.cons a ?_))
  cases found : m.get? k with
  | none => rw [erase_of_absent found]; rfl
  | some old => exact (((entries_perm found).map Prod.snd).flatMap_right f).symm

namespace Tally

/-- The validators of the retained votes, once for each candidate they have a vote for. -/
def signers (t : Tally C) : List Nat := t.votes.values.flatMap fun per => per.keys

theorem signers_add (signature : C.Signature) (new : ¬ t.HasVote candidate j) :
    (t.add j candidate signature).signers.Perm (j :: t.signers) := by
  have absent : (t.votesFor candidate).get? j = none := by
    cases stored : (t.votesFor candidate).get? j with
    | none => rfl
    | some signature => exact absurd ⟨signature, stored⟩ new
  refine flatMap_insert_perm (((entries_insert_perm _ j signature).map Prod.fst).trans ?_)
  rw [erase_of_absent absent, votesFor]
  cases t.votes.get? candidate <;> rfl

theorem signers_purge : (t.purge j).signers = t.signers.filter (· ≠ j) := by
  simp only [signers, purge, OrdMap.values, OrdMap.mapValues, map_map, flatMap_map,
    filter_flatMap, OrdMap.keys, OrdMap.erase, OrdMap.filter, filter_map, Function.comp_def]

/-- Not empty, and with every vote on record under its validator. -/
def Recorded (t : Tally C) : Prop :=
  t.isEmpty = false ∧ ∀ candidate i, t.HasVote candidate i → t.seen.contains i = true

theorem Recorded.purge (h : t.Recorded) : (t.purge j).Recorded := by
  refine ⟨?_, fun candidate i voted => h.2 candidate i (hasVote_purge.1 voted).1⟩
  rw [← h.1]
  simp [isEmpty, Tally.purge, OrdMap.isEmpty, OrdMap.mapValues]

theorem recorded_add (signature : C.Signature)
    (seen : ∀ candidate i, t.HasVote candidate i → t.seen.contains i = true) :
    (t.add j candidate signature).Recorded := by
  have own : (t.add j candidate signature).seen.get? j = some (candidate, signature) :=
    get?_insert_self ..
  constructor
  · rw [isEmpty, Bool.and_eq_false_iff]
    exact .inr (isEmpty_eq_false_iff.2 (ne_nil_of_mem (mem_entries.2 own)))
  · intro c i voted
    rw [OrdMap.contains_iff]
    by_cases here : i = j
    · rw [here]
      exact ⟨_, own⟩
    · obtain ⟨first, stored⟩ := contains_iff.1
        (seen c i ((hasVote_add.1 voted).resolve_right fun same => here same.2))
      exact ⟨first, by rw [add, get?_insert_ne _ _ here, stored]⟩

end Tally

namespace MinimmitReplica

variable {r r' : MinimmitReplica C}

/-- The validators of the retained votes, once for each (view, candidate) entry. -/
def retained (r : MinimmitReplica C) : List Nat :=
  r.notarizeVotes.values.flatMap signers ++ r.nullifyVotes.values.flatMap signers

theorem retained_prune (horizon : Nat) : r.retained.Perm
    (evictedSigners r.notarizeVotes horizon ++ evictedSigners r.nullifyVotes horizon ++
      (r.prune horizon).retained) := by
  have split : ∀ m : OrdMap Nat (Tally C), (m.values.flatMap signers).Perm
      (evictedSigners m horizon ++
        (m.filter fun view _ => horizon ≤ view).values.flatMap signers) := by
    intro m
    have parts := (filter_append_perm (fun e => decide (e.1 < horizon)) m.entries).symm
    refine ((parts.map Prod.snd).flatMap_right signers).trans (.of_eq ?_)
    simp only [evictedSigners, OrdMap.values, OrdMap.filter, map_append, flatMap_append,
      flatMap_map, signers, ← decide_not, not_lt]
  refine ((split _).append (split _)).trans ?_
  simp only [append_assoc, retained, prune]
  exact (perm_append_comm_assoc _ _ _).append_left _

theorem count_release (signers : List Nat) (quota : OrdMap Nat Nat) :
    ((signers.foldl releaseQuota quota).get? i).getD 0 = (quota.get? i).getD 0 -
      signers.count i := by
  induction signers generalizing quota with
  | nil => rfl
  | cons j rest ih =>
    have one : ((releaseQuota quota j).get? i).getD 0 =
        (quota.get? i).getD 0 - if j = i then 1 else 0 := by
      unfold releaseQuota
      cases held : quota.get? j with
      | none =>
        by_cases same : j = i
        · simp [← same, held]
        · simp [same]
      | some count =>
        by_cases same : j = i
        · subst same
          by_cases last : count - 1 = 0 <;> simp [last, held]
        · by_cases last : count - 1 = 0 <;>
            simp [last, get?_erase, get?_insert, Ne.symm same, same]
    rw [foldl_cons, ih, one, count_cons]
    simp only [beq_iff_eq]
    omega

/-- The counters are exact and within the quota, and the retained tallies are those of views
above the floor with a vote on record. -/
structure QuotaExact (r : MinimmitReplica C) : Prop where
  quota : r.voteQuota = defaultVoteQuota
  counted : ∀ i, (r.perValidator.get? i).getD 0 = r.retained.count i
  within : ∀ i, (r.perValidator.get? i).getD 0 ≤ r.voteQuota
  kept : ∀ kind view t, (r.votesOf kind).get? view = some t → r.viewFloor ≤ view ∧ t.Recorded

theorem QuotaExact.accepted (h : QuotaExact r) {kind : TallyKind} {view : Nat}
    {signature : C.Signature} (window : r.viewFloor ≤ view)
    (room : (r.perValidator.get? j).getD 0 < r.voteQuota)
    (new : (r.tally kind view).seen.contains j = true → ¬ (r.tally kind view).HasVote candidate j) :
    QuotaExact (r.accepted kind view j candidate signature) := by
  have seen : ∀ c i, (r.tally kind view).HasVote c i →
      (r.tally kind view).seen.contains i = true := by
    intro c i voted
    unfold tally at voted ⊢
    cases stored : (r.votesOf kind).get? view with
    | none =>
      rw [stored] at voted
      exact absurd voted (not_hasVote_empty c i)
    | some t =>
      rw [stored] at voted
      exact (h.kept kind view t stored).2.2 c i voted
  have grown : (((r.votesOf kind).insert view
      ((r.tally kind view).add j candidate signature)).values.flatMap signers).Perm
        (j :: (r.votesOf kind).values.flatMap signers) := by
    refine flatMap_insert_perm ((signers_add signature fun voted =>
      new (seen _ _ voted) voted).trans (.of_eq ?_))
    rw [tally]
    cases (r.votesOf kind).get? view <;> rfl
  have counter : ∀ i, ((r.accepted kind view j candidate signature).perValidator.get? i).getD 0 =
      (r.perValidator.get? i).getD 0 + if j = i then 1 else 0 := by
    intro i
    have small : defaultVoteQuota < u64Max := by decide
    have := h.quota
    simp only [MinimmitReplica.accepted, get?_insert]
    by_cases same : i = j
    · simp [same, satAdd_of_le (show (r.perValidator.get? j).getD 0 + 1 ≤ u64Max by omega)]
    · simp [same, Ne.symm same]
  refine ⟨h.quota, fun i => ?_, fun i => ?_, fun kind' view' t stored => ?_⟩
  · have all : (r.accepted kind view j candidate signature).retained.Perm (j :: r.retained) := by
      cases kind with
      | notarize => exact grown.append_right _
      | nullify => exact (grown.append_left _).trans perm_middle
    rw [counter, all.count_eq, count_cons, h.counted]
    simp only [beq_iff_eq]
  · have := h.within i
    rw [counter]
    split_ifs with same
    · exact same ▸ room
    · exact this
  · rw [votesOf_accepted] at stored
    split_ifs at stored with same
    · rw [get?_insert] at stored
      split_ifs at stored with here
      · cases stored
        exact ⟨here ▸ window, recorded_add signature seen⟩
      · exact h.kept kind view' t stored
    · exact h.kept kind' view' t stored

theorem QuotaExact.halt (h : QuotaExact r) (j : Nat) : QuotaExact (r.halt j) := by
  have counter : ∀ i, ((r.halt j).perValidator.get? i).getD 0 =
      if i = j then 0 else (r.perValidator.get? i).getD 0 := by
    intro i
    rw [MinimmitReplica.halt, get?_erase]
    split_ifs <;> rfl
  have all : (r.halt j).retained = r.retained.filter (· ≠ j) := by
    simp only [retained, MinimmitReplica.halt, OrdMap.values, OrdMap.mapValues, map_map,
      flatMap_map, filter_append, filter_flatMap, Function.comp_def, signers_purge]
  refine ⟨h.quota, fun i => ?_, fun i => ?_, fun kind view t stored => ?_⟩
  · rw [counter, all]
    split_ifs with same
    · exact (count_eq_zero.2 (by simp [same])).symm
    · rw [count_filter (by simpa using same), h.counted]
  · rw [counter]
    split_ifs
    · exact Nat.zero_le _
    · exact h.within i
  · have votes : (r.halt j).votesOf kind = (r.votesOf kind).mapValues (·.purge j) := by
      cases kind <;> rfl
    rw [votes, get?_mapValues, Option.map_eq_some_iff] at stored
    obtain ⟨old, held, rfl⟩ := stored
    exact ⟨(h.kept kind view old held).1, (h.kept kind view old held).2.purge⟩

theorem QuotaExact.prune (h : QuotaExact r) (horizon : Nat) : QuotaExact (r.prune horizon) := by
  have counter : ∀ i, ((r.prune horizon).perValidator.get? i).getD 0 =
      (r.perValidator.get? i).getD 0 -
        (evictedSigners r.notarizeVotes horizon ++ evictedSigners r.nullifyVotes horizon).count i :=
    fun i => count_release _ _
  refine ⟨h.quota, fun i => ?_, fun i => ?_, fun kind view t stored => ?_⟩
  · rw [counter, h.counted, (retained_prune horizon).count_eq, count_append]
    exact Nat.add_sub_cancel_left ..
  · rw [counter]
    exact (Nat.sub_le _ _).trans (h.within i)
  · have votes : (r.prune horizon).votesOf kind =
        (r.votesOf kind).filter fun view _ => horizon ≤ view := by
      cases kind <;> rfl
    rw [votes, get?_filter, Option.filter_eq_some_iff] at stored
    obtain ⟨floor, recorded⟩ := h.kept kind view t stored.1
    exact ⟨max_le floor (of_decide_eq_true stored.2), recorded⟩

theorem QuotaExact.leaf {P : Policy C} {A : Set (Nat × C.Hash)} {os : List (Output C)}
    (h : QuotaExact r) (move : Leaf P A r os r') : QuotaExact r' := by
  cases move with
  | accept kind view j candidate signature window _ _ _ _ room new =>
    exact h.accepted window room new
  | dropEmpty kind view empty =>
    cases stored : (r.votesOf kind).get? view with
    | none => rwa [erase_of_absent stored, setVotes_self]
    | some t => simp [tally, stored, Option.getD_some, (h.kept kind view t stored).2.1] at empty
  | halt j => exact h.halt j
  | settle view tip =>
    have tipped : QuotaExact { r with finalizedTip := (view, tip) } :=
      ⟨h.quota, h.counted, h.within, h.kept⟩
    exact tipped.prune _
  | extend _ _ entry | extendSilently _ _ entry =>
    rw [extended_frame]
    exact ⟨h.quota, h.counted, h.within, h.kept⟩
  | complete height =>
    rw [complete_frame]
    exact ⟨h.quota, h.counted, h.within, h.kept⟩
  | park a header cert =>
    rw [park_frame]
    exact ⟨h.quota, h.counted, h.within, h.kept⟩
  | _ => exact ⟨h.quota, h.counted, h.within, h.kept⟩

theorem quotaExact_of_empty (quota : r.voteQuota = defaultVoteQuota) (counters : r.perValidator = ∅)
    (votes : ∀ kind, r.votesOf kind = ∅) : QuotaExact r := by
  refine ⟨quota, fun i => ?_, fun i => ?_, fun kind view t stored => ?_⟩
  · change _ =
      ((r.votesOf .notarize).values.flatMap _ ++ (r.votesOf .nullify).values.flatMap _).count i
    rw [votes, votes, counters]
    rfl
  · rw [counters]
    exact Nat.zero_le _
  · simp [votes] at stored

/-- In every state of every run each counter is the number of the validator's retained votes
and at most the quota, every retained tally is of a view above the floor, and none is empty. -/
theorem quotaExact_run (committee : MinimmitCommittee C) (selfIndex epoch : Nat)
    (genesisHash : C.Hash) (signer : Option C.KeyPair) (calls : List (Call C)) :
    QuotaExact
      (Reaction.run call (initial committee selfIndex genesisHash epoch signer) calls).1 := by
  refine run_invariant (fun _ _ _ h move => h.leaf move)
    (fun _ _ h => ⟨h.quota, h.counted, h.within, h.kept⟩)
    (fun _ _ _ _ h => quotaExact_of_empty h.quota rfl ?_)
    (ready_of_empty rfl rfl rfl rfl rfl) (quotaExact_of_empty rfl rfl ?_) calls
  all_goals exact fun kind => by cases kind <;> rfl

end MinimmitReplica

end Dexos.Minimmit
