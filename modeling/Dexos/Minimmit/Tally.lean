import Dexos.Foundations.Attempt
import Dexos.Minimmit.Committee

/-!
# Vote tallies

A tally keeps, for one round, the votes of each candidate and the first vote of each
validator. `Tally.tryForm` turns the votes for a candidate into a certificate once
their weight meets a threshold.
-/

namespace Dexos.Minimmit

open Foundations List OrdMap

variable {C : Crypto} {candidate : C.Hash} {ss : List (Nat × C.Signature)} {c : MinimmitCommittee C}

inductive TallyOutcome (C : Crypto) where
  | accepted
  | duplicate
  | equivocated (first : C.Hash) (firstSignature : C.Signature)
deriving DecidableEq

structure Tally (C : Crypto) where
  /-- Candidate to signer to signature. -/
  votes : OrdMap C.Hash (OrdMap Nat C.Signature)
  /-- Validator to its first candidate and signature. -/
  seen : OrdMap Nat (C.Hash × C.Signature)
deriving DecidableEq

variable {t : Tally C}

namespace Tally

variable {i : Nat}

instance : EmptyCollection (Tally C) := ⟨⟨∅, ∅⟩⟩

/-- The votes retained for a candidate. -/
def votesFor (t : Tally C) (candidate : C.Hash) : OrdMap Nat C.Signature :=
  (t.votes.get? candidate).getD ∅

/-- The tally with one more vote, which also becomes the validator's first vote. -/
def add (t : Tally C) (validatorIndex : Nat) (candidate : C.Hash) (signature : C.Signature) :
    Tally C where
  votes := t.votes.insert candidate ((t.votesFor candidate).insert validatorIndex signature)
  seen := t.seen.insert validatorIndex (candidate, signature)

def record (t : Tally C) (validatorIndex : Nat) (candidate : C.Hash) (signature : C.Signature)
    (withinQuota : Bool) : Tally C × Except VoteError (TallyOutcome C) :=
  if withinQuota then (t.add validatorIndex candidate signature, .ok .accepted)
  else (t, .error (.quotaExceeded validatorIndex))

/-- The source's `Tally::admit`. -/
def admitSigned (t : Tally C) (validatorIndex : Nat) (candidate : C.Hash) (signature : C.Signature)
    (withinQuota : Bool) : Tally C × Except VoteError (TallyOutcome C) :=
  match t.seen.get? validatorIndex with
  | some (first, firstSignature) =>
    if first ≠ candidate then (t, .ok (.equivocated first firstSignature))
    else if (t.votes.get? candidate).any fun per => per.contains validatorIndex then
      (t, .ok .duplicate)
    else t.record validatorIndex candidate signature withinQuota
  | none => t.record validatorIndex candidate signature withinQuota

/-- The saturating weight of a signer list; `none` when a signer is not a member. -/
def signerWeight (committee : MinimmitCommittee C) : List (Nat × C.Signature) → Nat → Option Nat
  | [], weight => some weight
  | (index, _) :: rest, weight =>
    match committee.weight index with
    | none => none
    | some w => signerWeight committee rest (satAdd weight w)

def tryForm (t : Tally C) (committee : MinimmitCommittee C) (candidate message : C.Hash)
    (kind : ThresholdKind) : Option (Certificate C) :=
  match t.votes.get? candidate with
  | none => none
  | some per =>
    match signerWeight committee per.entries 0 with
    | none => none
    | some weight =>
      if weight < committee.threshold kind then none
      else (committee.assemble message per.entries).toOption

/-- Remove every retained vote of a validator; its first vote stays on record. -/
def purge (t : Tally C) (validatorIndex : Nat) : Tally C :=
  { t with votes := t.votes.mapValues fun per => per.erase validatorIndex }

def isEmpty (t : Tally C) : Bool := t.votes.isEmpty && t.seen.isEmpty

/-- The validator has a retained vote for the candidate. -/
def HasVote (t : Tally C) (candidate : C.Hash) (i : Nat) : Prop :=
  ∃ signature, (t.votesFor candidate).get? i = some signature

@[simp] theorem not_hasVote_empty (candidate : C.Hash) (i : Nat) :
    ¬ (∅ : Tally C).HasVote candidate i := by
  rintro ⟨signature, h⟩
  cases h

theorem ne_empty_of_hasVote (h : t.HasVote candidate i) : t ≠ ∅ := by
  rintro rfl
  exact not_hasVote_empty _ _ h

theorem ne_empty_of_seen {first : C.Hash × C.Signature} (h : t.seen.get? i = some first) :
    t ≠ ∅ := by
  rintro rfl
  cases h

theorem hasVote_iff :
    t.HasVote candidate i ↔ ∃ per, t.votes.get? candidate = some per ∧ per.contains i = true := by
  unfold HasVote votesFor
  cases h : t.votes.get? candidate with
  | none => simp
  | some per => simp [OrdMap.contains_iff]

theorem hasVote_purge {j : Nat} :
    (t.purge j).HasVote candidate i ↔ t.HasVote candidate i ∧ i ≠ j := by
  unfold HasVote votesFor purge
  rw [get?_mapValues]
  cases t.votes.get? candidate with
  | none => simp
  | some per =>
    simp only [Option.map_some, Option.getD_some, get?_erase]
    by_cases same : i = j <;> simp [same]

theorem hasVote_add {j : Nat} {c d : C.Hash} {signature : C.Signature} :
    (t.add j c signature).HasVote d i ↔ t.HasVote d i ∨ (d = c ∧ i = j) := by
  unfold HasVote votesFor add votesFor
  by_cases hd : d = c
  · subst hd
    by_cases hi : i = j
    · simp [hi]
    · simp [hi, get?_insert]
  · simp [hd, get?_insert]

/-- The validator's first vote was for another candidate. -/
def Conflicts (t : Tally C) (candidate : C.Hash) (i : Nat) : Prop :=
  ∃ first firstSignature, first ≠ candidate ∧ t.seen.get? i = some (first, firstSignature)

/-- The four results of admission. -/
inductive Admission (t : Tally C) (i : Nat) (candidate : C.Hash) (signature : C.Signature) :
    Bool → Tally C × Except VoteError (TallyOutcome C) → Prop where
  | equivocated {quota : Bool} (first : C.Hash) (firstSignature : C.Signature) :
      t.seen.get? i = some (first, firstSignature) → first ≠ candidate →
      Admission t i candidate signature quota (t, .ok (.equivocated first firstSignature))
  | duplicate {quota : Bool} : t.HasVote candidate i →
      Admission t i candidate signature quota (t, .ok .duplicate)
  | overQuota : Admission t i candidate signature false (t, .error (.quotaExceeded i))
  | accepted : ¬ t.Conflicts candidate i → (t.seen.contains i = true → ¬ t.HasVote candidate i) →
      Admission t i candidate signature true (t.add i candidate signature, .ok .accepted)

theorem record_admission (signature : C.Signature) (quota : Bool)
    (fresh : ¬ t.Conflicts candidate i) (new : t.seen.contains i = true → ¬ t.HasVote candidate i) :
    Admission t i candidate signature quota (t.record i candidate signature quota) := by
  cases quota with
  | false => exact .overQuota
  | true => exact .accepted fresh new

theorem admit_admission (t : Tally C) (i : Nat) (candidate : C.Hash) (signature : C.Signature)
    (quota : Bool) :
    Admission t i candidate signature quota (t.admitSigned i candidate signature quota) := by
  unfold admitSigned
  split
  · rename_i first firstSignature hseen
    split_ifs with differs voted
    · exact .equivocated first firstSignature hseen differs
    · refine .duplicate ?_
      rw [hasVote_iff]
      simpa [Option.any_eq_true] using voted
    · refine record_admission _ _ ?_ fun _ old => voted ?_
      · rintro ⟨other, otherSignature, hne, hother⟩
        rw [hseen] at hother
        cases hother
        exact hne (not_not.1 differs)
      · simpa [Option.any_eq_true] using hasVote_iff.1 old
  · rename_i hseen
    refine record_admission _ _ ?_ fun seen => by simp [OrdMap.contains, hseen] at seen
    rintro ⟨other, otherSignature, -, hother⟩
    simp [hseen] at hother

/-- A vote within its quota that neither conflicts nor repeats is accepted. -/
theorem admitSigned_accepted (signature : C.Signature) (fresh : ¬ t.Conflicts candidate i)
    (new : ¬ t.HasVote candidate i) :
    (t.admitSigned i candidate signature true).2 = .ok .accepted := by
  have admission := t.admit_admission i candidate signature true
  generalize t.admitSigned i candidate signature true = result at admission
  cases admission with
  | equivocated first firstSignature seen differs =>
    exact absurd ⟨first, firstSignature, differs, seen⟩ fresh
  | duplicate voted => exact absurd voted new
  | accepted => rfl

/-! ## Formed certificates -/

def voters (t : Tally C) (candidate : C.Hash) : Finset Nat := (t.votesFor candidate).keys.toFinset

theorem mem_voters : i ∈ t.voters candidate ↔ t.HasVote candidate i := by
  rw [voters, mem_toFinset, OrdMap.mem_keys]
  rfl

theorem signerWeight_some {acc w : Nat} (h : signerWeight c ss acc = some w)
    (bound : acc + (ss.map fun s => c.weightAt s.1).sum ≤ u64Max) :
    w = acc + (ss.map fun s => c.weightAt s.1).sum := by
  induction ss generalizing acc with
  | nil =>
    cases h
    rfl
  | cons s rest ih =>
    obtain ⟨index, signature⟩ := s
    rw [signerWeight] at h
    cases hw : c.weight index with
    | none => simp [hw] at h
    | some x =>
      have hx : c.weightAt index = x := by simp [MinimmitCommittee.weightAt, hw]
      simp only [hw] at h
      simp only [map_cons, sum_cons, hx] at bound ⊢
      rw [satAdd_of_le (by omega)] at h
      rw [ih h (by omega)]
      omega

theorem sum_voters (c : MinimmitCommittee C) (per : OrdMap Nat C.Signature) :
    (per.entries.map fun s => c.weightAt s.1).sum = c.weightOf per.keys.toFinset := by
  rw [MinimmitCommittee.weightOf, sum_toFinset _ per.keys_nodup, OrdMap.keys, map_map]
  rfl

end Tally

namespace MinimmitCommittee

theorem placeSigners_ok {len : Nat} {slots slots' : List (Option C.Signature)}
    (h : placeSigners len ss slots = .ok slots') (room : len ≤ slots.length) :
    (∀ s ∈ ss, s.1 < len) ∧ slots'.length = slots.length ∧
      ∀ i < slots.length,
        (slots'[i]? ≠ some none ↔ slots[i]? ≠ some none ∨ i ∈ ss.map Prod.fst) := by
  induction ss generalizing slots with
  | nil =>
    cases h
    simp
  | cons s rest ih =>
    obtain ⟨index, signature⟩ := s
    rw [placeSigners] at h
    split_ifs at h with foreign empty
    · obtain ⟨small, length, spec⟩ := ih h (by simpa using room)
      rw [length_set] at length spec
      refine ⟨by simpa [not_le.1 foreign] using small, length, fun i hi => ?_⟩
      rw [spec i hi]
      by_cases same : index = i
      · subst same
        simp [hi]
      · simp [same, Ne.symm same]
    · obtain ⟨small, length, spec⟩ := ih h room
      refine ⟨by simpa [not_le.1 foreign] using small, length, fun i hi => ?_⟩
      rw [spec i hi]
      by_cases same : i = index
      · subst same
        simp [empty]
      · simp [same]

theorem packSigners_ok {slots : List (Option C.Signature)} {k : Nat} {bitmap bitmap' : BitVec 16}
    {sigs sigs' : List C.Signature} (h : packSigners slots k bitmap sigs = .ok (bitmap', sigs'))
    (room : k + slots.length ≤ 16) (i : Nat) :
    bitmap'.getLsbD i = true ↔
      bitmap.getLsbD i = true ∨ (k ≤ i ∧ i < k + slots.length ∧ slots[i - k]? ≠ some none) := by
  induction slots generalizing k bitmap sigs with
  | nil =>
    cases h
    simp
  | cons slot rest ih =>
    simp only [length_cons] at room
    have tail : ∀ j, k + 1 ≤ j → (slot :: rest)[j - k]? = rest[j - (k + 1)]? := by
      intro j hj
      rw [show j - k = (j - (k + 1)) + 1 by omega, getElem?_cons_succ]
    cases slot with
    | none =>
      rw [ih h (by omega)]
      refine or_congr_right ⟨fun ⟨low, high, hit⟩ => ?_, fun ⟨low, high, hit⟩ => ?_⟩
      · exact ⟨by omega, by simp only [length_cons]; omega, by rw [tail i low]; exact hit⟩
      · have : i ≠ k := by
          rintro rfl
          simp at hit
        refine ⟨by omega, by simp only [length_cons] at high; omega, ?_⟩
        rwa [← tail i (by omega)]
    | some signature =>
      rw [packSigners] at h
      split_ifs at h
      rw [ih h (by omega), BitVec.getLsbD_or, Bool.or_eq_true, BitVec.getLsbD_twoPow]
      simp only [length_cons, Bool.and_eq_true, decide_eq_true_eq]
      rw [or_assoc]
      refine or_congr_right ⟨?_, ?_⟩
      · rintro (⟨-, rfl⟩ | ⟨low, high, hit⟩)
        · exact ⟨le_rfl, by omega, by simp⟩
        · exact ⟨by omega, by omega, by rw [tail i low]; exact hit⟩
      · rintro ⟨low, high, hit⟩
        by_cases same : i = k
        · exact .inl ⟨by omega, same.symm⟩
        · exact .inr ⟨by omega, by omega, by rw [← tail i (by omega)]; exact hit⟩

/-- An assembled certificate names exactly the signers it was assembled from. -/
theorem assemble_ok {message : C.Hash} {cert : Certificate C}
    (h : c.assemble message ss = .ok cert) :
    cert.message = message ∧ signers cert.signerBitmap = (ss.map Prod.fst).toFinset := by
  have small : c.len ≤ 16 := c.finalizeSet.length_le
  unfold assemble at h
  cases hplace : placeSigners c.len ss (List.replicate maxValidators none) with
  | error e => simp [hplace, bind, Except.bind] at h
  | ok slots =>
    simp only [hplace, bind, Except.bind] at h
    cases hpack : packSigners (slots.take c.len) 0 0#16 [] with
    | error e => simp [hpack] at h
    | ok packed =>
      obtain ⟨bitmap, sigs⟩ := packed
      simp only [hpack, pure, Except.pure, Except.ok.injEq] at h
      subst h
      refine ⟨rfl, ?_⟩
      obtain ⟨inside, length, filled⟩ := placeSigners_ok hplace (by simpa [maxValidators])
      simp only [length_replicate, maxValidators] at length filled
      have taken : (slots.take c.len).length = c.len := by
        rw [length_take]
        omega
      ext i
      rw [mem_signers, packSigners_ok hpack (by omega), taken, mem_toFinset]
      simp only [BitVec.getLsbD_zero, Bool.false_eq_true, false_or, Nat.zero_le, true_and,
        Nat.zero_add, Nat.sub_zero]
      constructor
      · rintro ⟨hi, hit⟩
        rw [getElem?_take_of_lt hi, filled i (by omega)] at hit
        rcases hit with start | hit
        · refine absurd ?_ start
          rw [getElem?_replicate, if_pos (by omega)]
        · exact hit
      · intro hi
        obtain ⟨s, hs, rfl⟩ := mem_map.1 hi
        refine ⟨inside s hs, ?_⟩
        rw [getElem?_take_of_lt (inside s hs), filled _ (by have := inside s hs; omega)]
        exact .inr hi

end MinimmitCommittee

namespace Tally

/-- A formed certificate signs the message, names exactly the retained voters, and their
weight, which is the one compared with the threshold, meets it. -/
theorem tryForm_some {message : C.Hash} {kind : ThresholdKind} {cert : Certificate C}
    (h : t.tryForm c candidate message kind = some cert) :
    cert.message = message ∧ MinimmitCommittee.signers cert.signerBitmap = t.voters candidate ∧
      signerWeight c (t.votesFor candidate).entries 0 = some (c.weightOf (t.voters candidate)) ∧
      c.threshold kind ≤ c.weightOf (t.voters candidate) := by
  unfold tryForm at h
  split at h
  · cases h
  · rename_i per hper
    have hfor : t.votesFor candidate = per := by simp [votesFor, hper]
    rw [voters, hfor]
    split at h
    · cases h
    · rename_i w hw
      split_ifs at h with low
      obtain ⟨hmessage, hsigners⟩ := MinimmitCommittee.assemble_ok (of_toOption h)
      have sum : w = c.weightOf per.keys.toFinset := by
        have := signerWeight_some hw (by
          rw [sum_voters, Nat.zero_add]
          exact (c.weightOf_le_total _).trans c.finalizeSet.totalWeight_eq.2)
        rw [this, sum_voters, Nat.zero_add]
      refine ⟨hmessage, hsigners, ?_, ?_⟩
      · rw [hw, sum]
      · rw [← sum]
        exact not_lt.1 low

end Tally

end Dexos.Minimmit
