import Mathlib.Algebra.Order.BigOperators.Group.Finset
import Dexos.Foundations.BoundedInt
import Dexos.Minimmit.Wire

/-!
# The dual-threshold committee

Validator sets, the Minimmit thresholds `M = 2B + 1` and `L = W - B`, certificate
assembly and certificate verification. A `MinimmitCommittee` carries the checks its
constructor made, so every committee is one that `MinimmitCommittee.new` accepts.

## Implementation notes

A cached key is modelled by the public key it was parsed from. The vectorised weight
reduction is modelled by its scalar oracle.
-/

namespace Dexos.Minimmit

open Foundations List Nat

variable {C : Crypto}

def maxValidators : Nat := 16

structure Validator (C : Crypto) where
  publicKey : C.PublicKey
  weight : Nat
deriving DecidableEq

/-! ## Validator sets -/

/-- The membership loop: positive weights, distinct keys, an overflow-checked total. -/
def membershipTotal : List (Validator C) → List C.PublicKey → Nat → Except QuorumError Nat
  | [], _, total => .ok total
  | v :: rest, seen, total =>
    if v.weight = 0 then .error .zeroWeight
    else if v.publicKey ∈ seen then .error .duplicateValidator
    else match checkedAdd total v.weight with
      | none => .error .weightOverflow
      | some total => membershipTotal rest (v.publicKey :: seen) total

def validateMembership (validators : List (Validator C)) : Except QuorumError Nat :=
  if validators.isEmpty || validators.length > maxValidators then .error .invalidSet
  else membershipTotal validators [] 0

/-- A validator set with its threshold, as the source's constructors build it. -/
structure ValidatorSet (C : Crypto) where
  validators : List (Validator C)
  totalWeight : Nat
  threshold : Nat
  valid : validateMembership validators = .ok totalWeight
  threshold_pos : 0 < threshold
  threshold_le : threshold ≤ totalWeight
deriving DecidableEq

def ValidatorSet.tryWithThreshold (validators : List (Validator C)) (threshold : Nat) :
    Except QuorumError (ValidatorSet C) :=
  match valid : validateMembership validators with
  | .error e => .error e
  | .ok total =>
    if range : threshold = 0 ∨ threshold > total then
      .error (.thresholdOutOfRange threshold total)
    else
      .ok ⟨validators, total, threshold, valid, by omega, by omega⟩

/-- The pair `(M, L)` for total weight `W` and Byzantine weight `B`. -/
def minimmitThresholds (totalWeight byzantineWeight : Nat) : Except QuorumError (Nat × Nat) :=
  if byzantineWeight ≥ totalWeight then
    .error (.thresholdOutOfRange (totalWeight - byzantineWeight) totalWeight)
  else match (checkedMul byzantineWeight 2).bind fun doubled => checkedAdd doubled 1 with
    | none => .error .weightOverflow
    | some advance => .ok (advance, totalWeight - byzantineWeight)

def requireMinimmitSizing (totalWeight byzantineWeight : Nat) : Except QuorumError Unit :=
  let insufficient := .insufficientSizing totalWeight byzantineWeight
  match (checkedMul byzantineWeight 5).bind fun fiveB => checkedAdd fiveB 1 with
  | none => .error insufficient
  | some minWeight =>
    if totalWeight ≥ minWeight then
      match minimmitThresholds totalWeight byzantineWeight with
      | .error e => .error e
      | .ok (advance, finalize) => if advance ≥ finalize then .error insufficient else .ok ()
    else .error insufficient

def minimmitUnitByzantineBound (n : Nat) : Nat := (n - 1) / 5

theorem membershipTotal_ok {vs : List (Validator C)} {seen : List C.PublicKey} {acc total : Nat}
    (h : membershipTotal vs seen acc = .ok total) :
    total = acc + (vs.map (·.weight)).sum ∧ (acc ≤ u64Max → total ≤ u64Max) := by
  induction vs generalizing seen acc with
  | nil =>
    cases h
    simp
  | cons v rest ih =>
    rw [membershipTotal] at h
    split_ifs at h with zero known
    cases hadd : checkedAdd acc v.weight with
    | none => simp [hadd] at h
    | some next =>
      simp only [hadd] at h
      obtain ⟨fits, rfl⟩ := checkedAdd_eq_some.1 hadd
      obtain ⟨sum, bound⟩ := ih h
      refine ⟨?_, fun _ => bound fits⟩
      rw [sum, map_cons, sum_cons, add_assoc]

namespace ValidatorSet

theorem tryWithThreshold_ok {vs : List (Validator C)} {t : Nat} {s : ValidatorSet C}
    (h : tryWithThreshold vs t = .ok s) : s.validators = vs ∧ s.threshold = t := by
  unfold tryWithThreshold at h
  split at h
  · cases h
  · split at h
    · cases h
    · cases h
      exact ⟨rfl, rfl⟩

theorem length_le (s : ValidatorSet C) : s.validators.length ≤ maxValidators := by
  have valid := s.valid
  unfold validateMembership at valid
  split_ifs at valid with bad
  simp only [Bool.or_eq_true, decide_eq_true_eq, not_or, not_lt] at bad
  exact bad.2

theorem length_pos (s : ValidatorSet C) : 0 < s.validators.length := by
  have valid := s.valid
  unfold validateMembership at valid
  split_ifs at valid with bad
  simp only [Bool.or_eq_true, not_or, List.isEmpty_iff] at bad
  exact List.length_pos_iff.2 bad.1

theorem totalWeight_eq (s : ValidatorSet C) :
    s.totalWeight = (s.validators.map (·.weight)).sum ∧ s.totalWeight ≤ u64Max := by
  have valid := s.valid
  unfold validateMembership at valid
  split_ifs at valid with bad
  obtain ⟨sum, bound⟩ := membershipTotal_ok valid
  exact ⟨by simpa using sum, bound (zero_le _)⟩

end ValidatorSet

theorem minimmitThresholds_ok {W B M L : Nat} (h : minimmitThresholds W B = .ok (M, L)) :
    M = 2 * B + 1 ∧ L = W - B ∧ B < W := by
  unfold minimmitThresholds at h
  split_ifs at h with small
  split at h
  · cases h
  · rename_i advance hadv
    cases h
    obtain ⟨doubled, hmul, hadd⟩ := Option.bind_eq_some_iff.1 hadv
    obtain ⟨-, rfl⟩ := checkedMul_eq_some.1 hmul
    obtain ⟨-, rfl⟩ := checkedAdd_eq_some.1 hadd
    exact ⟨by omega, rfl, by omega⟩

theorem requireMinimmitSizing_ok {W B : Nat} (h : requireMinimmitSizing W B = .ok ()) :
    5 * B + 1 ≤ W := by
  unfold requireMinimmitSizing at h
  split at h
  · cases h
  · rename_i minWeight hmin
    split_ifs at h with enough
    obtain ⟨fiveB, hmul, hadd⟩ := Option.bind_eq_some_iff.1 hmin
    obtain ⟨-, rfl⟩ := checkedMul_eq_some.1 hmul
    obtain ⟨-, rfl⟩ := checkedAdd_eq_some.1 hadd
    omega

/-! ## The committee -/

inductive ThresholdKind where
  | advance
  | finalize
deriving DecidableEq

inductive MinimmitCertificateError where
  | malformedCertificate
  | unknownSigner (index : Nat)
  | invalidSignature (index : Nat)
  | weightOverflow
  | belowThreshold (signed threshold : Nat)
deriving DecidableEq

def MinimmitCertificateError.toQuorumError : MinimmitCertificateError → QuorumError
  | .malformedCertificate => .malformedCertificate
  | .unknownSigner _ => .unknownSigner
  | .invalidSignature _ => .invalidSignature
  | .weightOverflow => .weightOverflow
  | .belowThreshold signed threshold => .belowThreshold signed threshold

/-- Parse every member key, failing on the first that does not parse. -/
def cacheKeys : List (Validator C) → Except VoteError (List C.PublicKey)
  | [] => .ok []
  | v :: rest =>
    if C.parses v.publicKey then (cacheKeys rest).map (v.publicKey :: ·)
    else .error .invalidValidatorSet

/-- Sixteen zero-padded weights when every weight fits in a `u32`. -/
def laneWeights (validators : List (Validator C)) : Option (List Nat) :=
  if validators.all fun v => v.weight ≤ u32Max then
    some (validators.map (·.weight) ++ replicate (maxValidators - validators.length) 0)
  else none

def allUnitWeights (validators : List (Validator C)) : Bool :=
  validators.all fun v => v.weight = 1

/-- A committee with both thresholds, together with the checks that built it. -/
structure MinimmitCommittee (C : Crypto) where
  epoch : Nat
  byzantineWeight : Nat
  advanceSet : ValidatorSet C
  finalizeSet : ValidatorSet C
  cachedKeys : List C.PublicKey
  weightLanes : Option (List Nat)
  unitWeights : Bool
  sameMembers : advanceSet.validators = finalizeSet.validators
  sized : requireMinimmitSizing finalizeSet.totalWeight byzantineWeight = .ok ()
  thresholds : minimmitThresholds finalizeSet.totalWeight byzantineWeight =
    .ok (advanceSet.threshold, finalizeSet.threshold)
  keys : cacheKeys finalizeSet.validators = .ok cachedKeys
  lanes : weightLanes = laneWeights finalizeSet.validators
  unit : unitWeights = allUnitWeights finalizeSet.validators
deriving DecidableEq

theorem ValidatorSet.totalWeight_unique {s s' : ValidatorSet C}
    (same : s.validators = s'.validators) : s.totalWeight = s'.totalWeight := by
  rw [s.totalWeight_eq.1, s'.totalWeight_eq.1, same]

namespace MinimmitCommittee

variable {bitmap : BitVec 16} {i : Nat} {c : MinimmitCommittee C}

def new (epoch : Nat) (validators : List (Validator C)) (byzantineWeight : Nat) :
    Except VoteError (MinimmitCommittee C) :=
  if validators.isEmpty then .error .emptyCommittee
  else if validators.length > maxValidators then .error .tooManyValidators
  else
    match hm : ValidatorSet.tryWithThreshold validators 1 with
    | .error _ => .error .invalidValidatorSet
    | .ok membership =>
      let totalWeight := membership.totalWeight
      match hs : requireMinimmitSizing totalWeight byzantineWeight with
      | .error _ => .error (.insufficientSizing totalWeight byzantineWeight)
      | .ok () =>
        match ht : minimmitThresholds totalWeight byzantineWeight with
        | .error _ => .error (.insufficientSizing totalWeight byzantineWeight)
        | .ok (advance, finalize) =>
          match ha : ValidatorSet.tryWithThreshold validators advance,
              hf : ValidatorSet.tryWithThreshold validators finalize with
          | .ok advanceSet, .ok finalizeSet =>
            match hk : cacheKeys finalizeSet.validators with
            | .error e => .error e
            | .ok cachedKeys =>
              have hma := ValidatorSet.tryWithThreshold_ok ha
              have hmf := ValidatorSet.tryWithThreshold_ok hf
              have total : membership.totalWeight = finalizeSet.totalWeight :=
                ValidatorSet.totalWeight_unique
                  ((ValidatorSet.tryWithThreshold_ok hm).1.trans hmf.1.symm)
              .ok {
                epoch, byzantineWeight, advanceSet, finalizeSet, cachedKeys
                weightLanes := laneWeights finalizeSet.validators
                unitWeights := allUnitWeights finalizeSet.validators
                sameMembers := hma.1.trans hmf.1.symm
                sized := total ▸ hs
                thresholds := by rw [← total, hma.2, hmf.2]; exact ht
                keys := hk
                lanes := rfl
                unit := rfl }
          | _, _ => .error .invalidValidatorSet

def newUnit (epoch : Nat) (validators : List (Validator C)) :
    Except VoteError (MinimmitCommittee C) :=
  if validators.any fun v => v.weight ≠ 1 then .error .invalidValidatorSet
  else new epoch validators (minimmitUnitByzantineBound validators.length)

section

variable (c)

def validators : List (Validator C) := c.finalizeSet.validators

def len : Nat := c.validators.length

def advanceThreshold : Nat := c.advanceSet.threshold

def finalizeThreshold : Nat := c.finalizeSet.threshold

def threshold : ThresholdKind → Nat
  | .advance => c.advanceThreshold
  | .finalize => c.finalizeThreshold

def publicKey (index : Nat) : Option C.PublicKey :=
  c.validators[index]?.map (·.publicKey)

def cachedKey (index : Nat) : Option C.PublicKey := c.cachedKeys[index]?

def weight (index : Nat) : Option Nat :=
  c.validators[index]?.map (·.weight)

/-- Round-robin leader `(epoch + view) mod n`, with `u64` wrapping addition. -/
def leader (view : Nat) : Nat :=
  (c.epoch + view) % 2 ^ 64 % max c.len 1

/-! ## Certificates -/

/-- Write the first signature seen for each index into its slot. -/
def placeSigners (len : Nat) : List (Nat × C.Signature) → List (Option C.Signature) →
    Except VoteError (List (Option C.Signature))
  | [], slots => .ok slots
  | (index, signature) :: rest, slots =>
    if index ≥ len then .error (.foreignSigner index)
    else placeSigners len rest
      (if slots[index]? = some none then slots.set index (some signature) else slots)

/-- Pack the filled slots into a bitmap and an ascending signature list. -/
def packSigners : List (Option C.Signature) → Nat → BitVec 16 → List C.Signature →
    Except VoteError (BitVec 16 × List C.Signature)
  | [], _, bitmap, signatures => .ok (bitmap, signatures)
  | none :: rest, index, bitmap, signatures => packSigners rest (index + 1) bitmap signatures
  | some signature :: rest, index, bitmap, signatures =>
    if signatures.length ≥ maxValidators then .error .tooManyValidators
    else packSigners rest (index + 1) (bitmap ||| BitVec.twoPow 16 index)
      (signatures ++ [signature])

def assemble (c : MinimmitCommittee C) (message : C.Hash) (signers : List (Nat × C.Signature)) :
    Except VoteError (Certificate C) := do
  let byIndex ← placeSigners c.len signers (replicate maxValidators none)
  let (signerBitmap, signatures) ← packSigners (byIndex.take c.len) 0 0#16 []
  return { message, signerBitmap, signatures }

/-- The bit indices set in a signer bitmap, ascending. -/
def signerIndices (bitmap : BitVec 16) : List Nat :=
  (range 16).filter fun i => bitmap.getLsbD i

/-- The ordered signature loop of certificate verification. -/
def checkSigners (c : MinimmitCommittee C) (cert : Certificate C) :
    List Nat → Nat → Except MinimmitCertificateError Unit
  | [], _ => .ok ()
  | index :: rest, signatureIndex =>
    if cert.signerBitmap.getLsbD index = false then checkSigners c cert rest signatureIndex
    else match c.validators[index]?, c.cachedKeys[index]? with
      | some _, some key =>
        match cert.signatures[signatureIndex]? with
        | none => .error .malformedCertificate
        | some signature =>
          if C.verify key cert.message signature then
            checkSigners c cert rest (signatureIndex + 1)
          else .error (.invalidSignature index)
      | _, _ => .error (.unknownSigner index)

def validMask (committeeLen : Nat) : Option (BitVec 16) :=
  if committeeLen ≤ 15 then some (BitVec.twoPow 16 committeeLen - 1#16)
  else if committeeLen = 16 then some (BitVec.allOnes 16)
  else none

/-- Overflow-checked sum of the selected weights, from bit `index` up. -/
def checkedSelect (bitmap : BitVec 16) : List Nat → Nat → Nat → Option Nat
  | [], _, total => some total
  | weight :: rest, index, total =>
    if bitmap.getLsbD index then
      (checkedAdd total weight).bind (checkedSelect bitmap rest (index + 1))
    else checkedSelect bitmap rest (index + 1) total

/-- `simd::selected_weight`, by its scalar oracle. -/
def laneSelectedWeight (bitmap : BitVec 16) (weights : List Nat) (committeeLen : Nat) :
    Option Nat :=
  match validMask committeeLen with
  | none => none
  | some mask =>
    if bitmap &&& ~~~mask ≠ 0#16 then none
    else checkedSelect bitmap (weights.take committeeLen) 0 0

def firstUnknownSigner (bitmap : BitVec 16) (committeeLen : Nat) : Nat :=
  ((signerIndices bitmap).find? (committeeLen ≤ ·)).getD 16

def selectedWeight (bitmap : BitVec 16) : Except MinimmitCertificateError Nat :=
  if c.unitWeights then .ok (signerIndices bitmap).length
  else match c.weightLanes with
    | some weights =>
      match laneSelectedWeight bitmap weights c.len with
      | some weight => .ok weight
      | none => .error (.unknownSigner (firstUnknownSigner bitmap c.len))
    | none =>
      match checkedSelect bitmap (c.validators.map (·.weight)) 0 0 with
      | some weight => .ok weight
      | none => .error .weightOverflow

def verifyDetailed (cert : Certificate C) (kind : ThresholdKind) :
    Except MinimmitCertificateError Unit :=
  if (signerIndices cert.signerBitmap).length ≠ cert.signatures.length then
    .error .malformedCertificate
  else match c.checkSigners cert (range 16) 0 with
    | .error e => .error e
    | .ok () =>
      match c.selectedWeight cert.signerBitmap with
      | .error e => .error e
      | .ok signed =>
        if signed < c.threshold kind then .error (.belowThreshold signed (c.threshold kind))
        else .ok ()

def verify (cert : Certificate C) (kind : ThresholdKind) : Except QuorumError Unit :=
  (c.verifyDetailed cert kind).mapError (·.toQuorumError)

/-! ## Weights -/

def weightAt (index : Nat) : Nat := (c.weight index).getD 0

def weightOf (s : Finset Nat) : Nat := ∑ i ∈ s, c.weightAt i

def signers (bitmap : BitVec 16) : Finset Nat := (signerIndices bitmap).toFinset

theorem mem_signers : i ∈ signers bitmap ↔ bitmap.getLsbD i = true := by
  simp only [signers, signerIndices, mem_toFinset, mem_filter, mem_range, and_iff_right_iff_imp]
  intro bit
  by_contra high
  simp [BitVec.getLsbD_of_ge bitmap i (by omega)] at bit

theorem card_signers (bitmap : BitVec 16) :
    (signers bitmap).card = (signerIndices bitmap).length :=
  toFinset_card_of_nodup (nodup_range.filter _)

theorem sizing : 5 * c.byzantineWeight + 1 ≤ c.finalizeSet.totalWeight :=
  requireMinimmitSizing_ok c.sized

theorem advanceThreshold_eq : c.advanceThreshold = 2 * c.byzantineWeight + 1 :=
  (minimmitThresholds_ok c.thresholds).1

theorem finalizeThreshold_eq :
    c.finalizeThreshold = c.finalizeSet.totalWeight - c.byzantineWeight :=
  (minimmitThresholds_ok c.thresholds).2.1

theorem cachedKeys_eq : c.cachedKeys = c.validators.map (·.publicKey) := by
  have parsed : ∀ (vs : List (Validator C)) (ks : List C.PublicKey),
      cacheKeys vs = .ok ks → ks = vs.map (·.publicKey) := by
    intro vs
    induction vs with
    | nil =>
      intro ks h
      cases h
      rfl
    | cons v rest ih =>
      intro ks h
      rw [cacheKeys] at h
      split_ifs at h
      cases hrest : cacheKeys rest with
      | error e => simp [hrest, Except.map] at h
      | ok tail =>
        simp only [hrest, Except.map, Except.ok.injEq] at h
        rw [← h, map_cons, ih tail hrest]
  exact parsed _ _ c.keys

theorem cachedKey_eq (i : Nat) : c.cachedKey i = c.publicKey i := by
  simp [cachedKey, publicKey, cachedKeys_eq]

end

theorem lt_len_of_cachedKey {key : C.PublicKey} (h : c.cachedKey i = some key) : i < c.len := by
  rw [cachedKey_eq, publicKey, Option.map_eq_some_iff] at h
  obtain ⟨v, hv, -⟩ := h
  exact (List.getElem?_eq_some_iff.1 hv).1

theorem weight_eq_none_iff : c.weight i = none ↔ c.len ≤ i := by
  simp [weight, len]

theorem weightAt_eq (c : MinimmitCommittee C) (i : Nat) :
    c.weightAt i = (c.validators.map (·.weight)).getD i 0 := by
  simp [weightAt, weight, getD_eq_getElem?_getD]

theorem weightAt_of_le (h : c.len ≤ i) : c.weightAt i = 0 := by
  rw [weightAt, weight_eq_none_iff.2 h]
  rfl

theorem sum_range_getD (ws : List Nat) : ∑ i ∈ Finset.range ws.length, ws.getD i 0 = ws.sum := by
  induction ws with
  | nil => rfl
  | cons w rest ih =>
    rw [length_cons, Finset.sum_range_succ', sum_cons, ← ih, add_comm]
    simp

section

variable (c)

theorem weightOf_range : c.weightOf (Finset.range c.len) = c.finalizeSet.totalWeight := by
  rw [c.finalizeSet.totalWeight_eq.1, ← sum_range_getD, length_map]
  exact Finset.sum_congr rfl fun i _ => c.weightAt_eq i

theorem weightOf_mono {s t : Finset Nat} (h : s ⊆ t) : c.weightOf s ≤ c.weightOf t :=
  Finset.sum_le_sum_of_subset h

theorem weightOf_inter_range (s : Finset Nat) :
    c.weightOf (s ∩ Finset.range c.len) = c.weightOf s := by
  refine Finset.sum_subset Finset.inter_subset_left fun i hi outside => ?_
  refine weightAt_of_le ?_
  by_contra inside
  exact outside (Finset.mem_inter.2 ⟨hi, Finset.mem_range.2 (by omega)⟩)

theorem weightOf_le_total (s : Finset Nat) : c.weightOf s ≤ c.finalizeSet.totalWeight := by
  rw [← c.weightOf_inter_range, ← c.weightOf_range]
  exact c.weightOf_mono Finset.inter_subset_right

end

/-! ## What verification guarantees -/

theorem checkedSelect_some {ws : List Nat} {k acc w : Nat}
    (h : checkedSelect bitmap ws k acc = some w) :
    w = acc + ∑ i ∈ Finset.range ws.length,
      if bitmap.getLsbD (k + i) then ws.getD i 0 else 0 := by
  induction ws generalizing k acc with
  | nil =>
    cases h
    simp
  | cons weight rest ih =>
    have tail : ∑ i ∈ Finset.range rest.length,
        (if bitmap.getLsbD (k + (i + 1)) then (weight :: rest).getD (i + 1) 0 else 0) =
        ∑ i ∈ Finset.range rest.length,
          if bitmap.getLsbD (k + 1 + i) then rest.getD i 0 else 0 :=
      Finset.sum_congr rfl fun i _ => by rw [show k + (i + 1) = k + 1 + i by omega, getD_cons_succ]
    rw [length_cons, Finset.sum_range_succ', tail, add_zero k, getD_cons_zero]
    rw [checkedSelect] at h
    split_ifs at h with bit
    · obtain ⟨next, hadd, hrest⟩ := Option.bind_eq_some_iff.1 h
      obtain ⟨-, rfl⟩ := checkedAdd_eq_some.1 hadd
      rw [ih hrest, if_pos bit]
      omega
    · rw [ih h, if_neg bit]
      rfl

theorem weightOf_signers (inside : signers bitmap ⊆ Finset.range c.len) :
    c.weightOf (signers bitmap) =
      ∑ i ∈ Finset.range c.len, if bitmap.getLsbD i then c.weightAt i else 0 := by
  rw [← Finset.sum_filter]
  refine Finset.sum_congr (Finset.ext fun i => ?_) fun _ _ => rfl
  rw [Finset.mem_filter, mem_signers]
  exact ⟨fun bit => ⟨inside (mem_signers.2 bit), bit⟩, fun h => h.2⟩

theorem selectedWeight_ok {w : Nat} (inside : signers bitmap ⊆ Finset.range c.len)
    (h : c.selectedWeight bitmap = .ok w) : w = c.weightOf (signers bitmap) := by
  unfold selectedWeight at h
  split_ifs at h with allUnit
  · cases h
    rw [c.unit, allUnitWeights, all_eq_true] at allUnit
    rw [← card_signers, Finset.card_eq_sum_ones]
    refine Finset.sum_congr rfl fun i hi => ?_
    have small : i < c.validators.length := Finset.mem_range.1 (inside hi)
    have one := allUnit _ (getElem_mem small)
    simpa [weightAt, weight, small, eq_comm] using one
  · rw [weightOf_signers inside]
    cases hlanes : c.weightLanes with
    | none =>
      simp only [hlanes] at h
      cases hsel : checkedSelect bitmap (c.validators.map (·.weight)) 0 0 with
      | none => simp [hsel] at h
      | some total =>
        simp only [hsel, Except.ok.injEq] at h
        rw [← h, checkedSelect_some hsel, length_map, zero_add]
        exact Finset.sum_congr rfl fun i _ => by rw [zero_add, c.weightAt_eq]
    | some lanes =>
      simp only [hlanes, laneSelectedWeight] at h
      rw [c.lanes, laneWeights] at hlanes
      split_ifs at hlanes
      cases hlanes
      split at h
      · rename_i total hsel
        split at hsel
        · cases hsel
        · split_ifs at hsel
          cases h
          have takeLen : (c.finalizeSet.validators.map Validator.weight ++
              replicate (maxValidators - c.finalizeSet.validators.length) 0).take c.len =
              c.validators.map Validator.weight := by
            have : c.len = (c.finalizeSet.validators.map Validator.weight).length := by
              simp [len, validators]
            rw [this]
            exact take_left
          rw [takeLen] at hsel
          rw [checkedSelect_some hsel, length_map, zero_add]
          exact Finset.sum_congr rfl fun i _ => by rw [zero_add, c.weightAt_eq]
      · cases h

theorem checkSigners_ok {cert : Certificate C} {indices : List Nat} {k : Nat}
    (h : c.checkSigners cert indices k = .ok ()) (hi : i ∈ indices)
    (bit : cert.signerBitmap.getLsbD i = true) :
    ∃ key signature, c.cachedKey i = some key ∧ signature ∈ cert.signatures ∧
      C.verify key cert.message signature = true := by
  induction indices generalizing k with
  | nil => cases hi
  | cons index rest ih =>
    rw [checkSigners] at h
    split_ifs at h with clear
    · rcases mem_cons.1 hi with rfl | hi
      · simp [clear] at bit
      · exact ih h hi
    · split at h
      · rename_i key _ hkey
        split at h
        · cases h
        · rename_i signature hsig
          split_ifs at h with valid
          rcases mem_cons.1 hi with rfl | hi
          · exact ⟨key, signature, hkey, mem_of_getElem? hsig, valid⟩
          · exact ih h hi
      · cases h

/-- An accepted certificate names members that all signed its message and whose weight
reaches the threshold. -/
theorem verify_ok {cert : Certificate C} {kind : ThresholdKind} (h : c.verify cert kind = .ok ()) :
    signers cert.signerBitmap ⊆ Finset.range c.len ∧
      c.threshold kind ≤ c.weightOf (signers cert.signerBitmap) ∧
      ∀ i ∈ signers cert.signerBitmap, ∃ key signature, c.cachedKey i = some key ∧
        signature ∈ cert.signatures ∧ C.verify key cert.message signature = true := by
  have detailed : c.verifyDetailed cert kind = .ok () := by
    cases hd : c.verifyDetailed cert kind with
    | ok u => rfl
    | error e => simp [verify, hd, Except.mapError] at h
  unfold verifyDetailed at detailed
  split_ifs at detailed with counted
  split at detailed
  · cases detailed
  · rename_i hcheck
    have signed := fun i (hi : i ∈ signers cert.signerBitmap) =>
      checkSigners_ok hcheck (mem_filter.1 (mem_toFinset.1 hi)).1 (mem_signers.1 hi)
    have inside : signers cert.signerBitmap ⊆ Finset.range c.len := by
      intro i hi
      obtain ⟨key, -, hkey, -⟩ := signed i hi
      exact Finset.mem_range.2 (lt_len_of_cachedKey hkey)
    refine ⟨inside, ?_, signed⟩
    split at detailed
    · cases detailed
    · rename_i w hw
      split_ifs at detailed with low
      rw [← selectedWeight_ok inside hw]
      exact not_lt.1 low

end MinimmitCommittee

def Notarization.verify (n : Notarization C) (c : MinimmitCommittee C) : Except CertError Unit :=
  if n.cert.message ≠ n.digest then .error .digestMismatch
  else (c.verify n.cert .advance).mapError .quorum

def Nullification.verify (n : Nullification C) (c : MinimmitCommittee C) : Except CertError Unit :=
  if n.cert.message ≠ n.digest then .error .digestMismatch
  else (c.verify n.cert .advance).mapError .quorum

def ExecAttest.verify (a : ExecAttest C) (c : MinimmitCommittee C) : Except VoteError Unit :=
  match c.cachedKey a.validatorIndex with
  | none => .error (.foreignSigner a.validatorIndex)
  | some key => if C.verify key a.digest a.signature then .ok () else .error .invalidSignature

end Dexos.Minimmit
