import Dexos.Foundations.Attempt
import Dexos.Minimmit.Committee

/-!
# Quorum certificates of a validator set

`ValidatorSet::verify` and `ValidatorSet::commitment`. A certificate names its signers by their
position in the set, while a commitment sorts the members by key.

## Implementation notes

The preimage of a digest is a list of fields, as it is for the consensus digests; here a field
may also be a key, a word of any width or a single byte. A field of variable length is a list of
bytes.
-/

namespace Dexos.Minimmit

open Foundations List

variable {C : Crypto} {seen : List C.PublicKey} {vs : List (Validator C)}

inductive Datum (C : Crypto) where
  | byte (value : UInt8)
  | word (width : Nat) (value : Int)
  | hash (value : C.Hash)
  | key (value : C.PublicKey)

/-- The hash function on general preimages, the zero hash, and the order of keys as big-endian
numbers. -/
structure Digests (C : Crypto) where
  hashData : String → List (Datum C) → C.Hash
  zero : C.Hash
  keyRank : C.PublicKey → Nat
  keyRank_injective : Function.Injective keyRank

/-- The kind and the width of a field. -/
def Datum.kind : Datum C → Nat × Nat
  | .byte _ => (0, 1)
  | .word width _ => (1, width)
  | .hash _ => (2, 32)
  | .key _ => (3, 32)

/-- Two preimages of one layout: plain bytes, or fields of one kind and width at every place up to
which the preimages agree. -/
inductive Aligned : List (Datum C) → List (Datum C) → Prop
  | bytes (bs bs' : List UInt8) : Aligned (bs.map .byte) (bs'.map .byte)
  | cons {x y : Datum C} {fs fs' : List (Datum C)} (kind : x.kind = y.kind)
      (rest : x = y → Aligned fs fs') : Aligned (x :: fs) (y :: fs')

theorem Aligned.of_kinds {fs fs' : List (Datum C)}
    (same : fs.map Datum.kind = fs'.map Datum.kind) : Aligned fs fs' := by
  induction fs generalizing fs' with
  | nil =>
    rw [map_eq_nil_iff.1 same.symm]
    exact .bytes [] []
  | cons x fs ih =>
    obtain ⟨y, rest, rfl, kind, kinds⟩ := map_eq_cons_iff.1 same.symm
    exact .cons kind.symm fun _ => ih kinds.symm

/-- The hash function tells domains and preimages of one layout apart: fields of different kinds may
have the same bytes. -/
def Digests.CollisionFree (D : Digests C) : Prop :=
  ∀ d d' : String, ∀ fs fs' : List (Datum C), D.hashData d fs = D.hashData d' fs' →
    d = d' ∧ (Aligned fs fs' → fs = fs')

def domainNode : String := "dexos:node:v1"

def hashNode (D : Digests C) (left right : C.Hash) : C.Hash :=
  D.hashData domainNode [.hash left, .hash right]

theorem hashNode_inj {D : Digests C} (free : D.CollisionFree) (l r l' r' : C.Hash)
    (same : hashNode D l r = hashNode D l' r') : l = l' ∧ r = r' := by
  simpa using (free _ _ _ _ same).2 (.of_kinds rfl)

/-- A signature verifies under one key only. -/
def Crypto.Exclusive (C : Crypto) : Prop :=
  ∀ k k' message signature, C.verify k message signature = true →
    C.verify k' message signature = true → k = k'

namespace ValidatorSet

/-- One signer of a certificate: its weight is added when its signature verifies. -/
def countSigner (s : ValidatorSet C) (message : C.Hash) (signed : Nat) (x : Nat × C.Signature) :
    Except QuorumError Nat := do
  let validator ← orError s.validators[x.1]? .unknownSigner
  require (C.verify validator.publicKey message x.2 = true) .invalidSignature
  orError (checkedAdd signed validator.weight) .weightOverflow

def verify (s : ValidatorSet C) (qc : Certificate C) : Except QuorumError Unit := do
  require ((MinimmitCommittee.signerIndices qc.signerBitmap).length = qc.signatures.length)
    .malformedCertificate
  let signed ← ((MinimmitCommittee.signerIndices qc.signerBitmap).zip qc.signatures).foldlM
    (s.countSigner qc.message) 0
  require (s.threshold ≤ signed) (.belowThreshold signed s.threshold)

/-! ## Commitment -/

def domainValidatorSet : String := "dexos:validator-set:v1"

def validatorSetVersion : Nat := 1

/-- The members by ascending public key. -/
def ordered (D : Digests C) (s : ValidatorSet C) : List (Validator C) :=
  s.validators.insertionSort fun v w => D.keyRank v.publicKey ≤ D.keyRank w.publicKey

def commitment (D : Digests C) (s : ValidatorSet C) : C.Hash :=
  D.hashData domainValidatorSet
    ([.word 2 validatorSetVersion, .word 8 s.threshold, .word 8 s.totalWeight,
        .word 4 (s.ordered D).length] ++
      (s.ordered D).flatMap fun v => [.key v.publicKey, .word 8 v.weight])

end ValidatorSet

/-! ## Members -/

theorem membershipTotal_distinct {acc total : Nat}
    (done : membershipTotal vs seen acc = .ok total) :
    (vs.map Validator.publicKey).Nodup ∧ ∀ v ∈ vs, v.publicKey ∉ seen := by
  induction vs generalizing seen acc with
  | nil => exact ⟨nodup_nil, fun v listed => absurd listed not_mem_nil⟩
  | cons v rest ih =>
    rw [membershipTotal] at done
    split_ifs at done with zero known
    cases sum : checkedAdd acc v.weight with
    | none => simp [sum] at done
    | some next =>
      simp only [sum] at done
      obtain ⟨distinct, fresh⟩ := ih done
      constructor
      · rw [map_cons, nodup_cons]
        refine ⟨fun again => ?_, distinct⟩
        obtain ⟨w, listed, same⟩ := mem_map.1 again
        exact fresh w listed (same ▸ mem_cons_self)
      · exact forall_mem_cons.2
          ⟨known, fun w later before => fresh w later (mem_cons_of_mem _ before)⟩

/-- Members of unit weight with distinct keys pass the membership loop. -/
theorem membershipTotal_of_distinct {acc : Nat}
    (unit : ∀ v ∈ vs, v.weight = 1) (distinct : (vs.map Validator.publicKey).Nodup)
    (fresh : ∀ v ∈ vs, v.publicKey ∉ seen) (fits : acc + vs.length ≤ u64Max) :
    membershipTotal vs seen acc = .ok (acc + vs.length) := by
  induction vs generalizing seen acc with
  | nil => rfl
  | cons v rest ih =>
    rw [map_cons, nodup_cons] at distinct
    rw [length_cons] at fits
    have one := unit v mem_cons_self
    have added : checkedAdd acc v.weight = some (acc + 1) :=
      checkedAdd_eq_some.2 ⟨by omega, by rw [one]⟩
    rw [membershipTotal, if_neg (by omega), if_neg (fresh v mem_cons_self), added]
    change membershipTotal rest (v.publicKey :: seen) (acc + 1) = _
    rw [ih (fun w listed => unit w (mem_cons_of_mem _ listed)) distinct.2 ?_ (by omega),
      length_cons, Nat.add_assoc, Nat.add_comm 1]
    intro w listed known
    obtain same | before := mem_cons.1 known
    · exact distinct.1 (mem_map.2 ⟨w, listed, same⟩)
    · exact fresh w (mem_cons_of_mem _ listed) before

namespace ValidatorSet

variable {D : Digests C} {s s' : ValidatorSet C} {message : C.Hash}

theorem keys_nodup (s : ValidatorSet C) : (s.validators.map Validator.publicKey).Nodup := by
  have valid := s.valid
  rw [validateMembership] at valid
  split_ifs at valid
  exact (membershipTotal_distinct valid).1

theorem ordered_perm (D : Digests C) (s : ValidatorSet C) : (s.ordered D).Perm s.validators :=
  perm_insertionSort _ _

theorem flatMap_members_injective {vs ws : List (Validator C)}
    (same : vs.flatMap (fun v => [Datum.key v.publicKey, Datum.word 8 v.weight]) =
      ws.flatMap fun v => [Datum.key v.publicKey, Datum.word 8 v.weight]) : vs = ws := by
  induction vs generalizing ws with
  | nil =>
    cases ws with
    | nil => rfl
    | cons w ws => cases same
  | cons v vs ih =>
    cases ws with
    | nil => cases same
    | cons w ws =>
      simp only [flatMap_cons, cons_append, nil_append, cons.injEq, Datum.key.injEq,
        Datum.word.injEq, Int.natCast_inj, true_and] at same
      obtain ⟨key, weight, rest⟩ := same
      rw [ih rest]
      obtain ⟨k, n⟩ := v
      cases key
      cases weight
      rfl

theorem flatMap_members_kind {vs ws : List (Validator C)} (same : vs.length = ws.length) :
    (vs.flatMap fun v => [Datum.key v.publicKey, .word 8 v.weight]).map Datum.kind =
      (ws.flatMap fun v => [Datum.key v.publicKey, .word 8 v.weight]).map Datum.kind := by
  simp only [map_flatMap, map_cons, map_nil, Datum.kind]
  simp only [flatMap_def, map_const', same]

theorem eq_of_key {v w : Validator C} (first : v ∈ s.validators) (second : w ∈ s.validators)
    (same : v.publicKey = w.publicKey) : v = w :=
  inj_on_of_nodup_map s.keys_nodup first second same

/-- A commitment determines the threshold and the members, up to their order. -/
theorem commitment_inj (free : D.CollisionFree) (same : s.commitment D = s'.commitment D) :
    s.threshold = s'.threshold ∧ s.totalWeight = s'.totalWeight ∧
      s.validators.Perm s'.validators := by
  have fields := (free _ _ _ _ same).2 <| .cons rfl fun _ => .cons rfl fun _ => .cons rfl fun _ =>
    .cons rfl fun length =>
      .of_kinds (flatMap_members_kind (Int.ofNat.inj (Datum.word.inj length).2))
  simp only [cons_append, nil_append, cons.injEq, Datum.word.injEq, Int.natCast_inj,
    true_and] at fields
  obtain ⟨threshold, total, -, members⟩ := fields
  refine ⟨threshold, total, (s.ordered_perm D).symm.trans ?_⟩
  rw [flatMap_members_injective members]
  exact s'.ordered_perm D

/-- Sets with one commitment and one order of their members are equal. -/
theorem eq_of_order (free : D.CollisionFree) (same : s.commitment D = s'.commitment D)
    (order : s.validators = s'.validators) : s = s' := by
  obtain ⟨threshold, total, -⟩ := commitment_inj free same
  cases s
  subst order threshold total
  rfl

/-! ## Certificates of all members -/

/-- A certificate that names every member. -/
def fullCertificate (s : ValidatorSet C) (message : C.Hash) (signatures : List C.Signature) :
    Certificate C :=
  ⟨message, BitVec.ofNat 16 (2 ^ s.validators.length - 1), signatures⟩

theorem signerIndices_full (s : ValidatorSet C) :
    MinimmitCommittee.signerIndices (BitVec.ofNat 16 (2 ^ s.validators.length - 1)) =
      range s.validators.length := by
  have small : ∀ n : Fin 17, MinimmitCommittee.signerIndices (BitVec.ofNat 16 (2 ^ n.val - 1)) =
      range n.val := by decide
  exact small ⟨s.validators.length, Nat.lt_succ_of_le s.length_le⟩

/-- Every signature of an accepted certificate verifies under the key at its position. -/
theorem verify_signed {qc : Certificate C} (accepted : s.verify qc = .ok ()) {i : Nat}
    {signature : C.Signature}
    (listed : (i, signature) ∈
      (MinimmitCommittee.signerIndices qc.signerBitmap).zip qc.signatures) :
    ∃ v, s.validators[i]? = some v ∧ C.verify v.publicKey qc.message signature = true := by
  simp only [verify, bind_eq_ok] at accepted
  obtain ⟨-, -, signed, counted, -⟩ := accepted
  refine foldlM_induction (P := fun seen _ => ∀ x ∈ seen, ∃ v, s.validators[x.1]? = some v ∧
    C.verify v.publicKey qc.message x.2 = true) (by simp) ?_ counted _ listed
  intro seen x rest w w' _ before step
  simp only [countSigner, ok_iff] at step
  obtain ⟨v, found, -, signed, -⟩ := step
  exact forall_mem_snoc.2 ⟨before, v, found, signed⟩

/-- The signatures of all members make a certificate. -/
theorem verify_full {signatures : List C.Signature}
    (length : signatures.length = s.validators.length)
    (signed : ∀ (i : Nat) v signature, s.validators[i]? = some v → signatures[i]? = some signature →
      C.verify v.publicKey message signature = true) :
    s.verify (s.fullCertificate message signatures) = .ok () := by
  obtain ⟨sum, bound⟩ := s.totalWeight_eq
  obtain ⟨total, counted, whole⟩ : ∃ total, ((range s.validators.length).zip signatures).foldlM
      (s.countSigner message) 0 = .ok total ∧
      total = ((s.validators.take ((range s.validators.length).zip signatures).length).map
        (·.weight)).sum := by
    apply foldlM_returns (P := fun seen total =>
      total = ((s.validators.take seen.length).map (·.weight)).sum)
    · simp
    · intro seen x rest w split so_far
      have here : ((range s.validators.length).zip signatures)[seen.length]? = some x := by
        rw [split, getElem?_append_right le_rfl, Nat.sub_self]
        rfl
      rw [getElem?_zip_eq_some] at here
      obtain ⟨at_range, at_signatures⟩ := here
      obtain ⟨inside, index⟩ := List.getElem?_eq_some_iff.1 at_range
      rw [getElem_range] at index
      rw [length_range] at inside
      have found := getElem?_eq_getElem inside
      have next : ((s.validators.take (seen ++ [x]).length).map (·.weight)).sum =
          w + s.validators[seen.length].weight := by
        rw [length_append, length_singleton, take_add_one, found, so_far]
        simp only [Option.toList_some, map_append, sum_append, map_cons, map_nil, sum_singleton]
      have below : ((s.validators.take (seen ++ [x]).length).map (·.weight)).sum ≤
          s.totalWeight := by
        rw [sum]
        exact ((take_sublist _ _).map _).sum_le_sum fun _ _ => Nat.zero_le _
      refine ⟨w + s.validators[seen.length].weight, ?_, next.symm⟩
      rw [countSigner, ← index, found]
      change (require _ _ >>= fun _ => _) = _
      rw [require_of (signed _ _ _ found at_signatures), checkedAdd_eq_some.2 ⟨by omega, rfl⟩]
      rfl
  have all : total = s.totalWeight := by
    rw [whole, length_zip, length_range, length, min_self, take_length, sum]
  rw [verify, fullCertificate]
  simp only [signerIndices_full]
  rw [require_of (by rw [length_range, length]), counted, all]
  exact require_of s.threshold_le _

/-- Sets with one commitment accept the same certificates exactly when they list their members
in the same order. -/
theorem verify_iff_of_commitment (free : D.CollisionFree) (exclusive : C.Exclusive)
    (same : s.commitment D = s'.commitment D)
    (signable : ∀ v ∈ s.validators, ∃ signature, C.verify v.publicKey message signature = true) :
    (∀ qc, qc.message = message → s.verify qc = .ok () → s'.verify qc = .ok ()) ↔
      s.validators = s'.validators := by
  obtain ⟨-, -, members⟩ := commitment_inj free same
  constructor
  · intro accepts
    have inhabited : Nonempty C.Signature := (signable _ (getElem_mem s.length_pos)).nonempty
    choose! sign signs using signable
    have accepted := accepts (s.fullCertificate message (s.validators.map sign)) rfl (by
      apply verify_full (length_map _)
      intro i v signature found at_i
      rw [getElem?_map, found] at at_i
      cases at_i
      exact signs v (mem_of_getElem? found))
    apply ext_getElem members.length_eq
    intro i inside inside'
    have found := getElem?_eq_getElem inside
    have listed : (i, sign s.validators[i]) ∈
        (MinimmitCommittee.signerIndices (BitVec.ofNat 16 (2 ^ s.validators.length - 1))).zip
          (s.validators.map sign) := by
      rw [signerIndices_full]
      apply mem_of_getElem? (i := i)
      rw [getElem?_zip_eq_some, getElem?_map, found]
      exact ⟨getElem?_range inside, rfl⟩
    obtain ⟨v, found', verified⟩ := verify_signed accepted listed
    have key := exclusive _ _ _ _ verified (signs _ (getElem_mem inside))
    rw [getElem?_eq_getElem inside'] at found'
    cases found'
    apply eq_of_key (s := s) (getElem_mem inside)
    · exact members.mem_iff.2 (getElem_mem inside')
    · exact key.symm
  · intro order qc _
    rw [eq_of_order free same order]
    exact id

end ValidatorSet

end Dexos.Minimmit
