import Dexos.Custody.Accounting

/-!
# Signing after a rotation

A signer set is accepted for its size and its threshold; it is used as a validator set, whose keys
have to be distinct. The two notions meet in `authorize_withdrawal`, after the shares are collected.
-/

namespace Dexos.Custody

open Foundations Minimmit Clob List WalletRegistry ValidatorSet

variable {C : Crypto}

/-! ## Shares -/

theorem mem_destutter_ne {A : Type} [DecidableEq A] {x : A} (l : List A) :
    x ∈ l.destutter (· ≠ ·) ↔ x ∈ l := by
  have from_ : ∀ (l : List A) (a : A), x ∈ l.destutter' (· ≠ ·) a ↔ x ∈ a :: l := by
    intro l
    induction l with
    | nil => simp
    | cons b l ih =>
      intro a
      rw [destutter'_cons]
      split_ifs with differ
      · rw [mem_cons, ih, ← mem_cons]
      · rw [ih]
        rw [not_not.1 differ]
        simp
  cases l with
  | nil => rfl
  | cons a l => exact from_ l a

theorem forall₂_range {A B : Type} {R : A → B → Prop} {xs : List A} {ys : List B} :
    Forall₂ (fun i y => ∃ x, xs[i]? = some x ∧ R x y) (range xs.length) ys ↔ Forall₂ R xs ys := by
  simp only [forall₂_iff_get, length_range, get_eq_getElem, getElem_range]
  apply and_congr_right
  intro _
  apply forall₃_congr
  intro i inside _
  rw [getElem?_eq_getElem inside]
  simp

namespace SignerSet

variable {s : SignerSet C} {message : C.Hash} {indices : List Nat} {set : ValidatorSet C}

def keys (s : SignerSet C) : List C.PublicKey := s.signers.map HsmSigner.publicKey

theorem shares_pairwise (s : SignerSet C) (indices : List Nat) :
    (s.shares indices).Pairwise (· < ·) := by
  have sorted : (s.shares indices).Pairwise (· ≤ ·) :=
    (pairwise_insertionSort (· ≤ ·) _).sublist (destutter_sublist _ _)
  have differ : (s.shares indices).IsChain (· ≠ ·) := isChain_destutter _ _
  have ascending : (s.shares indices).IsChain (· < ·) := by
    rw [isChain_iff_getElem] at differ ⊢
    exact fun i inside => lt_of_le_of_ne (isChain_iff_getElem.1 sorted.isChain i inside)
      (differ i inside)
  exact ascending.pairwise

theorem mem_shares {i : Nat} : i ∈ s.shares indices ↔ i ∈ indices ∧ i < s.signers.length := by
  rw [shares, mem_destutter_ne, mem_insertionSort, mem_filter, decide_eq_true_eq]
  have size : s.signers.length ≤ maxSigners := s.sized.2
  constructor
  · exact fun h => ⟨h.1, h.2.1⟩
  · exact fun h => ⟨h.1, h.2, lt_of_lt_of_le h.2 size⟩

/-- When every signer is asked, the shares are those of all positions. -/
theorem shares_of_all (all : ∀ i < s.signers.length, i ∈ indices) :
    s.shares indices = range s.signers.length := by
  apply Pairwise.eq_of_mem_iff (s.shares_pairwise indices) pairwise_lt_range
  intro i
  rw [mem_shares, mem_range]
  exact ⟨And.right, fun inside => ⟨all i inside, inside⟩⟩

theorem bitmap_range (s : SignerSet C) :
    (range s.signers.length).foldl (fun bits i => bits ||| (1#16 <<< i)) 0#16 =
      BitVec.ofNat 16 (2 ^ s.signers.length - 1) := by
  have small : ∀ n : Fin 17, (range n.val).foldl (fun bits i => bits ||| (1#16 <<< i)) 0#16 =
      BitVec.ofNat 16 (2 ^ n.val - 1) := by decide
  exact small ⟨s.signers.length, Nat.lt_succ_of_le s.sized.2⟩

theorem sign_eq_ok (all : ∀ i < s.signers.length, i ∈ indices) {qc : Certificate C} :
    s.sign message indices = .ok qc ↔
      ∃ signatures, Forall₂ (fun signer signature => signer.sign message = .ok signature)
          s.signers signatures ∧
        ⟨message, BitVec.ofNat 16 (2 ^ s.signers.length - 1), signatures⟩ = qc := by
  simp only [sign, shares_of_all all, ok_iff, mapM_eq_ok, bitmap_range]
  apply exists_congr
  intro signatures
  apply and_congr_left'
  exact forall₂_range

/-! ## Validator sets -/

theorem validatorSet_eq_some (built : s.validatorSet = some set) :
    set.validators = s.validators := by
  rw [validatorSet] at built
  cases made : tryWithThreshold s.validators s.threshold with
  | error err =>
    rw [made] at built
    cases built
  | ok set' =>
    rw [made] at built
    cases built
    exact (tryWithThreshold_ok made).1

theorem exists_validatorSet_iff : (∃ set, s.validatorSet = some set) ↔ s.keys.Nodup := by
  have keys : s.validators.map Validator.publicKey = s.keys := by
    rw [validators, map_map]
    rfl
  constructor
  · rintro ⟨set, built⟩
    rw [← keys, ← validatorSet_eq_some built]
    exact set.keys_nodup
  · intro distinct
    have length : s.validators.length = s.signers.length := length_map _
    have counted : membershipTotal s.validators [] 0 = .ok (0 + s.validators.length) := by
      apply membershipTotal_of_distinct
      · intro v listed
        obtain ⟨signer, -, rfl⟩ := mem_map.1 listed
        rfl
      · rwa [keys]
      · exact fun v _ => not_mem_nil
      · have := s.sized.2
        rw [u64Max]
        rw [maxSigners] at this
        omega
    have valid : validateMembership s.validators = .ok s.signers.length := by
      rw [validateMembership, if_neg, counted, length, Nat.zero_add]
      have := s.sized
      rw [maxSigners] at this
      simp only [Bool.or_eq_true, List.isEmpty_iff, decide_eq_true_eq, ← List.length_eq_zero_iff,
        length, maxValidators]
      omega
    refine ⟨⟨s.validators, s.signers.length, s.threshold, valid, s.ranged.1, s.ranged.2⟩, ?_⟩
    have ranged := s.ranged
    rw [validatorSet, tryWithThreshold]
    split
    next err failed => rw [valid] at failed; cases failed
    next total passed =>
      rw [valid] at passed
      cases passed
      rw [dif_neg (by omega)]
      rfl

/-- A signer answers with a share that verifies under its key. -/
def Answers (message : C.Hash) (signer : HsmSigner C) : Prop :=
  ∃ signature, signer.sign message = .ok signature ∧
    C.verify signer.publicKey message signature = true

/-- All shares make a certificate, which verifies exactly when each of them does. -/
theorem verify_all_iff (built : s.validatorSet = some set)
    {signatures : List C.Signature} (length : s.signers.length = signatures.length) :
    set.verify ⟨message, BitVec.ofNat 16 (2 ^ s.signers.length - 1), signatures⟩ = .ok () ↔
      Forall₂ (fun signer signature => C.verify signer.publicKey message signature = true)
        s.signers signatures := by
  have members := validatorSet_eq_some built
  have size : set.validators.length = s.signers.length := by
    rw [members]
    exact length_map _
  have at_ : ∀ i : Nat, set.validators[i]? = s.signers[i]?.map fun x => ⟨x.publicKey, 1⟩ := by
    intro i
    rw [members, validators, getElem?_map]
  constructor
  · intro accepted
    apply forall₂_iff_get.2
    refine ⟨length, ?_⟩
    intro i inside inside'
    have listed : (i, signatures.get ⟨i, inside'⟩) ∈ (MinimmitCommittee.signerIndices
        (BitVec.ofNat 16 (2 ^ s.signers.length - 1))).zip signatures := by
      rw [← size, set.signerIndices_full, size]
      apply mem_of_getElem? (i := i)
      rw [getElem?_zip_eq_some]
      exact ⟨getElem?_range inside, getElem?_eq_getElem inside'⟩
    obtain ⟨v, found, verified⟩ := verify_signed accepted listed
    rw [at_, getElem?_eq_getElem inside] at found
    cases found
    exact verified
  · intro verified
    obtain ⟨-, each⟩ := forall₂_iff_get.1 verified
    rw [← size]
    apply verify_full (length.symm.trans size.symm)
    intro i v signature found taken
    obtain ⟨inside', rfl⟩ := List.getElem?_eq_some_iff.1 taken
    have inside : i < s.signers.length := length ▸ inside'
    rw [at_, getElem?_eq_getElem inside] at found
    cases found
    exact each i inside inside'

theorem exists_signatures_iff :
    (∃ signatures, Forall₂ (fun signer signature => HsmSigner.sign signer message = .ok signature)
        s.signers signatures ∧
      Forall₂ (fun signer signature => C.verify signer.publicKey message signature = true)
        s.signers signatures) ↔ ∀ signer ∈ s.signers, Answers message signer := by
  generalize s.signers = signers
  induction signers with
  | nil => simp
  | cons signer rest ih =>
    rw [forall_mem_cons, ← ih]
    constructor
    · rintro ⟨_, signed, verified⟩
      cases signed with
      | cons first later =>
        cases verified with
        | cons first' later' => exact ⟨⟨_, first, first'⟩, _, later, later'⟩
    · rintro ⟨⟨_, first, first'⟩, _, later, later'⟩
      exact ⟨_, Forall₂.cons first later, Forall₂.cons first' later'⟩

/-- All signers together make a threshold certificate exactly when their keys are distinct and each
of them answers. -/
theorem signs_iff (all : ∀ i < s.signers.length, i ∈ indices) :
    (∃ qc set, s.sign message indices = .ok qc ∧ s.validatorSet = some set ∧
      set.verify qc = .ok ()) ↔ s.keys.Nodup ∧ ∀ signer ∈ s.signers, Answers message signer := by
  rw [← exists_validatorSet_iff, ← exists_signatures_iff]
  constructor
  · rintro ⟨qc, set, signed, built, verified⟩
    obtain ⟨signatures, shares, rfl⟩ := (sign_eq_ok all).1 signed
    exact ⟨⟨set, built⟩, signatures, shares, (verify_all_iff built shares.length_eq).1 verified⟩
  · rintro ⟨⟨set, built⟩, signatures, shares, verified⟩
    exact ⟨_, set, (sign_eq_ok all).2 ⟨signatures, shares, rfl⟩, built,
      (verify_all_iff built shares.length_eq).2 verified⟩

end SignerSet

namespace CustodyController

variable {D : Digests C} {W : WalletScheme C} {c c' : CustodyController C} {set : SignerSet C}
  {indices : List Nat}
  {userAuth : UserWithdrawalAuth C}
  {cert : WithdrawalCertificate C}
  {policy : ChainPolicy}
  {events : List (Event C)}
  {call : Call C}

/-! ## Panics -/

theorem orFail_ne_panic {A : Type} (x : Except CustodyError A) : orFail x ≠ .error .panic := by
  cases x <;> simp [orFail, Except.mapError]

/-- Only a signer set with a repeated key lets a call panic. -/
theorem perform_ne_panic (distinct : c.signers.keys.Nodup) (call : Call C) :
    (c.perform D W call).1 ≠ .error .panic := by
  cases call with
  | authorize cert userAuth indices now =>
    rw [perform, authorizeWithdrawal]
    cases approved : c.approve D W cert userAuth indices now with
    | ok result => rintro ⟨⟩
    | error failure =>
      intro panicked
      cases panicked
      obtain ⟨set, built⟩ := SignerSet.exists_validatorSet_iff.2 distinct
      simp only [approve, bind_eq_error, orFail_ne_panic, false_or, orError_eq_error, built,
        reduceCtorEq, false_and] at approved
      obtain ⟨_, _, _, _, _, _, _, _, _, _, _, _, failed⟩ := approved
      cases failed
  | settle | rotate | control => exact orFail_ne_panic _
  | halt | resume | setPolicy => rintro ⟨⟩

/-! ## Rotations -/

/-- The signer set that a call asks to install. -/
def Call.installs (c : CustodyController C) : Call C → Option (SignerSet C)
  | .rotate newSigners => some newSigners
  | .control (.rotate epoch threshold keys) => (c.commandSet epoch threshold keys).toOption
  | _ => none

/-- The set asked for is installed, of a later epoch, or the signers are kept. -/
def Installed (c : CustodyController C) (asked : Option (SignerSet C))
    (out : Except Failure Unit × CustodyController C) : Prop :=
  (∃ set, asked = some set ∧ out.1 = .ok () ∧ c.signers.epoch < set.epoch ∧ out.2.signers = set) ∨
    ((out.1 = .ok () → asked = none) ∧ out.2.signers = c.signers)

theorem rotate_signers (newSigners : SignerSet C) : c.Installed (some newSigners)
    (orFail (c.rotate D newSigners).1, (c.rotate D newSigners).2) := by
  apply commitAfter_cases (P := fun out => c.Installed (some newSigners) (orFail out.1, out.2))
  · exact fun err => .inr ⟨by rintro ⟨⟩, rfl⟩
  · exact fun _ later => .inl ⟨newSigners, rfl, rfl, require_eq_ok.1 later, rfl⟩

theorem perform_signers (D : Digests C) (W : WalletScheme C) (c : CustodyController C)
    (call : Call C) : c.Installed (call.installs c) (c.perform D W call) := by
  cases call with
  | authorize cert userAuth indices now =>
    refine .inr ⟨fun _ => rfl, ?_⟩
    rw [perform, authorizeWithdrawal]
    cases c.approve D W cert userAuth indices now <;> rfl
  | settle chain id amount finality =>
    refine .inr ⟨fun _ => rfl, ?_⟩
    apply commitAfter_cases (P := fun out : Except CustodyError Unit × CustodyController C =>
      out.2.signers = c.signers)
    · exact fun _ => rfl
    · exact fun _ _ => rfl
  | halt | resume | setPolicy => exact .inr ⟨fun _ => rfl, rfl⟩
  | rotate newSigners => exact rotate_signers newSigners
  | control cmd =>
    cases cmd with
    | rotate epoch threshold keys =>
      rw [Call.installs, perform, applyControl]
      cases c.commandSet epoch threshold keys with
      | error err => exact .inr ⟨fun _ => rfl, rfl⟩
      | ok set => exact rotate_signers set
    | halt | resume | setPolicy => exact .inr ⟨fun _ => rfl, rfl⟩

theorem perform_installs (asked : call.installs c = some set)
    (accepted : (c.perform D W call).1 = .ok ()) : (c.perform D W call).2.signers = set := by
  obtain ⟨set', asked', -, -, same⟩ | ⟨none_, -⟩ := perform_signers D W c call
  · rw [same]
    exact Option.some.inj (asked'.symm.trans asked)
  · simp [none_ accepted] at asked

/-- In a run the signers change only with their epoch. -/
theorem Run.signers (run : Run D W c events c') :
    c'.signers = c.signers ∨ c.signers.epoch < c'.signers.epoch := by
  induction run with
  | start => exact .inl rfl
  | @call events c' call before ih =>
    obtain ⟨set, -, -, later, same⟩ | ⟨-, same⟩ := perform_signers D W c' call
    · right
      rw [same]
      obtain kept | passed := ih
      · rwa [← kept]
      · exact passed.trans later
    · rwa [same]

/-! ## Signing after a rotation -/

theorem nextCount_isOk_of_check {amount pending : Amount} {confirmations count : Nat}
    (passed : policy.check amount confirmations pending count = .ok ()) :
    (∃ newPending, orFail (liftArith (Scalar.checkedAdd pending amount)) = .ok newPending) ∧
      ∃ newCount, orFail (nextCount count) = .ok newCount := by
  simp only [ChainPolicy.check, bind_eq_ok] at passed
  obtain ⟨_, _, _, _, _, _, sum, added, _, _, next, counted, _⟩ := passed
  exact ⟨⟨sum, orFail_eq_ok.2 added⟩, next, orFail_eq_ok.2 counted⟩

/-- A call with every valid document that asks all signers is signed exactly when the controller
runs, the id is new, the keys are distinct and each signer answers. -/
theorem authorizeWithdrawal_iff {now : Nat}
    (user : verifyUserAuth W cert userAuth now = .ok ())
    (certified : verifyCertificate D cert c.consensus now = .ok ())
    (found : c.policies.get? cert.request.chain = some policy)
    (headroom : policy.check cert.request.amount cert.confirmations
      (c.policiesPending cert.request.chain) (c.countOf cert.request.chain) = .ok ())
    (all : ∀ i < c.signers.signers.length, i ∈ indices) :
    (∃ signed, (c.authorizeWithdrawal D W cert userAuth indices now).1 = .ok signed) ↔
      c.halted = false ∧ cert.withdrawalId ∉ c.signedIds ∧ c.signers.keys.Nodup ∧
        ∀ signer ∈ c.signers.signers, SignerSet.Answers cert.withdrawalId signer := by
  rw [← SignerSet.signs_iff all]
  constructor
  · rintro ⟨signed, done⟩
    obtain ⟨admitted, -, -, made, set, built, verified⟩ := authorizeWithdrawal_eq_ok done
    obtain ⟨running, -, -, -, fresh⟩ := precheck_eq_ok.1 admitted
    exact ⟨running, fresh, signed.certificate, set, made, built, verified⟩
  · rintro ⟨running, fresh, qc, set, made, built, verified⟩
    obtain ⟨⟨newPending, added⟩, newCount, counted⟩ := nextCount_isOk_of_check headroom
    have admitted : c.precheck D W cert userAuth now = .ok () :=
      precheck_eq_ok.2 ⟨running, user, certified, ⟨policy, found, headroom⟩, fresh⟩
    have approved : c.approve D W cert userAuth indices now = .ok (qc, newPending, newCount) := by
      rw [approve, admitted, made, built, added, counted]
      change (orFail ((set.verify qc).mapError _) >>= fun _ => _) = _
      rw [verified]
      rfl
    rw [authorizeWithdrawal, approved]
    exact ⟨_, rfl⟩

/-- After an accepted rotation, while its set is in force: a call with valid documents that asks all
signers is signed and nothing panics, exactly when the keys of the set are distinct, the controller
runs, the id is new and each signer answers. -/
theorem rotation_keeps_signing_iff (asked : call.installs c = some set)
    (accepted : (c.perform D W call).1 = .ok ())
    (later : Run D W (c.perform D W call).2 events c') (current : c'.signers.epoch = set.epoch)
    {now : Nat}
    (user : verifyUserAuth W cert userAuth now = .ok ())
    (certified : verifyCertificate D cert c'.consensus now = .ok ())
    (found : c'.policies.get? cert.request.chain = some policy)
    (headroom : policy.check cert.request.amount cert.confirmations
      (c'.policiesPending cert.request.chain) (c'.countOf cert.request.chain) = .ok ())
    (all : ∀ i < set.signers.length, i ∈ indices) :
    ((∃ signed, (c'.authorizeWithdrawal D W cert userAuth indices now).1 = .ok signed) ∧
      ∀ call', (c'.perform D W call').1 ≠ .error .panic) ↔
    set.keys.Nodup ∧ c'.halted = false ∧ cert.withdrawalId ∉ c'.signedIds ∧
      ∀ signer ∈ set.signers, SignerSet.Answers cert.withdrawalId signer := by
  have installed := perform_installs asked accepted
  obtain kept | passed := later.signers
  · rw [installed] at kept
    rw [← kept] at all
    rw [authorizeWithdrawal_iff user certified found headroom all, kept]
    constructor
    · rintro ⟨⟨running, fresh, distinct, answers⟩, -⟩
      exact ⟨distinct, running, fresh, answers⟩
    · rintro ⟨distinct, running, fresh, answers⟩
      exact ⟨⟨running, fresh, distinct, answers⟩,
        fun call' => perform_ne_panic (kept ▸ distinct) call'⟩
  · rw [installed, current] at passed
    exact absurd passed (lt_irrefl _)

/-! ## Runs -/

/-- A rotation to two signers, by the numbers of their keys. -/
def rotatePair (first second : UInt8) : Call ideal :=
  .control (.rotate 2 2 [⟨[first], first.toNat⟩, ⟨[second], second.toNat⟩])

/-- The set that the rotation to the keys 30 and 31 installs. -/
def rotatedPair : SignerSet ideal := ⟨idealSigners [30, 31], 2, 2, by decide, by decide⟩

theorem rotatedPair_answers (message : ideal.Hash) (signer : HsmSigner ideal)
    (listed : signer ∈ rotatedPair.signers) : SignerSet.Answers message signer := by
  have each : signer ∈ [⟨idealHsm, [30], (30 : Nat)⟩, ⟨idealHsm, [31], (31 : Nat)⟩] := listed
  simp only [mem_cons, not_mem_nil, or_false] at each
  obtain rfl | rfl := each
  · exact ⟨((30 : Nat), message), rfl, ideal_verify_iff.2 rfl⟩
  · exact ⟨((31 : Nat), message), rfl, ideal_verify_iff.2 rfl⟩

theorem rotation_keeps_signing_iff_pair :
    let c := (samplePolicySet.perform idealDigests idealWallets (rotatePair 30 31)).2
    (∃ signed, (c.authorizeWithdrawal idealDigests idealWallets (sampleCertificate 10)
      sampleAuth [0, 1] 5).1 = .ok signed) ∧
    ∀ call, (c.perform idealDigests idealWallets call).1 ≠ .error .panic := by
  have asked : (rotatePair 30 31).installs samplePolicySet = some rotatedPair := rfl
  have found : (samplePolicySet.perform idealDigests idealWallets
      (rotatePair 30 31)).2.policies.get? 1 = some samplePolicy := by decide +kernel
  apply (rotation_keeps_signing_iff asked (by decide +kernel) Run.start (by decide +kernel)
    (by decide +kernel) (by decide +kernel) found (by decide +kernel) (by decide)).2
  exact ⟨by decide, by decide +kernel, by decide +kernel, rotatedPair_answers _⟩

/-- A rotation to one key twice is accepted; the next withdrawal panics. -/
theorem repeated_key_panics :
    let c := (samplePolicySet.perform idealDigests idealWallets (rotatePair 30 30)).2
    (samplePolicySet.perform idealDigests idealWallets (rotatePair 30 30)).1 = .ok () ∧
    verifyUserAuth idealWallets (sampleCertificate 10) sampleAuth 5 = .ok () ∧
    verifyCertificate idealDigests (sampleCertificate 10) c.consensus 5 = .ok () ∧
    (c.perform idealDigests idealWallets
      (.authorize (sampleCertificate 10) sampleAuth [0, 1] 5)).1 = .error .panic := by
  refine ⟨by decide +kernel, by decide +kernel, by decide +kernel, by decide +kernel⟩

end CustodyController

end Dexos.Custody
