import Dexos.Foundations.Merkle
import Dexos.Clob.Fixed
import Dexos.Crypto.Ideal
import Dexos.Custody.Wallets

/-!
# Withdrawal certificates

A withdrawal id is the digest of the request. A certificate proves, by an inclusion proof under a
checkpoint that a consensus quorum has signed, that the authorization digest of the request was
committed. The authorization digest covers the request, the confirmations and the reservation; the
expiry is in no digest.
-/

namespace Dexos.Custody

open Foundations Minimmit Clob List MerkleTree

variable {C : Crypto}

def verifyProof (D : Digests C) (root : C.Hash) (index : Nat) (leaf : C.Hash)
    (proof : List C.Hash) : Bool :=
  if 64 ≤ proof.length then false
  else if index >>> proof.length ≠ 0 then false
  else foldPath (hashNode D) index leaf proof = root

/-! ## Requests and certificates -/

def domainWithdrawalId : String := "dexos:custody:withdrawal-id:v1"
def domainWithdrawalAuth : String := "dexos:custody:withdrawal-auth:v1"

structure WithdrawalRequest (C : Crypto) where
  account : Nat
  chain : Nat
  recipient : WalletAddress C
  amount : Amount
  nonce : Nat
deriving DecidableEq

namespace WithdrawalRequest

def encode (request : WithdrawalRequest C) : List (Datum C) :=
  [.word 4 request.account, .word 8 request.chain] ++ request.recipient.encode ++
    [.word 16 request.amount.val, .word 8 request.nonce]

def id (D : Digests C) (request : WithdrawalRequest C) : C.Hash :=
  D.hashData domainWithdrawalId request.encode

end WithdrawalRequest

structure ReservationProof (C : Crypto) where
  reservedAmount : Amount
  reservationSeq : Nat
  leafIndex : Nat
  branch : List C.Hash
deriving DecidableEq

structure WithdrawalCertificate (C : Crypto) where
  request : WithdrawalRequest C
  withdrawalId : C.Hash
  checkpoint : C.Hash
  quorum : Certificate C
  confirmations : Nat
  reservation : ReservationProof C
  expiry : Nat
deriving DecidableEq

def withdrawalAuthorizationDigest (D : Digests C) (request : WithdrawalRequest C)
    (withdrawalId : C.Hash) (confirmations : Nat) (reservedAmount : Amount) (reservationSeq : Nat) :
    C.Hash :=
  D.hashData domainWithdrawalAuth (request.encode ++ [.hash withdrawalId, .word 4 confirmations,
    .word 16 reservedAmount.val, .word 8 reservationSeq])

def WithdrawalCertificate.authorizationDigest (D : Digests C) (cert : WithdrawalCertificate C) :
    C.Hash :=
  withdrawalAuthorizationDigest D cert.request cert.withdrawalId cert.confirmations
    cert.reservation.reservedAmount cert.reservation.reservationSeq

def verifyCertificate (D : Digests C) (cert : WithdrawalCertificate C) (consensus : ValidatorSet C)
    (now : Nat) : Except CustodyError Unit := do
  require (cert.withdrawalId = cert.request.id D) .mismatchedWithdrawalId
  require (cert.request.amount.val ≤ cert.reservation.reservedAmount.val)
    .missingLedgerReserve
  require (now ≤ cert.expiry) .expired
  require (verifyProof D cert.checkpoint cert.reservation.leafIndex (cert.authorizationDigest D)
    cert.reservation.branch = true) .unprovenAuthorization
  require (cert.quorum.message = cert.checkpoint) .badQuorumSignature
  (consensus.verify cert.quorum).mapError fun _ => .badQuorumSignature

/-! ## What the digests determine -/

section

variable {D : Digests C} {zero : C.Hash} {request request' : WithdrawalRequest C}

theorem encode_inj {tail tail' : List (Datum C)}
    (same : request.encode ++ tail = request'.encode ++ tail') :
    request = request' ∧ tail = tail' := by
  obtain ⟨account, chain, recipient, amount, nonce⟩ := request
  obtain ⟨account', chain', recipient', amount', nonce'⟩ := request'
  have head : recipient.encode.length = recipient'.encode.length := by
    cases recipient <;> cases recipient' <;> rfl
  simp only [WithdrawalRequest.encode, append_assoc, cons_append, nil_append,
    cons.injEq, Datum.word.injEq, Int.natCast_inj, true_and] at same
  obtain ⟨rfl, rfl, same⟩ := same
  obtain ⟨address, rest⟩ := append_inj same head
  simp only [cons.injEq, Datum.word.injEq, Int.natCast_inj, true_and] at rest
  obtain ⟨value, rfl, rfl⟩ := rest
  rw [WalletAddress.encode_injective address, Subtype.ext value]
  exact ⟨rfl, rfl⟩

/-- The tag of the recipient tells the layout of its address. -/
theorem encode_aligned {tail tail' : List (Datum C)}
    (kinds : tail.map Datum.kind = tail'.map Datum.kind) :
    Aligned (request.encode ++ tail) (request'.encode ++ tail') := by
  obtain ⟨account, chain, recipient, amount, nonce⟩ := request
  obtain ⟨account', chain', recipient', amount', nonce'⟩ := request'
  cases recipient <;> cases recipient'
  case evm.evm | svm.svm =>
    apply Aligned.of_kinds
    simp [WithdrawalRequest.encode, WalletAddress.encode, Datum.kind, kinds]
  all_goals
    refine .cons rfl fun _ => .cons rfl fun _ => .cons rfl fun tags => ?_
    exact absurd (Datum.byte.inj tags) (by decide)

/-- The id determines the request. -/
theorem request_of_id (free : D.CollisionFree) (same : request.id D = request'.id D) :
    request = request' := by
  have aligned : Aligned (request.encode ++ []) (request'.encode ++ []) := encode_aligned rfl
  rw [append_nil, append_nil] at aligned
  have whole : request.encode ++ [] = request'.encode ++ [] := by
    rw [(free _ _ _ _ same).2 aligned]
  exact (encode_inj whole).1

/-- The authorization digest determines all that it is made of. -/
theorem withdrawalAuthorizationDigest_inj (free : D.CollisionFree) {id id' : C.Hash}
    {confirmations confirmations' seq seq' : Nat} {reserved reserved' : Amount}
    (same : withdrawalAuthorizationDigest D request id confirmations reserved seq =
      withdrawalAuthorizationDigest D request' id' confirmations' reserved' seq') :
    request = request' ∧ id = id' ∧ confirmations = confirmations' ∧ reserved = reserved' ∧
      seq = seq' := by
  obtain ⟨requests, rest⟩ := encode_inj ((free _ _ _ _ same).2 (encode_aligned rfl))
  simp only [cons.injEq, Datum.hash.injEq, Datum.word.injEq, Int.natCast_inj, true_and, and_true]
    at rest
  obtain ⟨ids, counts, amounts, numbers⟩ := rest
  exact ⟨requests, ids, counts, Subtype.ext amounts, numbers⟩

theorem authorizationDigest_ne_hashNode (free : D.CollisionFree) (cert : WithdrawalCertificate C)
    (l r : C.Hash) : cert.authorizationDigest D ≠ hashNode D l r := by
  intro same
  obtain ⟨domains, -⟩ := free _ _ _ _ same
  exact absurd domains (by decide)

/-- An accepted certificate has its digest among the leaves of the checkpoint's tree. -/
theorem exists_leaf_of_verifyCertificate (free : D.CollisionFree)
    {t : MerkleTree (hashNode D) zero} (leaves : ∀ i < t.capacity, ∀ l r, t.leaf i ≠ hashNode D l r)
    {cert : WithdrawalCertificate C} {consensus : ValidatorSet C} {now : Nat}
    (root : cert.checkpoint = t.root) (accepted : verifyCertificate D cert consensus now = .ok ()) :
    cert.withdrawalId = cert.request.id D ∧ ∃ i < t.capacity,
      t.leaf i = cert.authorizationDigest D := by
  simp only [verifyCertificate, ok_iff] at accepted
  obtain ⟨_, own, _, _, _, _, _, proven, -⟩ := accepted
  refine ⟨own, ?_⟩
  rw [verifyProof] at proven
  split_ifs at proven with long outside
  apply exists_leaf_of_foldPath (hashNode_inj free) leaves
    (authorizationDigest_ne_hashNode free cert)
  rw [← root]
  exact of_decide_eq_true proven

/-- The leaves of the tree hold at most one authorization digest for each withdrawal id. -/
def OneDigestPerId (D : Digests C) {zero : C.Hash} (t : MerkleTree (hashNode D) zero) : Prop :=
  ∀ i < t.capacity, ∀ j < t.capacity, ∀ cert cert' : WithdrawalCertificate C,
    cert.withdrawalId = cert'.withdrawalId → t.leaf i = cert.authorizationDigest D →
    t.leaf j = cert'.authorizationDigest D → t.leaf i = t.leaf j

/-- Two accepted certificates with one withdrawal id and one checkpoint agree on the request, the
confirmations and the reservation, and they agree on every field that is read exactly when they
carry the same expiry. -/
theorem certificates_agree_iff (free : D.CollisionFree)
    {t : MerkleTree (hashNode D) zero} (leaves : ∀ i < t.capacity, ∀ l r, t.leaf i ≠ hashNode D l r)
    (single : OneDigestPerId D t) {cert cert' : WithdrawalCertificate C}
    {consensus consensus' : ValidatorSet C} {now now' : Nat}
    (sameId : cert.withdrawalId = cert'.withdrawalId) (root : cert.checkpoint = t.root)
    (root' : cert'.checkpoint = t.root) (accepted : verifyCertificate D cert consensus now = .ok ())
    (accepted' : verifyCertificate D cert' consensus' now' = .ok ()) :
    (cert.request = cert'.request ∧ cert.confirmations = cert'.confirmations ∧
      cert.reservation.reservedAmount = cert'.reservation.reservedAmount ∧
      cert.reservation.reservationSeq = cert'.reservation.reservationSeq) ∧
    ((cert.request = cert'.request ∧ cert.confirmations = cert'.confirmations ∧
      cert.reservation.reservedAmount = cert'.reservation.reservedAmount ∧
      cert.reservation.reservationSeq = cert'.reservation.reservationSeq ∧
      cert.expiry = cert'.expiry) ↔ cert.expiry = cert'.expiry) := by
  obtain ⟨-, i, inside, at_i⟩ := exists_leaf_of_verifyCertificate free leaves root accepted
  obtain ⟨-, j, inside', at_j⟩ := exists_leaf_of_verifyCertificate free leaves root' accepted'
  have digests := single i inside j inside' cert cert' sameId at_i at_j
  rw [at_i, at_j] at digests
  obtain ⟨request, -, confirmations, reserved, seq⟩ :=
    withdrawalAuthorizationDigest_inj free digests
  refine ⟨⟨request, confirmations, reserved, seq⟩, ?_⟩
  constructor
  · exact fun all => all.2.2.2.2
  · exact fun expiry => ⟨request, confirmations, reserved, seq, expiry⟩

end

/-! ## A certificate that expires -/

/-- A withdrawal of 100 to an external wallet. -/
def sampleRequest (nonce : Nat) : WithdrawalRequest ideal :=
  ⟨1, 1, .svm (10 : Nat), micros 100, nonce⟩

def sampleDigest (nonce : Nat) : ideal.Hash :=
  withdrawalAuthorizationDigest idealDigests (sampleRequest nonce)
    ((sampleRequest nonce).id idealDigests) 6 (micros 100) 3

/-- The digests of two withdrawals. -/
def sampleTree : MerkleTree (hashNode idealDigests) idealDigests.zero :=
  ofLeaves _ _ 1 sampleDigest

/-- The certificate of the first one under the checkpoint of the tree. -/
def sampleCertificate (expiry : Nat) : WithdrawalCertificate ideal :=
  ⟨sampleRequest 0, (sampleRequest 0).id idealDigests, sampleTree.root,
    signAll sixVoters sampleTree.root, 6, ⟨micros 100, 3, 0, sampleTree.path 0⟩, expiry⟩

theorem sampleTree_leaf {i : Nat} (inside : i < sampleTree.capacity) :
    sampleTree.leaf i = sampleDigest i :=
  leaf_ofLeaves 1 _ inside

/-- A certificate that has expired is accepted again when its expiry is rewritten. -/
theorem expired_certificate_accepted_again :
    (sampleCertificate 10).withdrawalId = (sampleCertificate 1000).withdrawalId ∧
    (sampleCertificate 10).checkpoint = sampleTree.root ∧
    (sampleCertificate 1000).checkpoint = sampleTree.root ∧
    verifyCertificate idealDigests (sampleCertificate 10) sixVoters 5 = .ok () ∧
    verifyCertificate idealDigests (sampleCertificate 10) sixVoters 500 = .error .expired ∧
    verifyCertificate idealDigests (sampleCertificate 1000) sixVoters 500 = .ok () := by
  decide +kernel

theorem certificates_agree_iff_sample :
    (sampleCertificate 10).reservation.branch.length = 1 ∧
    (sampleCertificate 10).confirmations = (sampleCertificate 1000).confirmations ∧
    ¬((sampleCertificate 10).request = (sampleCertificate 1000).request ∧
      (sampleCertificate 10).confirmations = (sampleCertificate 1000).confirmations ∧
      (sampleCertificate 10).reservation.reservedAmount =
        (sampleCertificate 1000).reservation.reservedAmount ∧
      (sampleCertificate 10).reservation.reservationSeq =
        (sampleCertificate 1000).reservation.reservationSeq ∧
      (sampleCertificate 10).expiry = (sampleCertificate 1000).expiry) := by
  have leaves : ∀ i < sampleTree.capacity, ∀ l r,
      sampleTree.leaf i ≠ hashNode idealDigests l r := by
    intro i inside l r same
    rw [sampleTree_leaf inside] at same
    exact absurd (idealDigests_collisionFree _ _ _ _ same).1 (by decide)
  -- A leaf is the digest of its own withdrawal only.
  have own : ∀ i < sampleTree.capacity, ∀ cert : WithdrawalCertificate ideal,
      sampleTree.leaf i = cert.authorizationDigest idealDigests →
        cert.withdrawalId = (sampleRequest i).id idealDigests := by
    intro i inside cert here
    rw [sampleTree_leaf inside] at here
    exact (withdrawalAuthorizationDigest_inj idealDigests_collisionFree here).2.1.symm
  have single : OneDigestPerId idealDigests sampleTree := by
    intro i inside j inside' cert cert' same first second
    rw [own i inside cert first, own j inside' cert' second] at same
    have nonces : i = j :=
      congrArg WithdrawalRequest.nonce (request_of_id idealDigests_collisionFree same)
    rw [nonces]
  have agree := certificates_agree_iff idealDigests_collisionFree leaves single
    (by decide +kernel : (sampleCertificate 10).withdrawalId =
      (sampleCertificate 1000).withdrawalId)
    (by decide +kernel) (by decide +kernel)
    (by decide +kernel : verifyCertificate idealDigests _ sixVoters 5 = .ok ())
    (by decide +kernel : verifyCertificate idealDigests _ sixVoters 500 = .ok ())
  exact ⟨rfl, agree.1.2.1, fun all => absurd all.2.2.2.2 (by decide)⟩

end Dexos.Custody
