import Mathlib.Data.List.Destutter
import Dexos.Custody.Withdrawal

/-!
# The custody controller

The state machine over the threshold signer set: per-chain policies, pending withdrawals, the ids
that have been signed, the emergency halt and a running audit root.

## Implementation notes

A backend is the functions that it computes. A signer set carries the checks of its constructor.
`ValidatorSet::with_threshold` panics on an invalid set, so a call ends with a result, an error or
a panic. The borrowed registries of a user authorization are their values at the call.
-/

namespace Dexos.Custody

open Foundations Minimmit Clob

variable {C : Crypto}

/-- How a call ends without a result. -/
inductive Failure where
  | error (err : CustodyError)
  | panic
deriving DecidableEq

/-- A result of the source as the result of a call. -/
def orFail {A : Type} (x : Except CustodyError A) : Except Failure A := x.mapError .error

/-! ## Policies -/

structure ChainPolicy where
  chain : Nat
  maxPerTx : Amount
  maxPending : Amount
  minConfirmations : Nat
  rateLimit : Nat
deriving DecidableEq

def liftArith {A : Type} (x : Except ArithError A) : Except CustodyError A :=
  x.mapError fun _ => .overflow

/-- `u32::checked_add(1)`. -/
def nextCount (count : Nat) : Except CustodyError Nat :=
  if count + 1 ≤ u32Max then .ok (count + 1) else .error .overflow

namespace ChainPolicy

def check (policy : ChainPolicy) (amount : Amount) (confirmations : Nat) (pending : Amount)
    (pendingCount : Nat) : Except CustodyError Unit := do
  require (0 ≤ amount.val) .policyViolation
  require (amount.val ≤ policy.maxPerTx.val) .policyViolation
  require (policy.minConfirmations ≤ confirmations) .policyViolation
  let newPending ← liftArith (Scalar.checkedAdd pending amount)
  require (newPending.val ≤ policy.maxPending.val) .policyViolation
  let newCount ← nextCount pendingCount
  require (newCount ≤ policy.rateLimit) .policyViolation

def encode (policy : ChainPolicy) : List (Datum C) :=
  [.word 8 policy.chain, .word 16 policy.maxPerTx.val, .word 16 policy.maxPending.val,
    .word 4 policy.minConfirmations, .word 4 policy.rateLimit]

end ChainPolicy

/-! ## Signers -/

/-- A key custodian: the functions of `HsmBackend`. -/
structure HsmBackend (C : Crypto) where
  publicKey : List UInt8 → Except CustodyError C.PublicKey
  sign : List UInt8 → C.Hash → Except CustodyError C.Signature

structure KeyRef (C : Crypto) where
  handle : List UInt8
  publicKey : C.PublicKey

structure HsmSigner (C : Crypto) where
  backend : HsmBackend C
  handle : List UInt8
  publicKey : C.PublicKey

namespace HsmSigner

def bindAttested (backend : HsmBackend C) (handle : List UInt8) (expected : C.PublicKey) :
    Except CustodyError (HsmSigner C) := do
  let publicKey ← backend.publicKey handle
  require (publicKey = expected) .keyAttestationFailed
  return ⟨backend, handle, publicKey⟩

def sign (signer : HsmSigner C) (message : C.Hash) : Except CustodyError C.Signature :=
  signer.backend.sign signer.handle message

end HsmSigner

def maxSigners : Nat := 16

/-- A threshold signer set, as its constructor builds it. -/
structure SignerSet (C : Crypto) where
  signers : List (HsmSigner C)
  threshold : Nat
  epoch : Nat
  sized : 0 < signers.length ∧ signers.length ≤ maxSigners
  ranged : 0 < threshold ∧ threshold ≤ signers.length

namespace SignerSet

def new (signers : List (HsmSigner C)) (threshold epoch : Nat) :
    Except CustodyError (SignerSet C) :=
  if sized : 0 < signers.length ∧ signers.length ≤ maxSigners then
    if ranged : 0 < threshold ∧ threshold ≤ signers.length then
      .ok ⟨signers, threshold, epoch, sized, ranged⟩
    else .error .invalidThreshold
  else .error .invalidThreshold

variable (s : SignerSet C)
include s

def validators : List (Validator C) := s.signers.map fun x => ⟨x.publicKey, 1⟩

/-- `SignerSet::validator_set`; there is none where the source panics. -/
def validatorSet : Option (ValidatorSet C) :=
  (ValidatorSet.tryWithThreshold s.validators s.threshold).toOption

/-- The shares that are asked for: in range, in ascending order and without repetitions. -/
def shares (indices : List Nat) : List Nat :=
  ((indices.filter fun i => i < s.signers.length ∧ i < maxSigners).insertionSort (· ≤ ·)).destutter
    (· ≠ ·)

def sign (message : C.Hash) (indices : List Nat) : Except CustodyError (Certificate C) := do
  let signatures ← (s.shares indices).mapM fun i => do
    let signer ← orError s.signers[i]? .unknownSigner
    signer.sign message
  return ⟨message, (s.shares indices).foldl (fun bits i => bits ||| (1#16 <<< i)) 0#16, signatures⟩

end SignerSet

/-! ## Sessions -/

def sessionDomain : String := "DEXOS/AUTHORIZE-SESSION/v1"

structure SessionScope where
  markets : List Nat
  maxNotional : Amount
  maxLeverage : Ratio
  allowWithdrawals : Bool
  expiry : Nat
deriving DecidableEq

def SessionScope.encode (scope : SessionScope) : Except CustodyError (List (Datum C)) := do
  require (scope.markets.length ≤ u32Max) .decode
  return [.word 4 scope.markets.length] ++ scope.markets.map (fun m => Datum.word 4 m) ++
    [.word 16 scope.maxNotional.val, .word 8 (max scope.maxLeverage.val 0),
      flag scope.allowWithdrawals, .word 8 scope.expiry]

structure AuthorizeSession (C : Crypto) where
  account : Nat
  sessionPubkey : C.PublicKey
  scope : SessionScope
  nonce : Nat
  masterProof : WalletProof C

def AuthorizeSession.authorizationMessage (cmd : AuthorizeSession C) :
    Except CustodyError (Message C) := do
  let scope ← cmd.scope.encode
  return ⟨sessionDomain,
    [.word 4 cmd.account, .key cmd.sessionPubkey] ++ scope ++ [.word 8 cmd.nonce]⟩

structure SessionKey (C : Crypto) where
  account : Nat
  sessionPubkey : C.PublicKey
  scope : SessionScope
  authorizedAt : Nat
  revokedAt : Option Nat
deriving DecidableEq

/-- The sessions by account and key, the latest authorization of a key first. -/
structure SessionRegistry (C : Crypto) where
  sessions : List ((Nat × C.PublicKey) × SessionKey C)
  usedNonces : List (Nat × Nat)
deriving DecidableEq

namespace SessionRegistry

def new : SessionRegistry C := ⟨[], []⟩

def session (r : SessionRegistry C) (account : Nat) (sessionPubkey : C.PublicKey) :
    Option (SessionKey C) :=
  (r.sessions.find? fun e => e.1 = (account, sessionPubkey)).map Prod.snd

def authorize (W : WalletScheme C) (r : SessionRegistry C) (cmd : AuthorizeSession C)
    (wallets : WalletRegistry C) (seq : Nat) : Except CustodyError Unit × SessionRegistry C :=
  commitAfter r (do
    require ((cmd.account, cmd.nonce) ∉ r.usedNonces) .replayedSession
    let master ← orError (wallets.master cmd.account seq) .notMaster
    require (cmd.masterProof.key = master.key) .notMaster
    let message ← cmd.authorizationMessage
    cmd.masterProof.verify W message)
    fun _ => { r with
      usedNonces := (cmd.account, cmd.nonce) :: r.usedNonces
      sessions := ((cmd.account, cmd.sessionPubkey),
        ⟨cmd.account, cmd.sessionPubkey, cmd.scope, seq, none⟩) :: r.sessions }

def revoke (r : SessionRegistry C) (account : Nat) (sessionPubkey : C.PublicKey) (seq : Nat) :
    Except CustodyError Unit × SessionRegistry C :=
  commitAfter r (orError (r.session account sessionPubkey) .unknownSession)
    fun s => { r with
      sessions := ((account, sessionPubkey), { s with revokedAt := some seq }) :: r.sessions }

def live (r : SessionRegistry C) (account : Nat) (sessionPubkey : C.PublicKey) (seq : Nat) :
    Except CustodyError (SessionKey C) := do
  let s ← orError (r.session account sessionPubkey) .unknownSession
  require (seq ≤ s.scope.expiry) .sessionExpired
  match s.revokedAt with
  | some revoked => require (seq ≤ revoked) .sessionRevoked
  | none => pure ()
  return s

def authorizeWithdrawal (r : SessionRegistry C) (account : Nat) (sessionPubkey : C.PublicKey)
    (seq : Nat) : Except CustodyError Unit := do
  let s ← r.live account sessionPubkey seq
  require (s.scope.allowWithdrawals = true) .outOfScope

end SessionRegistry

/-! ## Controller -/

structure SignedWithdrawal (C : Crypto) where
  withdrawalId : C.Hash
  epoch : Nat
  certificate : Certificate C
deriving DecidableEq

inductive UserWithdrawalAuth (C : Crypto) where
  | wallet (registry : WalletRegistry C) (address : WalletAddress C) (proof : WalletProof C)
  | session (registry : SessionRegistry C) (sessionPubkey : C.PublicKey)

structure SettlementFinality (C : Crypto) where
  blockNumber : Nat
  blockHash : C.Hash
  confirmations : Nat

structure PendingAuth where
  chain : Nat
  amount : Amount
deriving DecidableEq

inductive ControlCommand (C : Crypto) where
  | rotate (epoch threshold : Nat) (keys : List (KeyRef C))
  | halt
  | resume
  | setPolicy (policy : ChainPolicy)

def auditSigned : UInt8 := 1
def auditRotated : UInt8 := 2
def auditHalted : UInt8 := 3
def auditResumed : UInt8 := 4
def auditPolicy : UInt8 := 5
def auditSettled : UInt8 := 6

structure CustodyController (C : Crypto) where
  backend : HsmBackend C
  signers : SignerSet C
  consensus : ValidatorSet C
  halted : Bool
  policies : OrdMap Nat ChainPolicy
  signedIds : List C.Hash
  pendingById : OrdMap C.Hash PendingAuth
  pending : OrdMap Nat Amount
  pendingCount : OrdMap Nat Nat
  auditRoot : C.Hash
  auditLen : Nat

def userAuthDomain : String := "dexos:custody:user-withdraw-auth:v1"

def userAuthMessage (withdrawalId : C.Hash) (account : Nat) : Message C :=
  ⟨userAuthDomain, [.hash withdrawalId, .word 4 account]⟩

def hashLeaf (D : Digests C) (data : List (Datum C)) : C.Hash := D.hashData "dexos:leaf:v1" data

namespace CustodyController

def new (D : Digests C) (backend : HsmBackend C) (signers : SignerSet C)
    (consensus : ValidatorSet C) : CustodyController C :=
  ⟨backend, signers, consensus, false, ∅, [], ∅, ∅, ∅, D.zero, 0⟩

def policiesPending (c : CustodyController C) (chain : Nat) : Amount :=
  (c.pending.get? chain).getD I128.zero

/-- The number of pending withdrawals of a chain. -/
def countOf (c : CustodyController C) (chain : Nat) : Nat := (c.pendingCount.get? chain).getD 0

variable (D : Digests C)

section

variable (c : CustodyController C)

def appendAudit (tag : UInt8) (body : List (Datum C)) : CustodyController C :=
  { c with
    auditRoot := hashNode D c.auditRoot (hashLeaf D (.byte tag :: body))
    auditLen := satAdd c.auditLen 1 }

def setPolicy (policy : ChainPolicy) : CustodyController C :=
  { c with policies := c.policies.insert policy.chain policy }.appendAudit D
    auditPolicy policy.encode

def halt : CustodyController C :=
  { c with halted := true }.appendAudit D auditHalted []

def resume : CustodyController C :=
  { c with halted := false }.appendAudit D auditResumed []

def rotate (newSigners : SignerSet C) : Except CustodyError Unit × CustodyController C :=
  commitAfter c (require (c.signers.epoch < newSigners.epoch) .staleEpoch) fun _ =>
    { c.appendAudit D auditRotated [.word 8 newSigners.epoch, .word 8 newSigners.threshold,
        .word 4 newSigners.signers.length] with
      signers := newSigners }

end

def verifyUserAuth (W : WalletScheme C) (cert : WithdrawalCertificate C)
    (userAuth : UserWithdrawalAuth C) (now : Nat) : Except CustodyError Unit :=
  match userAuth with
  | .wallet registry address proof =>
    (registry.authorizeWithdrawal W cert.request.account address proof
      (userAuthMessage cert.withdrawalId cert.request.account) now).mapError fun
      | .unknownWallet | .withdrawalNotAllowed | .notMaster => .missingUserAuthorization
      | other => other
  | .session registry sessionPubkey =>
    (registry.authorizeWithdrawal cert.request.account sessionPubkey now).mapError fun
      | .unknownSession | .sessionExpired | .sessionRevoked | .outOfScope =>
        .missingUserAuthorization
      | other => other

/-- The checks of `authorize_withdrawal`, up to the policy and the duplicate check. -/
def precheck (W : WalletScheme C) (c : CustodyController C)
    (cert : WithdrawalCertificate C) (userAuth : UserWithdrawalAuth C) (now : Nat) :
    Except CustodyError Unit := do
  require (c.halted = false) .emergencyHalt
  verifyUserAuth W cert userAuth now
  verifyCertificate D cert c.consensus now
  let policy ← orError (c.policies.get? cert.request.chain) .unknownChain
  policy.check cert.request.amount cert.confirmations (c.policiesPending cert.request.chain)
    (c.countOf cert.request.chain)
  require (cert.withdrawalId ∉ c.signedIds) .duplicateSign

/-- Record a signed withdrawal. -/
def record (c : CustodyController C) (cert : WithdrawalCertificate C)
    (newPending : Amount) (newCount : Nat) : CustodyController C :=
  { c with
    pending := c.pending.insert cert.request.chain newPending
    pendingCount := c.pendingCount.insert cert.request.chain newCount
    signedIds := cert.withdrawalId :: c.signedIds
    pendingById := c.pendingById.insert cert.withdrawalId ⟨cert.request.chain, cert.request.amount⟩
    }.appendAudit D auditSigned [.hash cert.withdrawalId, .word 8 c.signers.epoch]

/-- What `authorize_withdrawal` computes before it changes the state: the threshold certificate and
the new counters. -/
def approve (W : WalletScheme C) (c : CustodyController C)
    (cert : WithdrawalCertificate C) (userAuth : UserWithdrawalAuth C) (signerIndices : List Nat)
    (now : Nat) : Except Failure (Certificate C × Amount × Nat) := do
  orFail (c.precheck D W cert userAuth now)
  let qc ← orFail (c.signers.sign cert.withdrawalId signerIndices)
  let set ← orError c.signers.validatorSet Failure.panic
  orFail ((set.verify qc).mapError fun _ => .thresholdNotMet)
  let newPending ← orFail (liftArith
    (Scalar.checkedAdd (c.policiesPending cert.request.chain) cert.request.amount))
  let newCount ← orFail (nextCount (c.countOf cert.request.chain))
  return (qc, newPending, newCount)

def authorizeWithdrawal (W : WalletScheme C) (c : CustodyController C)
    (cert : WithdrawalCertificate C) (userAuth : UserWithdrawalAuth C) (signerIndices : List Nat)
    (now : Nat) : Except Failure (SignedWithdrawal C) × CustodyController C :=
  match c.approve D W cert userAuth signerIndices now with
  | .error failure => (.error failure, c)
  | .ok (qc, newPending, newCount) =>
    (.ok ⟨cert.withdrawalId, c.signers.epoch, qc⟩, c.record D cert newPending newCount)

/-- Release a settled withdrawal. -/
def release (c : CustodyController C) (chain : Nat) (id : C.Hash) (amount : Amount)
    (finality : SettlementFinality C) : CustodyController C :=
  { c with
    pendingById := c.pendingById.erase id
    pending := c.pending.insert chain ((c.policiesPending chain).saturatingSub amount)
    pendingCount := c.pendingCount.insert chain (c.countOf chain - 1)
    }.appendAudit D auditSettled [.word 8 chain, .hash id, .word 16 amount.val,
      .word 8 finality.blockNumber, .hash finality.blockHash, .word 4 finality.confirmations]

def settle (c : CustodyController C) (chain : Nat) (id : C.Hash) (amount : Amount)
    (finality : SettlementFinality C) : Except CustodyError Unit × CustodyController C :=
  commitAfter c (do
    let auth ← orError (c.pendingById.get? id) .unauthenticatedSettle
    require (auth.chain = chain ∧ auth.amount = amount) .unauthenticatedSettle
    let policy ← orError (c.policies.get? chain) .unknownChain
    require (policy.minConfirmations ≤ finality.confirmations) .unverifiedFinality
    require (finality.blockHash ≠ D.zero) .unverifiedFinality)
    fun _ => c.release D chain id amount finality

/-- The signer set that a rotation command builds. -/
def commandSet (c : CustodyController C) (epoch threshold : Nat) (keys : List (KeyRef C)) :
    Except CustodyError (SignerSet C) := do
  require (keys ≠ [] ∧ keys.length ≤ maxSigners) .invalidThreshold
  let signers ← keys.mapM fun key => HsmSigner.bindAttested c.backend key.handle key.publicKey
  SignerSet.new signers threshold epoch

def applyControl (D : Digests C) (c : CustodyController C) :
    ControlCommand C → Except CustodyError Unit × CustodyController C
  | .rotate epoch threshold keys =>
    match c.commandSet epoch threshold keys with
    | .error err => (.error err, c)
    | .ok set => c.rotate D set
  | .halt => (.ok (), c.halt D)
  | .resume => (.ok (), c.resume D)
  | .setPolicy policy => (.ok (), c.setPolicy D policy)

/-! ## Runs -/

inductive Call (C : Crypto) where
  | authorize (cert : WithdrawalCertificate C) (userAuth : UserWithdrawalAuth C)
      (signerIndices : List Nat) (now : Nat)
  | settle (chain : Nat) (id : C.Hash) (amount : Amount) (finality : SettlementFinality C)
  | halt
  | resume
  | rotate (newSigners : SignerSet C)
  | setPolicy (policy : ChainPolicy)
  | control (cmd : ControlCommand C)

def perform (D : Digests C) (W : WalletScheme C) (c : CustodyController C) :
    Call C → Except Failure Unit × CustodyController C
  | .authorize cert userAuth signerIndices now =>
    ((c.authorizeWithdrawal D W cert userAuth signerIndices now).1.map fun _ => (),
      (c.authorizeWithdrawal D W cert userAuth signerIndices now).2)
  | .settle chain id amount finality =>
    (orFail (c.settle D chain id amount finality).1, (c.settle D chain id amount finality).2)
  | .halt => (.ok (), c.halt D)
  | .resume => (.ok (), c.resume D)
  | .rotate newSigners => (orFail (c.rotate D newSigners).1, (c.rotate D newSigners).2)
  | .setPolicy policy => (.ok (), c.setPolicy D policy)
  | .control cmd => (orFail (c.applyControl D cmd).1, (c.applyControl D cmd).2)

end CustodyController

end Dexos.Custody
