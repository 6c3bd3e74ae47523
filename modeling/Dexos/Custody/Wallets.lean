import Dexos.Crypto.Quorum

/-!
# Wallet bindings

The registry that binds external wallets to accounts. The first wallet of an account is its
master; every later change is authorized by the current master over a message that names the
operation, the account and a nonce.

## Implementation notes

The signature schemes of the wallets are parameters. A signed message is its domain tag and its
fields, in the source's order. The sets and maps that are only inserted into and looked up are
lists, and the map from canonical address bytes to the owner is keyed by the address itself.
A sequence number is the number of the source's `u64` word.
-/

namespace Dexos.Custody

open Foundations Minimmit

variable {C : Crypto}

instance lawfulBEqNonces : LawfulBEq (Nat × Nat) := inferInstance

/-! ## Errors -/

inductive CryptoError where
  | malformedKey
  | malformedSignature
  | invalidSignature
  | highS
  | contractAddressMismatch
deriving DecidableEq

inductive CustodyError where
  | malformedAddress
  | malformedKey
  | malformedSignature
  | invalidSignature
  | addressMismatch
  | duplicateBinding
  | crossAccountReuse
  | accountAlreadyEstablished
  | masterRequired
  | masterNotRevocable
  | replayedBinding
  | replayedSession
  | bindingCapExceeded
  | unknownWallet
  | notMaster
  | withdrawalNotAllowed
  | unknownSession
  | sessionExpired
  | sessionRevoked
  | outOfScope
  | invalidThreshold
  | thresholdNotMet
  | unknownSigner
  | unknownKeyHandle
  | keyAttestationFailed
  | mismatchedWithdrawalId
  | missingLedgerReserve
  | unprovenAuthorization
  | expired
  | badQuorumSignature
  | emergencyHalt
  | duplicateSign
  | unknownChain
  | policyViolation
  | staleEpoch
  | unauthenticatedSettle
  | unverifiedFinality
  | missingUserAuthorization
  | contractAddressMismatch
  | overflow
  | decode
deriving DecidableEq

def CryptoError.toCustody : CryptoError → CustodyError
  | .malformedKey => .malformedKey
  | .malformedSignature => .malformedSignature
  | .invalidSignature => .invalidSignature
  | .highS => .invalidSignature
  | .contractAddressMismatch => .contractAddressMismatch

/-- Update the state when every check has passed. -/
def commitAfter {S A : Type} {E : Type} (s : S) (checked : Except E A) (update : A → S) :
    Except E Unit × S :=
  match checked with
  | .error err => (.error err, s)
  | .ok a => (.ok (), update a)

theorem commitAfter_cases {S A E : Type} {s : S} {checked : Except E A} {update : A → S}
    {P : Except E Unit × S → Prop} (failed : ∀ err, P (.error err, s))
    (done : ∀ a, checked = .ok a → P (.ok (), update a)) : P (commitAfter s checked update) := by
  cases checked with
  | error => exact failed ..
  | ok a => exact done a rfl

/-! ## Wallets -/

structure Message (C : Crypto) where
  domain : String
  fields : List (Datum C)

structure WalletScheme (C : Crypto) where
  /-- `verify_secp256k1_evm`. -/
  verifySecp256k1Evm : List UInt8 → Message C → List UInt8 → Except CryptoError Unit
  /-- `verify_ed25519`. -/
  verifyEd25519 : C.PublicKey → Message C → C.Signature → Except CryptoError Unit
  /-- The last twenty bytes of the hash of an uncompressed key. -/
  keccakAddress : List UInt8 → BitVec 160

inductive ChainKind where
  | evm
  | svm
deriving DecidableEq

inductive WalletAddress (C : Crypto) where
  | evm (address : BitVec 160)
  | svm (address : C.PublicKey)
deriving DecidableEq

namespace WalletAddress

def kind : WalletAddress C → ChainKind
  | .evm _ => .evm
  | .svm _ => .svm

def encode : WalletAddress C → List (Datum C)
  | .evm address => [.byte 1, .word 20 address.toNat]
  | .svm address => [.byte 2, .key address]

theorem encode_injective : Function.Injective (encode (C := C)) := by
  rintro (a | a) (b | b) same
  · simp only [encode, List.cons.injEq, Datum.word.injEq, Int.natCast_inj, true_and,
      and_true] at same
    rw [BitVec.eq_of_toNat_eq same]
  · cases same
  · cases same
  · cases same
    rfl

end WalletAddress

def evmAddressFromPubkey (W : WalletScheme C) (pubkey : List UInt8) :
    Except CustodyError (BitVec 160) :=
  if pubkey.length = 65 then
    if pubkey.head? ≠ some 4 then .error .malformedKey else .ok (W.keccakAddress pubkey.tail)
  else if pubkey.length = 64 then .ok (W.keccakAddress pubkey)
  else .error .malformedKey

inductive WalletKey (C : Crypto) where
  | secp256k1Sec1 (key : List UInt8)
  | ed25519 (key : C.PublicKey)
deriving DecidableEq

inductive WalletProof (C : Crypto) where
  | eip712 (publicKeySec1 signature : List UInt8)
  | eip1271 (contractAddress : BitVec 160) (ownerPublicKeySec1 signature : List UInt8)
  | ed25519 (publicKey : C.PublicKey) (signature : C.Signature)
deriving DecidableEq

namespace WalletProof

def key : WalletProof C → WalletKey C
  | .eip712 publicKeySec1 _ => .secp256k1Sec1 publicKeySec1
  | .eip1271 _ ownerPublicKeySec1 _ => .secp256k1Sec1 ownerPublicKeySec1
  | .ed25519 publicKey _ => .ed25519 publicKey

variable (W : WalletScheme C)

def verifyEip1271 (contractAddress claimed : BitVec 160)
    (ownerPublicKeySec1 : List UInt8) (message : Message C) (signature : List UInt8) :
    Except CryptoError Unit :=
  if contractAddress ≠ claimed then .error .contractAddressMismatch
  else W.verifySecp256k1Evm ownerPublicKeySec1 message signature

def verify (proof : WalletProof C) (message : Message C) : Except CustodyError Unit :=
  Except.mapError CryptoError.toCustody <| match proof with
    | .eip712 publicKeySec1 signature => W.verifySecp256k1Evm publicKeySec1 message signature
    | .eip1271 contractAddress ownerPublicKeySec1 signature =>
      verifyEip1271 W contractAddress contractAddress ownerPublicKeySec1 message signature
    | .ed25519 publicKey signature => W.verifyEd25519 publicKey message signature

def verifyForAddress (proof : WalletProof C) (message : Message C)
    (claimedEvm : Option (BitVec 160)) : Except CustodyError Unit :=
  match proof with
  | .eip1271 contractAddress ownerPublicKeySec1 signature => do
      let claimed ← orError claimedEvm .addressMismatch
      (verifyEip1271 W contractAddress claimed ownerPublicKeySec1 message signature).mapError
        CryptoError.toCustody
  | proof => proof.verify W message

end WalletProof

/-! ## Commands and messages -/

def bindDomain : String := "DEXOS/BIND-WALLET/v1"
def bindAuthDomain : String := "DEXOS/BIND-AUTH/v1"

def opBind : UInt8 := 1
def opRevoke : UInt8 := 2
def opSetPrivileges : UInt8 := 3
def opRotate : UInt8 := 4

structure BindWallet (C : Crypto) where
  account : Nat
  address : WalletAddress C
  isMaster : Bool
  withdrawalsAllowed : Bool
  nonce : Nat
  proof : WalletProof C
deriving DecidableEq

def flag (b : Bool) : Datum C := .byte (if b then 1 else 0)

def BindWallet.bindingMessage (cmd : BindWallet C) : Message C :=
  ⟨bindDomain, [.word 4 cmd.account] ++ cmd.address.encode ++
    [flag cmd.isMaster, flag cmd.withdrawalsAllowed, .word 8 cmd.nonce]⟩

def authMessage (account nonce : Nat) (opTag : UInt8) (body : List (Datum C)) : Message C :=
  ⟨bindAuthDomain, [.word 4 account, .word 8 nonce, .byte opTag] ++ body⟩

def bindAuthorizationMessage (account nonce : Nat) (address : WalletAddress C)
    (withdrawalsAllowed : Bool) : Message C :=
  authMessage account nonce opBind (address.encode ++ [flag withdrawalsAllowed])

def revokeAuthorizationMessage (account nonce : Nat) (address : WalletAddress C) : Message C :=
  authMessage account nonce opRevoke address.encode

def setPrivilegesAuthorizationMessage (account nonce : Nat) (address : WalletAddress C)
    (withdrawalsAllowed : Bool) : Message C :=
  authMessage account nonce opSetPrivileges (address.encode ++ [flag withdrawalsAllowed])

def rotateMasterAuthorizationMessage (account nonce : Nat)
    (newMaster : WalletAddress C) : Message C :=
  authMessage account nonce opRotate newMaster.encode

/-! ## Registry -/

structure WalletBinding (C : Crypto) where
  account : Nat
  address : WalletAddress C
  chain : ChainKind
  key : WalletKey C
  isMaster : Bool
  withdrawalsAllowed : Bool
  boundAt : Nat
  revokedAt : Option Nat
deriving DecidableEq

def WalletBinding.isActive (b : WalletBinding C) (atSeq : Nat) : Bool :=
  match b.revokedAt with
  | none => true
  | some r => atSeq < r

structure WalletRegistry (C : Crypto) where
  maxPerAccount : Nat
  bindings : List (WalletBinding C)
  usedNonces : List (Nat × Nat)
  addressOwner : List (WalletAddress C × Nat)
deriving DecidableEq

namespace WalletRegistry

def new (maxPerAccount : Nat) : WalletRegistry C := ⟨maxPerAccount, [], [], []⟩

variable (r : WalletRegistry C)

def activeIndexOf (account : Nat) (address : WalletAddress C) (atSeq : Nat) : Option Nat :=
  r.bindings.findIdx? fun b => b.account = account ∧ b.address = address ∧ b.isActive atSeq

def activeMasterIndex (account : Nat) (atSeq : Nat) : Option Nat :=
  r.bindings.findIdx? fun b => b.account = account ∧ b.isMaster ∧ b.isActive atSeq

/-- The owner of an address. -/
def ownerOf (address : WalletAddress C) : Option Nat :=
  (r.addressOwner.find? fun e => e.1 = address).map Prod.snd

def checkCrossAccount (account : Nat) (address : WalletAddress C) : Except CustodyError Unit :=
  match r.ownerOf address with
  | some owner => if owner ≠ account then .error .crossAccountReuse else .ok ()
  | none => .ok ()

variable {r}

def verifyControl (W : WalletScheme C) (cmd : BindWallet C) : Except CustodyError Unit :=
  match cmd.address, cmd.proof with
  | .evm address, .eip712 publicKeySec1 _ => do
      cmd.proof.verify W cmd.bindingMessage
      let derived ← evmAddressFromPubkey W publicKeySec1
      require (derived = address) .addressMismatch
  | .evm address, .eip1271 contractAddress _ _ => do
      cmd.proof.verifyForAddress W cmd.bindingMessage (some address)
      require (contractAddress = address) .contractAddressMismatch
  | .svm address, .ed25519 publicKey _ => do
      cmd.proof.verify W cmd.bindingMessage
      require (address = publicKey) .addressMismatch
  | _, _ => .error .malformedAddress

def verifyMasterAuthorization (W : WalletScheme C) (r : WalletRegistry C) (account : Nat)
    (masterProof : WalletProof C) (message : Message C) (atSeq : Nat) :
    Except CustodyError Unit := do
  let master ← orError ((r.activeMasterIndex account atSeq).bind fun i => r.bindings[i]?) .notMaster
  require (masterProof.key = master.key) .notMaster
  masterProof.verify W message

/-- The binding that a command creates. -/
def bindingOf (cmd : BindWallet C) (seq : Nat) : WalletBinding C :=
  ⟨cmd.account, cmd.address, cmd.address.kind, cmd.proof.key, cmd.isMaster, cmd.withdrawalsAllowed,
    seq, none⟩

def commitBinding (r : WalletRegistry C) (cmd : BindWallet C) (seq : Nat) : WalletRegistry C :=
  { r with
    usedNonces := (cmd.account, cmd.nonce) :: r.usedNonces
    addressOwner := if (r.ownerOf cmd.address).isSome then r.addressOwner
      else (cmd.address, cmd.account) :: r.addressOwner
    bindings := r.bindings ++ [bindingOf cmd seq] }

/-- The nonce check that every operation makes. -/
def checkNonce (r : WalletRegistry C) (account nonce : Nat) : Except CustodyError Unit :=
  require ((account, nonce) ∉ r.usedNonces) .replayedBinding

def establishMaster (W : WalletScheme C) (r : WalletRegistry C) (cmd : BindWallet C) (seq : Nat) :
    Except CustodyError Unit × WalletRegistry C :=
  commitAfter r (do
    require ((r.bindings.any fun b => b.account = cmd.account) = false)
      .accountAlreadyEstablished
    require (cmd.isMaster = true) .masterRequired
    r.checkNonce cmd.account cmd.nonce
    verifyControl W cmd
    r.checkCrossAccount cmd.account cmd.address)
    fun _ => r.commitBinding cmd seq

def activeCount (r : WalletRegistry C) (account : Nat) (atSeq : Nat) : Nat :=
  r.bindings.countP fun b => b.account = account ∧ b.isActive atSeq

def bind (W : WalletScheme C) (r : WalletRegistry C) (cmd : BindWallet C)
    (masterProof : WalletProof C) (seq : Nat) : Except CustodyError Unit × WalletRegistry C :=
  commitAfter r (do
    require (cmd.isMaster = false) .accountAlreadyEstablished
    r.checkNonce cmd.account cmd.nonce
    r.verifyMasterAuthorization W cmd.account masterProof
      (bindAuthorizationMessage cmd.account cmd.nonce cmd.address cmd.withdrawalsAllowed) seq
    verifyControl W cmd
    r.checkCrossAccount cmd.account cmd.address
    require (r.activeIndexOf cmd.account cmd.address seq = none) .duplicateBinding
    require (r.activeCount cmd.account seq < r.maxPerAccount) .bindingCapExceeded)
    fun _ => r.commitBinding cmd seq

/-- Consume a nonce and change the binding at an index. -/
def update (r : WalletRegistry C) (account nonce : Nat) (i : Nat)
    (change : WalletBinding C → WalletBinding C) : WalletRegistry C :=
  { r with
    usedNonces := (account, nonce) :: r.usedNonces
    bindings := r.bindings.modify i change }

def setPrivileges (W : WalletScheme C) (r : WalletRegistry C) (account : Nat)
    (address : WalletAddress C) (withdrawalsAllowed : Bool) (masterProof : WalletProof C)
    (nonce seq : Nat) : Except CustodyError Unit × WalletRegistry C :=
  commitAfter r (do
    r.checkNonce account nonce
    let i ← orError (r.activeIndexOf account address seq) .unknownWallet
    r.verifyMasterAuthorization W account masterProof
      (setPrivilegesAuthorizationMessage account nonce address withdrawalsAllowed) seq
    return i)
    fun i => r.update account nonce i fun b => { b with withdrawalsAllowed := withdrawalsAllowed }

def revoke (W : WalletScheme C) (r : WalletRegistry C) (account : Nat) (address : WalletAddress C)
    (masterProof : WalletProof C) (nonce seq : Nat) : Except CustodyError Unit × WalletRegistry C :=
  commitAfter r (do
    r.checkNonce account nonce
    let i ← orError (r.activeIndexOf account address seq) .unknownWallet
    require (((r.bindings[i]?).any fun b => b.isMaster) = false) .masterNotRevocable
    r.verifyMasterAuthorization W account masterProof
      (revokeAuthorizationMessage account nonce address) seq
    return i)
    fun i => r.update account nonce i fun b => { b with revokedAt := some seq }

def rotateMaster (W : WalletScheme C) (r : WalletRegistry C) (account : Nat)
    (newMaster : WalletAddress C) (masterProof : WalletProof C) (nonce seq : Nat) :
    Except CustodyError Unit × WalletRegistry C :=
  commitAfter r (do
    r.checkNonce account nonce
    let current ← orError (r.activeMasterIndex account seq) .notMaster
    let next ← orError (r.activeIndexOf account newMaster seq) .unknownWallet
    r.verifyMasterAuthorization W account masterProof
      (rotateMasterAuthorizationMessage account nonce newMaster) seq
    return (current, next))
    fun i => { r with
      usedNonces := (account, nonce) :: r.usedNonces
      bindings := (r.bindings.modify i.1 fun b => { b with isMaster := false }).modify i.2
        fun b => { b with isMaster := true } }

def binding (r : WalletRegistry C) (account : Nat) (address : WalletAddress C) (atSeq : Nat) :
    Option (WalletBinding C) :=
  (r.activeIndexOf account address atSeq).bind fun i => r.bindings[i]?

def master (r : WalletRegistry C) (account : Nat) (atSeq : Nat) : Option (WalletBinding C) :=
  (r.activeMasterIndex account atSeq).bind fun i => r.bindings[i]?

def authorizeWithdrawal (W : WalletScheme C) (r : WalletRegistry C) (account : Nat)
    (address : WalletAddress C) (proof : WalletProof C) (message : Message C) (atSeq : Nat) :
    Except CustodyError Unit := do
  let binding ← orError (r.binding account address atSeq) .unknownWallet
  require (binding.withdrawalsAllowed = true) .withdrawalNotAllowed
  require (proof.key = binding.key) .notMaster
  proof.verify W message

/-! ## Runs -/

inductive Call (C : Crypto) where
  | establishMaster (cmd : BindWallet C)
  | bind (cmd : BindWallet C) (masterProof : WalletProof C)
  | setPrivileges (account : Nat) (address : WalletAddress C) (withdrawalsAllowed : Bool)
      (masterProof : WalletProof C) (nonce : Nat)
  | revoke (account : Nat) (address : WalletAddress C) (masterProof : WalletProof C) (nonce : Nat)
  | rotateMaster (account : Nat) (newMaster : WalletAddress C)
      (masterProof : WalletProof C) (nonce : Nat)

def perform (W : WalletScheme C) (r : WalletRegistry C) (seq : Nat) :
    Call C → Except CustodyError Unit × WalletRegistry C
  | .establishMaster cmd => r.establishMaster W cmd seq
  | .bind cmd masterProof => r.bind W cmd masterProof seq
  | .setPrivileges account address withdrawalsAllowed masterProof nonce =>
    r.setPrivileges W account address withdrawalsAllowed masterProof nonce seq
  | .revoke account address masterProof nonce => r.revoke W account address masterProof nonce seq
  | .rotateMaster account newMaster masterProof nonce =>
    r.rotateMaster W account newMaster masterProof nonce seq

/-- The registries that calls at non-decreasing sequence numbers reach, with the last number. -/
inductive Reached (W : WalletScheme C) (maxPerAccount : Nat) : Nat → WalletRegistry C → Prop
  | start : Reached W maxPerAccount 0 (new maxPerAccount)
  | call {last seq : Nat} {r : WalletRegistry C} (c : Call C)
      (before : Reached W maxPerAccount last r)
      (later : last ≤ seq) : Reached W maxPerAccount seq (r.perform W seq c).2

end WalletRegistry

end Dexos.Custody
