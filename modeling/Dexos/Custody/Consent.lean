import Dexos.Custody.Accounting

/-!
# Who asked for a withdrawal

A user authorizes a withdrawal through a bound wallet, with a proof over the withdrawal's message,
or through a session. What the holders of the keys have signed is a log; a proof that the
controller is shown verifies only on a message of the log. The session route shows no proof.
-/

namespace Dexos.Custody

open Foundations Minimmit Clob List WalletRegistry

variable {C : Crypto}

/-- What the holders of the keys have signed. -/
abbrev SigningLog (C : Crypto) := WalletKey C → Message C → Prop

namespace UserWithdrawalAuth

/-- The proofs that an authorization shows to the controller. -/
def proofs : UserWithdrawalAuth C → List (WalletProof C)
  | .wallet _ _ proof => [proof]
  | .session _ _ => []

/-- A key of the account at a time: of an active binding, or of a live session. -/
def Owns (userAuth : UserWithdrawalAuth C) (account now : Nat) (key : WalletKey C) : Prop :=
  match userAuth with
  | .wallet registry _ _ =>
    ∃ b ∈ registry.bindings, b.account = account ∧ b.key = key ∧ b.isActive now = true
  | .session registry _ =>
    ∃ sessionPubkey s, registry.live account sessionPubkey now = .ok s ∧
      key = .ed25519 sessionPubkey

/-- The proofs that are shown verify only on messages of the log. -/
def Unforged (W : WalletScheme C) (log : SigningLog C) (userAuth : UserWithdrawalAuth C) : Prop :=
  ∀ proof ∈ userAuth.proofs, ∀ message, proof.verify W message = .ok () → log proof.key message

end UserWithdrawalAuth

/-- A message of a request: no other request has it. -/
def BindsRequest (D : Digests C) (message : Message C) (request : WithdrawalRequest C) : Prop :=
  message = userAuthMessage (request.id D) request.account ∧
    ∀ other : WithdrawalRequest C,
      message = userAuthMessage (other.id D) other.account → other = request

/-- A key of the account has signed a message that binds the request. -/
def OwnerAsked (D : Digests C) (log : SigningLog C) (userAuth : UserWithdrawalAuth C)
    (request : WithdrawalRequest C) (now : Nat) : Prop :=
  ∃ key message, userAuth.Owns request.account now key ∧
    BindsRequest D message request ∧ log key message

section

variable {D : Digests C} {W : WalletScheme C} {address : WalletAddress C}

theorem userAuthMessage_binds (free : D.CollisionFree) (request : WithdrawalRequest C) :
    BindsRequest D (userAuthMessage (request.id D) request.account) request := by
  refine ⟨rfl, ?_⟩
  intro other same
  simp only [userAuthMessage, Message.mk.injEq, cons.injEq, Datum.hash.injEq, true_and] at same
  exact request_of_id free same.1.symm

theorem WalletRegistry.mem_of_binding {r : WalletRegistry C} {account now : Nat}
    {b : WalletBinding C} (found : r.binding account address now = some b) :
    b ∈ r.bindings ∧ b.account = account ∧ b.isActive now = true := by
  obtain ⟨i, first, at_i⟩ := Option.bind_eq_some_iff.1 found
  obtain ⟨inside, holds, -⟩ := findIdx?_eq_some_iff_getElem.1 first
  rw [getElem?_eq_getElem inside] at at_i
  cases at_i
  simp only [decide_eq_true_eq] at holds
  exact ⟨getElem_mem inside, holds.1, holds.2.2⟩

/-- On the wallet route the proof is of a key of the account, over the message of the request. -/
theorem ownerAsked_of_wallet (free : D.CollisionFree) {cert : WithdrawalCertificate C}
    {registry : WalletRegistry C} {proof : WalletProof C} {now : Nat}
    (id : cert.withdrawalId = cert.request.id D)
    (passed : CustodyController.verifyUserAuth W cert (.wallet registry address proof) now = .ok ())
    {log : SigningLog C}
    (unforged : UserWithdrawalAuth.Unforged W log (.wallet registry address proof)) :
    OwnerAsked D log (.wallet registry address proof) cert.request now := by
  simp only [CustodyController.verifyUserAuth, authorizeWithdrawal, mapError_eq_ok,
    ok_iff] at passed
  obtain ⟨b, found, _, _, _, key, verified⟩ := passed
  obtain ⟨listed, account, active⟩ := mem_of_binding found
  rw [id] at verified
  exact ⟨proof.key, _, ⟨b, listed, account, key.symm, active⟩, userAuthMessage_binds free _,
    unforged proof mem_cons_self _ verified⟩

/-- On the session route nobody needs to have signed. -/
theorem not_ownerAsked_of_session (registry : SessionRegistry C) (sessionPubkey : C.PublicKey)
    (request : WithdrawalRequest C) (now : Nat) :
    UserWithdrawalAuth.Unforged W (fun _ _ => False) (.session registry sessionPubkey) ∧
      ¬ OwnerAsked D (fun _ _ => False) (.session registry sessionPubkey) request now := by
  constructor
  · intro proof shown
    cases shown
  · rintro ⟨key, message, -, -, signed⟩
    exact signed

end

namespace CustodyController

variable {D : Digests C} {W : WalletScheme C} {c : CustodyController C}

/-- A signed withdrawal was asked for by a key of the account, whatever the holders of the keys have
signed, exactly when it took the wallet route. -/
theorem owner_asked_iff (free : D.CollisionFree) {cert : WithdrawalCertificate C}
    {userAuth : UserWithdrawalAuth C} {indices : List Nat} {now : Nat} {signed : SignedWithdrawal C}
    (done : (c.authorizeWithdrawal D W cert userAuth indices now).1 = .ok signed) :
    (∀ log : SigningLog C, userAuth.Unforged W log → OwnerAsked D log userAuth cert.request now) ↔
      ∃ registry address proof, userAuth = .wallet registry address proof := by
  obtain ⟨-, user, certified, -, -⟩ := precheck_eq_ok.1 (authorizeWithdrawal_eq_ok done).1
  constructor
  · intro asked
    cases userAuth with
    | wallet registry address proof => exact ⟨registry, address, proof, rfl⟩
    | session registry sessionPubkey =>
      obtain ⟨unforged, silent⟩ :=
        not_ownerAsked_of_session (D := D) (W := W) registry sessionPubkey cert.request now
      exact absurd (asked _ unforged) silent
  · rintro ⟨registry, address, proof, rfl⟩ log unforged
    exact ownerAsked_of_wallet free (withdrawalId_of_certified certified) user unforged

/-! ## Runs -/

/-- The master of account 1 authorizes the session key 40 to withdraw. -/
def sampleSession : AuthorizeSession ideal :=
  let cmd : AuthorizeSession ideal := ⟨1, (40 : Nat), ⟨[], I128.zero, I64.zero, true, 100⟩, 0,
    .ed25519 (10 : Nat) ((0, 0) : Nat × Nat)⟩
  { cmd with masterProof := match cmd.authorizationMessage with
      | .ok message => idealProof 10 message
      | .error _ => cmd.masterProof }

/-- The authorization through the session. -/
def sessionAuth : UserWithdrawalAuth ideal :=
  .session (SessionRegistry.new.authorize idealWallets sampleSession sampleWallets 2).2
    (40 : Nat)

theorem owner_asked_iff_sample :
    (samplePolicySet.authorizeWithdrawal idealDigests idealWallets
      (sampleCertificate 10) sampleAuth [0, 1] 5).1.isOk = true ∧
    ∀ log : SigningLog ideal, sampleAuth.Unforged idealWallets log →
      OwnerAsked idealDigests log sampleAuth (sampleCertificate 10).request 5 := by
  have passed : (samplePolicySet.authorizeWithdrawal idealDigests idealWallets
      (sampleCertificate 10) sampleAuth [0, 1] 5).1.isOk = true := by decide +kernel
  refine ⟨passed, ?_⟩
  cases done : (samplePolicySet.authorizeWithdrawal idealDigests idealWallets
      (sampleCertificate 10) sampleAuth [0, 1] 5).1 with
  | error failure =>
    rw [done] at passed
    cases passed
  | ok signed => exact (owner_asked_iff idealDigests_collisionFree done).2 ⟨_, _, _, rfl⟩

/-- The session is authorized by the master; the withdrawal is signed though no key has signed
anything about it. -/
theorem session_withdrawal_unasked :
    (SessionRegistry.new.authorize idealWallets sampleSession sampleWallets 2).1 = .ok () ∧
    (samplePolicySet.authorizeWithdrawal idealDigests idealWallets
      (sampleCertificate 10) sessionAuth [0, 1] 5).1.isOk = true ∧
    sessionAuth.Unforged idealWallets (fun _ _ => False) ∧
    ¬ OwnerAsked idealDigests (fun _ _ => False) sessionAuth (sampleCertificate 10).request 5 :=
  ⟨by decide +kernel, by decide +kernel, not_ownerAsked_of_session _ _ _ _⟩

end CustodyController

end Dexos.Custody
