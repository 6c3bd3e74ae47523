import Dexos.Custody.Consent

/-!
# Revoked sessions

A session is revoked by a sequence number that the registry keeps with it, and a use is refused
after that number. A later revocation overwrites the number; as long as none does so with a later
one, a revoked session stays refused until the account's master authorizes it again.
-/

namespace Dexos.Custody

open Foundations Minimmit Clob Relation

variable {C : Crypto} {W : WalletScheme C}

namespace SessionRegistry

def authorizeOrder (r : SessionRegistry C) (account : Nat) (sessionPubkey : C.PublicKey)
    (market : Nat) (notional : Amount) (leverage : Ratio) (seq : Nat) :
    Except CustodyError Unit := do
  let s ← r.live account sessionPubkey seq
  require (market ∈ s.scope.markets) .outOfScope
  require (notional.val ≤ s.scope.maxNotional.val) .outOfScope
  require (leverage.val ≤ s.scope.maxLeverage.val) .outOfScope

/-- The command authorizes the session anew, under an unused nonce and with a proof of the account's
master at that time. -/
def Renews (W : WalletScheme C) (r : SessionRegistry C) (cmd : AuthorizeSession C)
    (wallets : WalletRegistry C) (seq account : Nat) (key : C.PublicKey) : Prop :=
  cmd.account = account ∧ cmd.sessionPubkey = key ∧ (account, cmd.nonce) ∉ r.usedNonces ∧
    ∃ master message, wallets.master account seq = some master ∧
      cmd.masterProof.key = master.key ∧ cmd.authorizationMessage = .ok message ∧
      cmd.masterProof.verify W message = .ok ()

/-- A call that does not authorize the session anew, and does not revoke it again at a later
number. Authorizing an order or a withdrawal leaves the registry as it is. -/
inductive Idles (W : WalletScheme C) (account : Nat) (key : C.PublicKey) (r : SessionRegistry C) :
    SessionRegistry C → Prop
  | use : Idles W account key r r
  | authorize (cmd : AuthorizeSession C) (wallets : WalletRegistry C) (seq : Nat) :
      ¬ Renews W r cmd wallets seq account key →
        Idles W account key r (r.authorize W cmd wallets seq).2
  | revoke (account' : Nat) (key' : C.PublicKey) (seq : Nat) :
      ((account', key') = (account, key) → ∀ s, r.session account key = some s →
        ∀ earlier, s.revokedAt = some earlier → seq ≤ earlier) →
      Idles W account key r (r.revoke account' key' seq).2

variable {r r' : SessionRegistry C} {account n m : Nat} {key : C.PublicKey}

/-- The session is kept with a revocation no later than the sequence number. -/
def RevokedBy (r : SessionRegistry C) (account : Nat) (key : C.PublicKey) (n : Nat) : Prop :=
  ∃ s revoked, r.session account key = some s ∧ s.revokedAt = some revoked ∧ revoked ≤ n

theorem session_cons {e : (Nat × C.PublicKey) × SessionKey C} {nonces : List (Nat × Nat)} :
    session ⟨e :: r.sessions, nonces⟩ account key =
      if e.1 = (account, key) then some e.2 else r.session account key := by
  simp only [session, List.find?_cons]
  split_ifs with same <;> simp [same]

theorem revokedBy_revoke (done : (r.revoke account key n).1 = .ok ()) :
    RevokedBy (r.revoke account key n).2 account key n := by
  rw [revoke] at done ⊢
  cases found : r.session account key with
  | none =>
    rw [found] at done
    cases done
  | some s => exact ⟨_, n, session_cons.trans (if_pos rfl), rfl, le_rfl⟩

theorem RevokedBy.idles (h : RevokedBy r account key n) (step : Idles W account key r r') :
    RevokedBy r' account key n := by
  obtain ⟨s, revoked, found, mark, early⟩ := id h
  cases step with
  | use => exact h
  | authorize cmd wallets seq silent =>
    refine commitAfter_cases (P := fun x => RevokedBy x.2 account key n) (fun _ => h)
      fun _ done => ?_
    refine ⟨s, revoked, session_cons.trans ((if_neg fun same => silent ?_).trans found), mark,
      early⟩
    obtain ⟨rfl, rfl⟩ := Prod.mk.inj same
    simp only [ok_iff] at done
    obtain ⟨-, fresh, master, current, -, owner, message, encoded, verified⟩ := done
    exact ⟨rfl, rfl, fresh, master, message, current, owner, encoded, verified⟩
  | revoke account' key' seq prompt =>
    refine commitAfter_cases (P := fun x => RevokedBy x.2 account key n) (fun _ => h)
      fun s' done => ?_
    by_cases same : (account', key') = (account, key)
    · obtain ⟨rfl, rfl⟩ := Prod.mk.inj same
      exact ⟨_, seq, session_cons.trans (if_pos rfl), rfl,
        (prompt rfl s found revoked mark).trans early⟩
    · exact ⟨s, revoked, session_cons.trans ((if_neg same).trans found), mark, early⟩

theorem RevokedBy.not_live (h : RevokedBy r account key n) (later : n < m) {s : SessionKey C} :
    r.live account key m ≠ .ok s := by
  obtain ⟨s', revoked, found, mark, early⟩ := h
  intro live
  rw [SessionRegistry.live, found] at live
  simp only [orError, Except.ok.injEq, exists_eq_left', mark, ok_iff] at live
  obtain ⟨-, -, -, inTime, -⟩ := live
  omega

/-- A session revoked at `n` is refused at every later number, after any calls none of which
authorizes it anew, when no call revokes it again at a later number. -/
theorem revoked_refused (done : (r.revoke account key n).1 = .ok ())
    (run : ReflTransGen (Idles W account key) (r.revoke account key n).2 r') (later : n < m) :
    (∀ market notional leverage,
      r'.authorizeOrder account key market notional leverage m ≠ .ok ()) ∧
      r'.authorizeWithdrawal account key m ≠ .ok () := by
  have marked : RevokedBy r' account key n := by
    induction run with
    | refl => exact revokedBy_revoke done
    | tail _ step ih => exact ih.idles step
  constructor
  · intro market notional leverage accepted
    simp only [authorizeOrder, ok_iff] at accepted
    obtain ⟨s, live, -⟩ := accepted
    exact marked.not_live later live
  · intro accepted
    simp only [authorizeWithdrawal, ok_iff] at accepted
    obtain ⟨s, live, -⟩ := accepted
    exact marked.not_live later live

/-- The registry with the session of account 1. -/
def sampleSessions : SessionRegistry ideal :=
  (new.authorize WalletRegistry.idealWallets CustodyController.sampleSession
    CustodyController.sampleWallets 2).2

/-- The session is revoked, the authorization replayed and another account's session revoked. -/
def replayedSessions : SessionRegistry ideal :=
  (((sampleSessions.revoke 1 (40 : Nat) 5).2.authorize WalletRegistry.idealWallets
    CustodyController.sampleSession CustodyController.sampleWallets 6).2.revoke 2 (40 : Nat) 9).2

/-- The session stays refused when it is then revoked again, at 4. -/
theorem revoked_refused_sample :
    (replayedSessions.revoke 1 (40 : Nat) 4).2.authorizeWithdrawal 1 (40 : Nat) 10 ≠ .ok () := by
  have done : (sampleSessions.revoke 1 (40 : Nat) 5).1 = .ok () := by decide +kernel
  have kept : (replayedSessions.session 1 (40 : Nat)).bind SessionKey.revokedAt = some 5 := by
    decide +kernel
  refine (revoked_refused (W := WalletRegistry.idealWallets) done
    (.tail (b := replayedSessions)
      (.tail (.single (.authorize _ _ _ ?replay)) (.revoke _ _ _ ?other))
      (.revoke _ _ _ ?again)) (by decide)).2
  case replay =>
    rintro ⟨-, -, fresh, -⟩
    exact fresh (by decide +kernel)
  case other => exact fun same => absurd (congrArg Prod.fst same) (by decide)
  case again =>
    intro _ s found earlier mark
    rw [found, Option.bind_some, mark] at kept
    cases kept
    decide

/-- The session is revoked at 5 and again at 10, and withdraws at 10. -/
theorem revoked_withdraws :
    (sampleSessions.revoke 1 (40 : Nat) 5).1 = .ok () ∧
    ((sampleSessions.revoke 1 (40 : Nat) 5).2.revoke 1 (40 : Nat) 10).2.authorizeWithdrawal 1
      (40 : Nat) 10 = .ok () := by
  decide +kernel

end SessionRegistry

end Dexos.Custody
