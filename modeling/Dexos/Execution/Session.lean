import Mathlib.Data.Prod.Lex
import Dexos.Foundations.OrdMap
import Dexos.Execution.Command

/-!
# Trading sessions

A session key acts for an account on some markets, up to a notional and a deadline, and each
of its nonces can be used once.
-/

namespace Dexos.Execution

open Foundations Clob Risk

/-- One authorized session key; an empty list of markets allows them all. -/
structure Session where
  allowedMarkets : List MarketId
  maxNotional : Amount
  expiresAt : Timestamp
  nonceStart : U64
  nonceEnd : U64
  consumed : List U64
deriving DecidableEq

def Session.authorizesMarket (s : Session) (market : MarketId) : Bool :=
  s.allowedMarkets.isEmpty || s.allowedMarkets.contains market

/-- The sessions by account and key. -/
structure SessionRegistry where
  sessions : OrdMap (AccountId ×ₗ SessionKey) Session
deriving DecidableEq

namespace SessionRegistry

def new : SessionRegistry := ⟨∅⟩

def authorize (r : SessionRegistry) (c : AuthorizeSession) : Attempt SessionRegistry := do
  require (0 ≤ c.maxNotional.val ∧ c.nonceStart ≤ c.nonceEnd) .badNonce
  return ⟨r.sessions.insert (toLex (c.account, c.sessionKey))
    ⟨c.allowedMarkets, c.maxNotional, c.expiresAt, c.nonceStart, c.nonceEnd, []⟩⟩

/-- `SessionRegistry::revoke`: whether a session existed, and the registry without it. -/
def revoke (r : SessionRegistry) (account : AccountId) (key : SessionKey) :
    Bool × SessionRegistry :=
  (r.sessions.contains (toLex (account, key)), ⟨r.sessions.erase (toLex (account, key))⟩)

def consume (r : SessionRegistry) (account : AccountId) (key : SessionKey) (nonce : U64)
    (market : MarketId) (notional : Amount) (now : Timestamp) : Attempt SessionRegistry := do
  let s ← orError (r.sessions.get? (toLex (account, key))) .unknownSession
  require (now ≤ s.expiresAt) .sessionExpired
  require (s.authorizesMarket market = true) .marketNotAuthorized
  require (notional.val ≤ s.maxNotional.val) .notionalExceeded
  require (s.nonceStart ≤ nonce ∧ nonce ≤ s.nonceEnd) .badNonce
  require (nonce ∉ s.consumed) .badNonce
  return ⟨r.sessions.insert (toLex (account, key)) { s with consumed := nonce :: s.consumed }⟩

end SessionRegistry

end Dexos.Execution
