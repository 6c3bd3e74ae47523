import Mathlib.Data.Prod.Lex
import Dexos.Foundations.OrdMap
import Dexos.Execution.Command

/-!
# The replay guard

A bounded FIFO of recent receipts, keyed by account, key domain and key, and a high-water
mark for every account and domain. A key at or below the mark whose receipt has left the
queue can neither be replayed nor executed again.
-/

namespace Dexos.Execution

open Foundations Clob Risk

/-- The two key spaces of an account. -/
inductive KeyDomain where
  | order
  | withdrawal
deriving DecidableEq

def KeyDomain.tag : KeyDomain → Fin 256
  | .order => 0
  | .withdrawal => 1

/-- An account and a key domain. -/
abbrev Principal := U32 ×ₗ Fin 256

/-- An account, a key domain and a key. -/
abbrev Slot := Principal ×ₗ U64

structure KeyBinding where
  principal : AccountId
  domain : KeyDomain
  key : U64
  digest : Digest
deriving DecidableEq

def KeyBinding.owner (b : KeyBinding) : Principal := toLex (b.principal, b.domain.tag)

def KeyBinding.slot (b : KeyBinding) : Slot := toLex (b.owner, b.key)

inductive GuardDecision where
  | fresh
  | replay (receipt : ExecutionReceipt)
  | conflict
  | expired
deriving DecidableEq

structure ReplayGuard where
  window : Nat
  watermark : OrdMap Principal U64
  records : OrdMap Slot (Digest × ExecutionReceipt)
  order : List Slot
deriving DecidableEq

namespace ReplayGuard

def withWindow (window : Nat) : ReplayGuard := ⟨window, ∅, ∅, []⟩

def classify (g : ReplayGuard) (b : KeyBinding) : GuardDecision :=
  match g.records.get? b.slot with
  | some (digest, receipt) => if digest = b.digest then .replay receipt else .conflict
  | none =>
    if (g.watermark.get? b.owner).any fun hwm => decide (b.key ≤ hwm) then .expired else .fresh

def reserve (g : ReplayGuard) (b : KeyBinding) : ReplayGuard :=
  let raised :=
      ((g.watermark.get? b.owner).map fun hwm => if hwm < b.key then b.key else hwm).getD b.key
  { g with watermark := g.watermark.insert b.owner raised }

def restoreReservation (g : ReplayGuard) (b : KeyBinding) (previous : Option U64) : ReplayGuard :=
  { g with watermark :=
      match previous with
      | some value => g.watermark.insert b.owner value
      | none => g.watermark.erase b.owner }

/-- The eviction loop of `ReplayGuard::finalize`. -/
def evict (window : Nat) (records : OrdMap Slot (Digest × ExecutionReceipt)) :
    List Slot → OrdMap Slot (Digest × ExecutionReceipt) × List Slot
  | [] => (records, [])
  | oldest :: rest =>
    if window ≤ (oldest :: rest).length then evict window (records.erase oldest) rest
    else (records, oldest :: rest)

def finalize (g : ReplayGuard) (b : KeyBinding) (receipt : ExecutionReceipt) : ReplayGuard :=
  if g.window = 0 then g
  else
    let kept := evict g.window g.records g.order
    { g with
      records := kept.1.insert b.slot (b.digest, receipt)
      order := kept.2 ++ [b.slot] }

/-- `ReplayGuard::watermark`. -/
def mark (g : ReplayGuard) (principal : AccountId) (domain : KeyDomain) : Option U64 :=
  g.watermark.get? (toLex (principal, domain.tag))

end ReplayGuard

/-! ## Bindings -/

def domainCommand : List UInt8 := asciiBytes "dexos:command:v1"

def leafVersion : List UInt8 := leBytes 2 1

/-- The sixteen little-endian bytes of an `i128`. -/
def i128Bytes (v : I128) : List UInt8 := leBytes 16 (toWord 16 v.val)

/-- `side_tag` of a command digest. -/
def sideCode : Side → Nat
  | .bid => 0
  | .ask => 1

/-- `order_type_tag`. -/
def orderTypeCode : Clob.OrderType → Nat
  | .limit => 0
  | .market => 1
  | .postOnly => 2
  | .reduceOnly => 3

/-- `tif_tag`. -/
def tifCode : TimeInForce → Nat
  | .gtc => 0
  | .ioc => 1
  | .fok => 2

/-- The digested fields of an order; the authorization is not among them. -/
def placeOrderBytes (c : PlaceOrder) : List UInt8 :=
  leafVersion ++ leBytes 4 KeyDomain.order.tag ++ leBytes 4 c.account ++ leBytes 4 c.market ++
    leBytes 8 c.orderId ++ leBytes 4 (sideCode c.side) ++ leBytes 4 (orderTypeCode c.orderType) ++
    leBytes 4 (tifCode c.tif) ++ i64Bytes c.price ++ i64Bytes c.quantity ++
    leBytes 8 c.clientId ++ leBytes 4 c.reduceOnly.toNat ++ leBytes 4 c.instrument

/-- The digested fields of a withdrawal; the authorization is not among them. -/
def withdrawalBytes (c : RequestWithdrawal) : List UInt8 :=
  leafVersion ++ leBytes 4 KeyDomain.withdrawal.tag ++ leBytes 4 c.account ++
    i128Bytes c.amount ++ leBytes 8 c.nonce ++ leBytes 4 c.destinationChain ++
    leBytes 8 c.destinationAddress.length ++ c.destinationAddress

section

variable (sha256 : Sha256)

def commandBinding : Command → Option KeyBinding
  | .placeOrder c =>
    some ⟨c.account, .order, c.clientId, hashDomain sha256 domainCommand (placeOrderBytes c)⟩
  | .requestWithdrawal c =>
    some ⟨c.account, .withdrawal, c.nonce, hashDomain sha256 domainCommand (withdrawalBytes c)⟩
  | _ => none

/-- `derive_withdrawal_id`: the first eight bytes of a digest of the request. -/
def deriveWithdrawalId (account : AccountId) (nonce : U64) : U64 :=
  Fin.ofNat _
    (hashDomain sha256 domainCommand (leafVersion ++ leBytes 4 account ++ leBytes 8 nonce)).toNat

end

end Dexos.Execution
