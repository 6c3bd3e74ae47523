import Dexos.Risk.Liquidation
import Dexos.Clob.LogicalBook
import Dexos.Execution.Ledger
import Dexos.Execution.Replay
import Dexos.Execution.Session
import Dexos.StateTree

/-!
# The engine's state

Every subsystem of the execution engine, the sidecars that tie them together, and the leaves
that commit them.

## Implementation notes

Hash maps and B-tree maps are both sorted maps, and the claims of an account are keyed by
account and market at once. The encoder scratch buffer, the matching backend and the
copy-on-write sharing hold no logical state and are left out. A digest is the number whose low byte
comes first.
-/

namespace Dexos.Execution

open Foundations Clob Risk

/-! ## Keys -/

@[ext]
structure BookKey where
  market : MarketId
  instrument : U16

@[ext]
structure OrderKey where
  market : MarketId
  instrument : U16
  orderId : OrderId

@[ext]
structure AccountMarket where
  account : AccountId
  market : MarketId

@[ext]
structure AskKey where
  account : AccountId
  market : MarketId
  instrument : U16

instance : LinearOrder BookKey :=
  LinearOrder.lift' (fun k => toLex (k.market, k.instrument)) fun a b same => by
    cases a
    cases b
    cases same
    rfl

instance : LinearOrder OrderKey :=
  LinearOrder.lift' (fun k => toLex (k.market, toLex (k.instrument, k.orderId))) fun a b same => by
    cases a
    cases b
    cases same
    rfl

instance : LinearOrder AccountMarket :=
  LinearOrder.lift' (fun k => toLex (k.account, k.market)) fun a b same => by
    cases a
    cases b
    cases same
    rfl

instance : LinearOrder AskKey :=
  LinearOrder.lift' (fun k => toLex (k.account, toLex (k.market, k.instrument))) fun a b same => by
    cases a
    cases b
    cases same
    rfl

def OrderKey.book (k : OrderKey) : BookKey := ⟨k.market, k.instrument⟩

/-! ## Records -/

/-- The economics of one market. -/
structure MarketMeta where
  marketType : MarketType
  outcomes : U16
  markPrice : Price
  lifecycle : MarketLifecycle
  oracleHealth : OracleHealth
  makerFeeBps : Bounded (-2 ^ 31) (2 ^ 31 - 1)
  takerFeeBps : Bounded (-2 ^ 31) (2 ^ 31 - 1)
  lastFundingEpoch : U64
  winningOutcome : Option U16
deriving DecidableEq

/-- The notional reserved for one resting order, and the quantity it was computed from. -/
structure OrderReserve where
  account : AccountId
  reserved : Amount
  qtyRemaining : Quantity
deriving DecidableEq

/-- The escrow of one resting claim-market order: premium of a bid, claims of an ask. -/
structure ClaimOrderEscrow where
  account : AccountId
  side : Side
  premium : Amount
  claims : Amount
deriving DecidableEq

structure Withdrawal where
  account : AccountId
  amount : Amount
  finalized : Bool
deriving DecidableEq

structure WalletBinding where
  chainId : U32
  address : List UInt8
deriving DecidableEq

structure DepositKey where
  sourceChain : U32
  sourceTx : List UInt8
  sourceEventIndex : U32
deriving DecidableEq

/-- A set of accounts, as a sorted map to units. -/
abbrev AccountSet := OrdMap AccountId Unit

def isClaimMarket (t : MarketType) : Bool := decide (t ≠ .perpetual)

def instrumentCount (t : MarketType) (outcomes : U16) : U16 :=
  if isClaimMarket t then max outcomes 2 else 1

/-- The instruments of a market. -/
def MarketMeta.count (m : MarketMeta) : U16 := instrumentCount m.marketType m.outcomes

def instruments (n : U16) : List U16 := (List.range n.val).map (Fin.ofNat _)

theorem mem_instruments {n i : U16} : i ∈ instruments n ↔ i < n := by
  rw [instruments, List.mem_map]
  constructor
  · rintro ⟨j, hj, rfl⟩
    rw [List.mem_range] at hj
    have small : j % 2 ^ 16 ≤ j := Nat.mod_le _ _
    exact Fin.lt_def.2 (lt_of_le_of_lt small hj)
  · intro below
    exact ⟨i.val, List.mem_range.2 below, Fin.ext (Nat.mod_eq_of_lt i.isLt)⟩

section Columns

variable {K : Type} [LinearOrder K]

def columnAdd (column : OrdMap K Amount) (k : K) (amount : Amount) : Attempt (OrdMap K Amount) := do
  require (0 ≤ amount.val) .negativeAmount
  if amount.val = 0 then return column
  else do
    let sum ← liftArith (Scalar.checkedAdd ((column.get? k).getD I128.zero) amount)
    return column.insert k sum

/-- `column_sub`: an entry that reaches zero is removed. -/
def columnSub (column : OrdMap K Amount) (k : K) (amount : Amount) : Attempt (OrdMap K Amount) := do
  require (0 ≤ amount.val) .negativeAmount
  if amount.val = 0 then return column
  else do
    let current ← orError (column.get? k) .escrowInconsistency
    require (amount.val ≤ current.val) .escrowInconsistency
    let next ← liftArith (Scalar.checkedSub current amount)
    return if next.val = 0 then column.erase k else column.insert k next

end Columns

/-! ## The engine -/

/-- The construction parameters; both Merkle trees fit the address space. -/
structure EngineConfig where
  accountCapacity : Nat
  marketCapacity : Nat
  replayWindow : Nat
  risk : RiskConfig
  accountsFit : accountCapacity ≤ 2 ^ 63
  marketsFit : marketCapacity ≤ 2 ^ 63

def hashNode (sha256 : Sha256) (left right : Digest) : Digest :=
  hashDomain sha256 (asciiBytes "dexos:node:v1") (leBytes 32 left.toNat ++ leBytes 32 right.toNat)

def hashLeafOf (sha256 : Sha256) (kind : Half) (data : List UInt8) : Digest :=
  hashDomain sha256 (asciiBytes kind.domain) data

def hashAccountLeaf (sha256 : Sha256) : List UInt8 → Digest := hashLeafOf sha256 .accounts

def hashMarketLeaf (sha256 : Sha256) : List UInt8 → Digest := hashLeafOf sha256 .markets

/-- The hashes of the state tree. -/
def stateHashes (sha256 : Sha256) : StateHashes Digest where
  node := hashNode sha256
  zero := 0
  leaf := hashLeafOf sha256

structure Engine (sha256 : Sha256) where
  ledger : Ledger
  sessions : SessionRegistry
  risk : RiskEngine
  tree : StateTree (stateHashes sha256)
  books : OrdMap BookKey LogicalBook
  markets : OrdMap MarketId MarketMeta
  orderReserves : OrdMap OrderKey OrderReserve
  claims : OrdMap AccountMarket (List Amount)
  bidPremiumEscrow : OrdMap AccountMarket Amount
  askClaimsEscrow : OrdMap AskKey Amount
  claimEscrows : OrdMap OrderKey ClaimOrderEscrow
  mintLocked : OrdMap AccountMarket Amount
  depositsSeen : List DepositKey
  withdrawals : OrdMap U64 Withdrawal
  protocolVersion : U16
  wallets : OrdMap AccountId WalletBinding
  replay : ReplayGuard
  lastSeq : Option U64

namespace Engine

variable {sha256 : Sha256}

def new (sha256 : Sha256) (config : EngineConfig) : Engine sha256 where
  ledger := .new
  sessions := .new
  risk := .new config.risk
  tree := .new _ config.accountCapacity config.marketCapacity config.accountsFit config.marketsFit
  books := ∅
  markets := ∅
  orderReserves := ∅
  claims := ∅
  bidPremiumEscrow := ∅
  askClaimsEscrow := ∅
  claimEscrows := ∅
  mintLocked := ∅
  depositsSeen := []
  withdrawals := ∅
  protocolVersion := 1
  wallets := ∅
  replay := .withWindow config.replayWindow
  lastSeq := none

variable (e : Engine sha256)

def claimBalance (account : AccountId) (market : MarketId) (instrument : U16) : Amount :=
  ((e.claims.get? ⟨account, market⟩).bind fun v => v[instrument.val]?).getD I128.zero

/-- The resting order of a book key. -/
def resting (k : OrderKey) : Option Order :=
  (e.books.get? k.book).bind fun b => b.lookup k.orderId

def position (account : AccountId) (market : MarketId) : Quantity :=
  match e.risk.position account market with
  | .ok q => q
  | .error _ => I64.zero

def gateNewRisk (market : MarketId) : Attempt Unit := do
  let info ← orError (e.markets.get? market) .unknownMarket
  require (info.lifecycle = .opened) .marketNotOpen
  require (info.oracleHealth = .normal ∨ info.oracleHealth = .degraded)
    .oracleRiskFrozen

def validateInstrument (market : MarketId) (instrument : U16) : Attempt MarketMeta := do
  let info ← orError (e.markets.get? market) .unknownMarket
  require (instrument < info.count) .invalidInstrument
  return info

def authorize (account : AccountId) (market : MarketId) (notional : Amount)
    (auth : Authorization) : Attempt (Engine sha256) :=
  match auth with
  | .master => .ok e
  | .session key nonce now => do
      let sessions ← e.sessions.consume account key nonce market notional now
      return { e with sessions := sessions }

/-! ## Leaves -/

/-- A count in a `u32` field. -/
def countField (n : Nat) : List UInt8 := leBytes 4 (min n u32Max)

/-- The non-flat positions by ascending market; no account holds two in one market. -/
def openPositions (a : Account) : List PerpPosition :=
  (a.perp.filter fun p => !p.isFlat).insertionSort fun p p' => p.market ≤ p'.market

/-- The fields of the settlement ledger and of the risk authority. -/
def balanceFields (q : Purse) (a : Account) : List UInt8 :=
  i128Bytes q.available ++ i128Bytes q.reserved ++ i128Bytes q.locked ++ leBytes 8 q.authEpoch ++
    i128Bytes a.collateral ++ i128Bytes a.cached.equity ++ i128Bytes a.cached.exposure ++
    i128Bytes a.cached.im ++ i128Bytes a.cached.mm

def positionFields (positions : List PerpPosition) : List UInt8 :=
  countField positions.length ++ positions.flatMap fun p => leBytes 4 p.market ++ i64Bytes p.netQty

/-- The claim sets of an account, fully redeemed ones left out. -/
def claimSets (e : Engine sha256) (account : AccountId) : List (MarketId × List Amount) :=
  (e.claims.entries.filter fun x => x.1.account = account && x.2.any fun v => v.val ≠ 0).map
    fun x => (x.1.market, x.2)

def claimFields (sets : List (MarketId × List Amount)) : List UInt8 :=
  countField sets.length ++ sets.flatMap fun s =>
    leBytes 4 s.1 ++ countField s.2.length ++ s.2.flatMap i128Bytes

/-- The reserved premium of an account, by market. -/
def premiumColumn (e : Engine sha256) (account : AccountId) : List (MarketId × Amount) :=
  (e.bidPremiumEscrow.entries.filter fun x => x.1.account = account && x.2.val ≠ 0).map
    fun x => (x.1.market, x.2)

/-- The reserved claims of an account, by market and instrument. -/
def askColumn (e : Engine sha256) (account : AccountId) : List (MarketId × U16 × Amount) :=
  (e.askClaimsEscrow.entries.filter fun x => x.1.account = account && x.2.val ≠ 0).map
    fun x => (x.1.market, x.1.instrument, x.2)

def escrowFields (premium : List (MarketId × Amount)) (asks : List (MarketId × U16 × Amount)) :
    List UInt8 :=
  countField premium.length ++ premium.flatMap (fun x => leBytes 4 x.1 ++ i128Bytes x.2) ++
    countField asks.length ++
    asks.flatMap fun x => leBytes 4 x.1 ++ leBytes 4 x.2.1 ++ i128Bytes x.2.2

/-- `Engine::write_watermark`. -/
def watermarkField : Option U64 → List UInt8
  | some v => leBytes 4 1 ++ leBytes 8 v
  | none => leBytes 4 0 ++ leBytes 8 0

def accountLeaf (e : Engine sha256) (account : AccountId) : Attempt (List UInt8) := do
  let q ← e.ledger.idx account
  let a ← liftRisk (e.risk.read account)
  return leafVersion ++ balanceFields q a ++ positionFields (openPositions a) ++
    claimFields (e.claimSets account) ++
    escrowFields (e.premiumColumn account) (e.askColumn account) ++
    watermarkField (e.replay.mark account .order) ++
    watermarkField (e.replay.mark account .withdrawal)

/-- The tag of a market type in its leaf. -/
def marketTypeTag : MarketType → Nat
  | .perpetual => 0
  | .binaryPrediction => 1
  | .multiOutcomePrediction => 2
  | .decision => 3
  | .sports => 4
  | .scalar => 5
  | .customPayoutVector => 6

/-- The root of an instrument's book, zero when there is none. -/
def bookRoot (e : Engine sha256) (market : MarketId) (instrument : U16) : Digest :=
  ((e.books.get? ⟨market, instrument⟩).map fun b => b.stateRoot sha256).getD 0

/-- The last field of a market leaf. -/
def winnerField : Option U16 → List UInt8
  | some win => leBytes 4 1 ++ leBytes 4 win
  | none => leBytes 4 0 ++ leBytes 4 0

def marketLeaf (market : MarketId) : Attempt (List UInt8) := do
  let info ← orError (e.markets.get? market) .unknownMarket
  return leafVersion ++ leBytes 4 (marketTypeTag info.marketType) ++ leBytes 4 info.outcomes ++
    i64Bytes info.markPrice ++ leBytes 4 info.count ++
    ((instruments info.count).flatMap fun i : U16 =>
      leBytes 4 i ++ leBytes 8 32 ++ leBytes 32 (e.bookRoot market i).toNat) ++
    winnerField info.winningOutcome

def liftState {α : Type} (x : Except StateError α) : Attempt α := x.mapError fun _ => .idOutOfRange

def commitAccount (account : AccountId) : Attempt (Engine sha256) := do
  let leaf ← e.accountLeaf account
  let tree ← liftState (e.tree.setAccount account.val leaf)
  return { e with tree := tree }

def commitMarket (market : MarketId) : Attempt (Engine sha256) := do
  let leaf ← e.marketLeaf market
  let tree ← liftState (e.tree.setMarket market.val leaf)
  return { e with tree := tree }

def commitAccounts (accounts : List AccountId) : Attempt (Engine sha256) :=
  accounts.foldlM commitAccount e

def receipt (sequence : U64) (kind : ReceiptKind) : ExecutionReceipt :=
  ⟨sequence, kind, e.tree.root⟩

end Engine

end Dexos.Execution
