import Dexos.Risk.Position

/-!
# Commands, receipts and errors

The vocabulary of the execution engine: the commands it accepts, the receipts it returns and
the errors of its handlers.

## Implementation notes

A wallet or transaction address is its list of bytes and a session key is a 256-bit number.
-/

namespace Dexos.Execution

open Foundations Clob Risk

abbrev U16 := Fin (2 ^ 16)

instance neZero16 : NeZero (2 ^ 16) := inferInstance

abbrev SessionKey := Fin (2 ^ 256)

abbrev Timestamp := U64

inductive MarketType where
  | perpetual
  | binaryPrediction
  | multiOutcomePrediction
  | decision
  | sports
  | scalar
  | customPayoutVector
deriving DecidableEq

inductive MarketLifecycle where
  | draft
  | staked
  | bootstrapping
  | opened
  | halted
  | closed
  | pendingResolution
  | disputed
  | resolved
  | invalid
  | settled
  | archived
deriving DecidableEq

inductive OracleHealth where
  | normal
  | degraded
  | stale
  | halted
deriving DecidableEq

inductive Authorization where
  | master
  | session (key : SessionKey) (nonce : U64) (now : Timestamp)
deriving DecidableEq

/-! ## Commands -/

structure CreateAccount where
  initialCollateral : Amount
deriving DecidableEq

structure BindWallet where
  account : AccountId
  chainId : U32
  address : List UInt8
deriving DecidableEq

structure AuthorizeSession where
  account : AccountId
  sessionKey : SessionKey
  allowedMarkets : List MarketId
  maxNotional : Amount
  expiresAt : Timestamp
  nonceStart : U64
  nonceEnd : U64
deriving DecidableEq

structure RevokeSession where
  account : AccountId
  sessionKey : SessionKey
deriving DecidableEq

structure DepositCredit where
  sourceChain : U32
  sourceTx : List UInt8
  sourceEventIndex : U32
  account : AccountId
  amount : Amount
deriving DecidableEq

structure RequestWithdrawal where
  account : AccountId
  amount : Amount
  nonce : U64
  destinationChain : U32
  destinationAddress : List UInt8
  auth : Authorization
deriving DecidableEq

structure FinalizeWithdrawal where
  withdrawalId : U64
deriving DecidableEq

structure CreateMarket where
  market : MarketId
  marketType : MarketType
  outcomes : U16
  markPrice : Price
deriving DecidableEq

structure SetMarkPrice where
  market : MarketId
  price : Price
deriving DecidableEq

structure PlaceOrder where
  account : AccountId
  market : MarketId
  orderId : OrderId
  side : Side
  orderType : Clob.OrderType
  tif : TimeInForce
  price : Price
  quantity : Quantity
  clientId : U64
  reduceOnly : Bool
  instrument : U16
  auth : Authorization
deriving DecidableEq

structure CancelOrder where
  market : MarketId
  account : AccountId
  orderId : OrderId
  auth : Authorization
deriving DecidableEq

structure CancelAll where
  market : MarketId
  account : AccountId
  auth : Authorization
deriving DecidableEq

structure ReplaceOrder where
  market : MarketId
  account : AccountId
  orderId : OrderId
  price : Price
  quantity : Quantity
  auth : Authorization
deriving DecidableEq

structure CompleteSetOp where
  account : AccountId
  market : MarketId
  count : Amount
deriving DecidableEq

structure ProtocolUpgrade where
  targetVersion : U16
deriving DecidableEq

structure Liquidate where
  account : AccountId
deriving DecidableEq

structure SetMarketLifecycle where
  market : MarketId
  lifecycle : MarketLifecycle
deriving DecidableEq

structure SetOracleHealth where
  market : MarketId
  health : OracleHealth
deriving DecidableEq

structure ApplyFundingEpoch where
  market : MarketId
  epoch : U64
  rate : Ratio
deriving DecidableEq

structure ResolveMarket where
  market : MarketId
  winningOutcome : U16
deriving DecidableEq

structure SettleMarket where
  market : MarketId
deriving DecidableEq

inductive Command where
  | createAccount (c : CreateAccount)
  | bindWallet (c : BindWallet)
  | authorizeSession (c : AuthorizeSession)
  | revokeSession (c : RevokeSession)
  | depositCredit (c : DepositCredit)
  | requestWithdrawal (c : RequestWithdrawal)
  | finalizeWithdrawal (c : FinalizeWithdrawal)
  | createMarket (c : CreateMarket)
  | setMarkPrice (c : SetMarkPrice)
  | placeOrder (c : PlaceOrder)
  | cancelOrder (c : CancelOrder)
  | cancelAll (c : CancelAll)
  | replaceOrder (c : ReplaceOrder)
  | mintCompleteSet (c : CompleteSetOp)
  | redeemCompleteSet (c : CompleteSetOp)
  | protocolUpgrade (c : ProtocolUpgrade)
  | liquidate (c : Liquidate)
  | setMarketLifecycle (c : SetMarketLifecycle)
  | setOracleHealth (c : SetOracleHealth)
  | applyFundingEpoch (c : ApplyFundingEpoch)
  | resolveMarket (c : ResolveMarket)
  | settleMarket (c : SettleMarket)
deriving DecidableEq

/-! ## Receipts -/

inductive ReceiptKind where
  | accountCreated (account : AccountId)
  | credited (account : AccountId) (amount : Amount)
  | withdrawalRequested (id : U64)
  | withdrawalFinalized (id : U64)
  | sessionUpdated
  | marketUpdated (market : MarketId)
  | orderApplied (filled : Quantity) (rested : Bool)
  | cancelled (count : Nat)
  | completeSet (count : Amount)
  | walletBound
  | protocolUpgraded (version : U16)
  | liquidated (account : AccountId) (insuranceDrawn socializedLoss : Amount)
  | fundingApplied (market : MarketId) (epoch : U64)
  | marketResolved (market : MarketId) (winningOutcome : U16)
  | marketSettled (market : MarketId) (paid : Amount)
deriving DecidableEq

structure ExecutionReceipt where
  sequence : U64
  kind : ReceiptKind
  stateRoot : Digest
deriving DecidableEq

/-! ## Errors -/

/-- The errors that the modelled operations of the engine return. -/
inductive ExecutionError where
  | unknownAccount
  | accountExists
  | insufficientAvailable (required available : Amount)
  | insufficientReserved
  | negativeAmount
  | duplicateDeposit
  | unknownWithdrawal
  | withdrawalAlreadyFinalized
  | unknownSession
  | sessionExpired
  | badNonce
  | marketNotAuthorized
  | notionalExceeded
  | sessionCannotWithdraw
  | orderNotOwned
  | accountNotLiquidatable
  | nonMonotonicSequence (last got : U64)
  | idempotencyConflict
  | replayExpired
  | withdrawalIdCollision
  | unknownMarket
  | stateInvariant (message : String)
  | marketExists
  | incompleteSet
  | order (error : OrderError)
  | risk (error : RiskError)
  | idOutOfRange
  | arith (error : ArithError)
  | protocolDowngrade (current requested : U16)
  | marketNotOpen
  | oracleRiskFrozen
  | fundingEpochConflict
  | negativeFundingResidual
  | incompatibleMarketType
  | invalidInstrument
  | insufficientClaims
  | escrowInconsistency
  | marketOrderCollarRequired
  | marketOrderDepthExceeded
  | lifecycleRejected
  | marketNotResolved
  | notImplemented (message : String)
deriving DecidableEq

abbrev Attempt (α : Type) := Except ExecutionError α

def liftArith {α : Type} (x : Except ArithError α) : Attempt α := x.mapError .arith

def liftRisk {α : Type} (x : Except RiskError α) : Attempt α := x.mapError .risk

def liftOrder {α : Type} (x : Except OrderError α) : Attempt α := x.mapError .order

@[simp] theorem liftArith_eq_ok {α : Type} {x : Except ArithError α} {a : α} :
    liftArith x = .ok a ↔ x = .ok a :=
  mapError_eq_ok

@[simp] theorem liftRisk_eq_ok {α : Type} {x : Except RiskError α} {a : α} :
    liftRisk x = .ok a ↔ x = .ok a :=
  mapError_eq_ok

@[simp] theorem liftOrder_eq_ok {α : Type} {x : Except OrderError α} {a : α} :
    liftOrder x = .ok a ↔ x = .ok a :=
  mapError_eq_ok

end Dexos.Execution
