import Mathlib.Order.Fin.Basic
import Dexos.Foundations.BoundedInt

/-!
# Orders, fills and results

The vocabulary of the order book: fixed-point scalars, submissions, match results
and the errors of the book and of its stores.

## Implementation notes

`usize` is a 64-bit word. The scalars keep their raw integers, with the range of
`i64` or `i128` in the type; a price and a quantity are both raw `i64` values.
-/

namespace Dexos.Clob

open Foundations

/-! ## Machine words -/

abbrev I64 := Bounded (-2 ^ 63) (2 ^ 63 - 1)

abbrev I128 := Bounded (-2 ^ 127) (2 ^ 127 - 1)

abbrev U32 := Fin (2 ^ 32)

/-- `u64`, and `usize` on the 64-bit targets. -/
abbrev U64 := Fin (2 ^ 64)

instance neZero32 : NeZero (2 ^ 32) := inferInstance

instance neZero64 : NeZero (2 ^ 64) := inferInstance

instance lawfulBEqU64 : LawfulBEq U64 := inferInstance

def i64Max : Int := 2 ^ 63 - 1

def I64.zero : I64 := ⟨0, by decide⟩

def I128.zero : I128 := ⟨0, by decide⟩

abbrev AccountId := U32

abbrev OrderId := U64

abbrev Price := I64

abbrev Quantity := I64

abbrev Amount := I128

/-! ## Hashing -/

abbrev Digest := BitVec 256

/-- A hash of byte strings. -/
abbrev Sha256 := List UInt8 → Digest

def domainExecution : List UInt8 := asciiBytes "dexos:execution:v1"

def hashDomain (sha256 : Sha256) (domain data : List UInt8) : Digest :=
  sha256 (leBytes 8 domain.length ++ domain ++ (leBytes 8 data.length ++ data))

/-- The eight little-endian bytes of an `i64`. -/
def i64Bytes (v : I64) : List UInt8 := leBytes 8 (toWord 8 v.val)

/-! ## Submissions -/

inductive Side where
  | bid
  | ask
deriving DecidableEq, Repr

def Side.opposite : Side → Side
  | .bid => .ask
  | .ask => .bid

inductive OrderType where
  | limit
  | market
  | postOnly
  | reduceOnly
deriving DecidableEq, Repr

inductive TimeInForce where
  | gtc
  | ioc
  | fok
deriving DecidableEq, Repr

/-- A request to place a new order. -/
structure NewOrder where
  orderId : OrderId
  account : AccountId
  side : Side
  orderType : OrderType
  tif : TimeInForce
  price : Price
  quantity : Quantity
  clientId : U64
  reduceOnly : Bool
deriving DecidableEq

/-! ## Results -/

/-- A single maker and taker match. -/
structure Fill where
  makerOrder : OrderId
  takerOrder : OrderId
  makerAccount : AccountId
  takerAccount : AccountId
  price : Price
  quantity : Quantity
  takerSide : Side
deriving DecidableEq

/-- The disposition of a submitted order after matching. -/
inductive OrderOutcome where
  | resting (remaining : Quantity)
  | fullyFilled
  | partiallyFilledResting (remaining : Quantity)
  | partiallyFilledCancelled (filled : Quantity)
  | rejected
deriving DecidableEq

structure MatchResult where
  fills : List Fill
  outcome : OrderOutcome
deriving DecidableEq

def MatchResult.rejected : MatchResult := ⟨[], .rejected⟩

/-- A resting order of the taker's own account, removed while matching. -/
structure StpCancellation where
  orderId : OrderId
  account : AccountId
  side : Side
  price : Price
  remaining : Quantity
deriving DecidableEq

structure MatchReport where
  result : MatchResult
  stpCancelled : List StpCancellation
deriving DecidableEq

/-- A rejection that changed nothing. -/
def MatchReport.rejected : MatchReport := ⟨MatchResult.rejected, []⟩

structure MatchSummary where
  filledQuantity : Quantity
  worstPrice : Option Price
  notional : Amount
  notionalCeil : Amount
deriving DecidableEq

/-! ## Configuration -/

/-- The self-trade prevention policy. -/
inductive StpPolicy where
  | cancelMaker
  | cancelTaker
  | cancelBoth
deriving DecidableEq, Repr

structure BookConfig where
  capacity : U64
  stp : StpPolicy
  dedupCapacity : U64
  maxBasketLegs : U64
deriving DecidableEq

/-! ## Stored orders -/

/-- The stored fields of a resting order. -/
structure Order where
  orderId : OrderId
  account : AccountId
  side : Side
  price : Price
  remaining : Quantity
  clientId : U64
deriving DecidableEq

/-- The order with another remaining quantity. -/
def Order.withRemaining (o : Order) (remaining : Quantity) : Order :=
  { o with remaining := remaining }

/-- A resting order with its links inside a price level. -/
structure Node extends Order where
  prev : Nat
  next : Nat
deriving DecidableEq

/-! ## Errors -/

inductive SlabError where
  | capacityExhausted
  | invalidSlot
  | notOccupied
deriving DecidableEq

/-- The errors of the book's operations; `NotOwner` is raised only by its callers. -/
inductive OrderError where
  | nonPositiveQuantity
  | nonPositivePrice
  | capacityExhausted
  | unknownOrder
  | overflow
  | basketTooLarge
  | basketDuplicateId
  | duplicateOrderId
deriving DecidableEq

end Dexos.Clob
