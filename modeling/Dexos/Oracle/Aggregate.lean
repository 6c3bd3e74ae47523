import Mathlib.Data.Prod.Lex
import Dexos.Foundations.OrdMap
import Dexos.Foundations.SortedList
import Dexos.Risk.Position

/-!
# Local oracle aggregation

`aggregate_local` reduces the signed price reports of one market to one price. Reports that
are not authorized, authentic and fresh are dropped, one report is kept for each signer,
outliers are dropped by their distance from a weighted median, and the price is the weighted
median of the rest.

## Implementation notes

A signer's key is the number that its 32 bytes spell, most significant byte first, so keys
are ordered as the byte arrays are. Samples are ordered by price and then by weight.
-/

namespace Dexos.Oracle

open Foundations Clob Risk

abbrev Key := Fin (2 ^ 256)

abbrev Signature := BitVec 512

def domainOracle : List UInt8 := asciiBytes "dexos:oracle:v1"

def amountBytes (a : Amount) : List UInt8 := leBytes 16 (toWord 16 a.val)

/-! ## Reports and producers -/

structure PriceObservation where
  marketId : MarketId
  price : Price
  confidence : Amount
  observedAtNs : U64
  sequence : U64
  signer : Key
  signature : Signature

inductive MarketScope where
  | all
  | only (markets : List MarketId)

def MarketScope.contains : MarketScope → MarketId → Bool
  | .all, _ => true
  | .only markets, market => (binarySearch markets market).isOk

/-- An authorized producer. `authorize` refuses a source beyond `MAX_SOURCES` and a negative
ceiling. -/
structure Producer where
  sourceId : Fin 64
  maxConfidence : Amount
  ceiling : 0 ≤ maxConfidence.val
  scope : MarketScope

def Producer.sourceBit (p : Producer) : BitVec 64 := BitVec.twoPow 64 p.sourceId

structure ProducerRegistry where
  version : U64
  bySigner : OrdMap Key Producer

structure AggregationConfig where
  maxAgeNs : U64
  maxFutureSkewNs : U64
  minObservations : U64
  minSources : U32
  /-- The outlier band multiplier. -/
  madK : Ratio

inductive OracleError where
  | noObservations
  | tooManyObservations (submitted maximum : Nat)
  | tooFewObservations (survived need : Nat)
  | tooFewSources (survived need : Nat)
deriving DecidableEq

structure LocalAggregate where
  marketId : MarketId
  price : Price
  confidence : Amount
  lower : Price
  upper : Price
  sourceMask : BitVec 64
  sources : Nat
  observations : Nat
  newestAgeNs : Nat
  dispersionBps : I64
  producerSetVersion : U64
  inputsDigest : Digest
deriving DecidableEq

/-- An authorized, authentic and fresh report: the source bit and the ceiling of the weight
are the registry's. -/
structure Authorized where
  signer : Key
  sourceBit : BitVec 64
  price : Price
  weight : Amount
  sequence : U64
  age : Nat

/-- What `supersedes` compares. -/
def Authorized.rank (r : Authorized) : U64 ×ₗ Price ×ₗ Amount :=
  toLex (r.sequence, toLex (r.price, r.weight))

def Authorized.supersedes (r other : Authorized) : Prop := other.rank < r.rank

instance (r other : Authorized) : Decidable (r.supersedes other) :=
  inferInstanceAs (Decidable (_ < _))

/-! ## Statistics -/

abbrev Sample := Price ×ₗ Amount

def Authorized.sample (r : Authorized) : Sample := toLex (r.price, r.weight)

/-- `lower_median` of an ascending list. -/
def lowerMedian {α : Type} (sorted : List α) : Option α := sorted[(sorted.length - 1) / 2]?

/-- One turn of the sum of weights: a negative weight counts as zero. -/
def addWeight (acc : I128) (s : Sample) : I128 := acc.saturatingAdd (max (ofLex s).2 I128.zero)

/-- The first price at which the running weight reaches half of the total. -/
def halfway (total : I128) : I128 → List Sample → Option Price
  | _, [] => none
  | acc, s :: rest =>
    if total.val - (addWeight acc s).val ≤ (addWeight acc s).val then some (ofLex s).1
    else halfway total (addWeight acc s) rest

def weightedMedian (samples : List Sample) : Option Price :=
  let sorted := samples.insertionSort (· ≤ ·)
  let total := sorted.foldl addWeight I128.zero
  if total.val ≤ 0 then (lowerMedian sorted).map fun s => (ofLex s).1
  else (halfway total I128.zero sorted).or (sorted.getLast?.map fun s => (ofLex s).1)

def medianAbsoluteDeviation (prices : List Price) (center : Price) : Int :=
  (lowerMedian ((prices.map fun p => |p.val - center.val|).insertionSort (· ≤ ·))).getD 0

def saturatingMul (a b : Int) : I128 := Bounded.clamp (by decide) (a * b)

def scaleByRatio (value : Int) (k : Ratio) : Int := (saturatingMul value k.val).val.tdiv scale

/-- `i64::try_from(v).unwrap_or(i64::MAX)`. -/
def toI64 (v : Int) : I64 := (Bounded.narrow v).getD ⟨i64Max, by decide⟩

def dispersionBps (mad : Int) (center : Price) : I64 :=
  if center.val = 0 then ⟨i64Max, by decide⟩
  else toI64 ((saturatingMul mad 10000).val.tdiv |center.val|)

/-! ## Aggregation -/

def maxAggregationObservations : Nat := 1024

/-- What one aggregation reads besides the reports, with the hash function and the signature
check it calls. -/
structure Tick where
  sha256 : Sha256
  verifyEd25519 : Key → Digest → Signature → Bool
  marketId : MarketId
  nowNs : U64
  cfg : AggregationConfig
  producers : ProducerRegistry

namespace Tick

variable (t : Tick)

def signingDigest (o : PriceObservation) : Digest :=
  hashDomain t.sha256 domainOracle (leBytes 4 o.marketId ++ i64Bytes o.price ++
    amountBytes o.confidence ++ leBytes 8 o.observedAtNs ++ leBytes 8 o.sequence)

def verify (o : PriceObservation) : Bool :=
  t.verifyEd25519 o.signer (t.signingDigest o) o.signature

def horizon : Nat := min (t.nowNs + t.cfg.maxFutureSkewNs) (2 ^ 64 - 1)

def age (o : PriceObservation) : Nat := t.nowNs.val - o.observedAtNs.val

/-- The record of a report, unless the loop skips it. -/
def authorized (o : PriceObservation) : Option Authorized :=
  match t.producers.bySigner.get? o.signer with
  | none => none
  | some producer =>
    if o.marketId ≠ t.marketId ∨ producer.scope.contains t.marketId = false ∨
        t.verify o = false ∨ t.horizon < o.observedAtNs ∨ t.cfg.maxAgeNs < t.age o then none
    else some {
      signer := o.signer
      sourceBit := producer.sourceBit
      price := o.price
      weight := max I128.zero (min o.confidence producer.maxConfidence)
      sequence := o.sequence
      age := t.age o }

/-- Keep a record unless the signer's present one is not superseded. -/
def retain (newest : OrdMap Key Authorized) (record : Authorized) : OrdMap Key Authorized :=
  if (newest.get? record.signer).any fun existing => ¬ record.supersedes existing then newest
  else newest.insert record.signer record

def newestBySigner (observations : List PriceObservation) : OrdMap Key Authorized :=
  (observations.filterMap t.authorized).foldl retain ∅

/-- The kept reports in the order of their signers. -/
def records (observations : List PriceObservation) : List Authorized :=
  (t.newestBySigner observations).values

def commitInputs (survivors : List Authorized) : Digest :=
  hashDomain t.sha256 domainOracle (leBytes 4 t.marketId ++ leBytes 8 t.producers.version ++
    leBytes 8 survivors.length ++ survivors.flatMap fun r =>
      (leBytes 32 r.signer).reverse ++ leBytes 8 r.sourceBit.toNat ++ i64Bytes r.price ++
        amountBytes r.weight ++ leBytes 8 r.sequence)

/-- The aggregate of the survivors of outlier rejection. -/
def summary (survivors : List Authorized) (mad band : Int) (price : Price) : LocalAggregate :=
  let sourceMask := survivors.foldl (fun mask r => mask ||| r.sourceBit) 0
  { marketId := t.marketId
    price := price
    confidence := survivors.foldl (fun acc r => acc.saturatingAdd r.weight) I128.zero
    lower := price.saturatingSub (toI64 band)
    upper := price.saturatingAdd (toI64 band)
    sourceMask := sourceMask
    sources := (List.range 64).countP sourceMask.getLsbD
    observations := survivors.length
    newestAgeNs := ((survivors.map (·.age)).min?).getD 0
    dispersionBps := dispersionBps mad price
    producerSetVersion := t.producers.version
    inputsDigest := t.commitInputs survivors }

/-- The gates, recomputed from the survivors, and the final median. -/
def gate (survivors : List Authorized) (mad band : Int) : Except OracleError LocalAggregate :=
  let sources := (List.range 64).countP
    (survivors.foldl (fun mask r => mask ||| r.sourceBit) (0 : BitVec 64)).getLsbD
  if sources < t.cfg.minSources then .error (.tooFewSources sources t.cfg.minSources)
  else if survivors.length < t.cfg.minObservations then
    .error (.tooFewObservations survivors.length t.cfg.minObservations)
  else match weightedMedian (survivors.map (·.sample)) with
    | none => .error .noObservations
    | some price => .ok (t.summary survivors mad band price)

/-- Outlier rejection; without dispersion nothing is rejected. -/
def survivors (records : List Authorized) (center : Price) : List Authorized :=
  let mad := medianAbsoluteDeviation (records.map (·.price)) center
  records.filter fun r =>
    mad = 0 ∨ |r.price.val - center.val| ≤ scaleByRatio mad t.cfg.madK

def aggregateLocal (observations : List PriceObservation) : Except OracleError LocalAggregate :=
  if maxAggregationObservations < observations.length then
    .error (.tooManyObservations observations.length maxAggregationObservations)
  else
    let records := t.records observations
    match weightedMedian (records.map (·.sample)) with
    | none => .error .noObservations
    | some center =>
      let mad := medianAbsoluteDeviation (records.map (·.price)) center
      t.gate (t.survivors records center) mad (scaleByRatio mad t.cfg.madK)

end Tick

end Dexos.Oracle
