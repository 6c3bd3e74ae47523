import Dexos.Foundations.Links
import Dexos.Foundations.Loop
import Dexos.Foundations.OrdMap
import Dexos.Clob.Slab

/-!
# Price levels and side books

Each price maps to a level: the ends of an intrusive queue through the slab, with its
length and its aggregate quantity. An `expect` that fires is the result `none`.
-/

namespace Dexos.Clob

open Foundations

/-- `crosses`: a market order with a positive price honours it as a collar. -/
def crosses (takerSide : Side) (isMarket : Bool) (takerPrice opp : Price) : Bool :=
  if isMarket && decide (takerPrice.val ≤ 0) then true
  else
    match takerSide with
    | .bid => decide (opp.val ≤ takerPrice.val)
    | .ask => decide (takerPrice.val ≤ opp.val)

structure Level where
  head : Nat
  tail : Nat
  totalQty : Quantity
  count : Nat
deriving DecidableEq

def Level.empty : Level := ⟨nil, nil, I64.zero, 0⟩

structure SideBook where
  side : Side
  levels : OrdMap Price Level
deriving DecidableEq

/-- The first entry of a side in matching order: the last price for bids, the first for asks. -/
def bestFirst {V : Type} (side : Side) (levels : OrdMap Price V) : List (Price × V) :=
  match side with
  | .bid => levels.entries.reverse
  | .ask => levels.entries

namespace SideBook

def new (side : Side) : SideBook := ⟨side, ∅⟩

variable (book : SideBook)

def bestPrice : Option Price := (bestFirst book.side book.levels).head?.map Prod.fst

def pushBack (slab : Slab Node) (slot : Nat) : Option (SideBook × Slab Node) :=
  match slab.get slot with
  | none => some (book, slab)
  | some node =>
    let level := (book.levels.get? node.price).getD Level.empty
    let oldTail := level.tail
    let (level, slab) :=
      if oldTail = nil then
        ({ level with head := slot, tail := slot },
          slab.modify slot fun n => { n with prev := nil, next := nil })
      else
        ({ level with tail := slot },
          (slab.modify oldTail fun t => { t with next := slot }).modify slot
            fun n => { n with prev := oldTail, next := nil })
    if level.count < u32Max then
      match level.totalQty.checkedAdd node.remaining with
      | none => none
      | some total =>
        let level := { level with count := level.count + 1, totalQty := total }
        some ({ book with levels := book.levels.insert node.price level }, slab)
    else none

def unlink (slab : Slab Node) (slot : Nat) : Option (SideBook × Slab Node) :=
  match slab.get slot with
  | none => some (book, slab)
  | some node =>
    match book.levels.get? node.price with
    | none => some (book, slab)
    | some level =>
      let (level, slab) :=
        if node.prev ≠ nil then
          (level, slab.modify node.prev fun p => { p with next := node.next })
        else ({ level with head := node.next }, slab)
      let (level, slab) :=
        if node.next ≠ nil then
          (level, slab.modify node.next fun n => { n with prev := node.prev })
        else ({ level with tail := node.prev }, slab)
      let slab := slab.modify slot fun n => { n with prev := nil, next := nil }
      if level.count = 0 then none
      else
        match level.totalQty.checkedSub node.remaining with
        | none => none
        | some total =>
          let level := { level with count := level.count - 1, totalQty := total }
          if level.count = 0 then
            some ({ book with levels := book.levels.erase node.price }, slab)
          else some ({ book with levels := book.levels.insert node.price level }, slab)

def reduceLevelQty (price : Price) (delta : Quantity) : Option SideBook :=
  match book.levels.get? price with
  | none => some book
  | some level =>
    match level.totalQty.checkedSub delta with
    | none => none
    | some total =>
      some { book with levels := book.levels.insert price { level with totalQty := total } }

def levelTotal (price : Price) : Quantity :=
  match book.levels.get? price with
  | none => I64.zero
  | some level => level.totalQty

def headAt (price : Price) : Option Nat :=
  ((book.levels.get? price).map Level.head).filter fun h => h ≠ nil

end SideBook

/-! ## Walking a level -/

/-- `while cur != NIL`: follow the links of a level. The body may leave early; `ended` is the
result at the sentinel, `broken` the result at a slot that holds no node. -/
def follow {σ ρ : Type} (slab : Slab Node) (body : σ → Nat → Node → Turn σ ρ)
    (ended broken : σ → ρ) (turns head : Nat) (start : σ) : Option ρ :=
  loop (fun (s : Nat × σ) =>
    if s.1 = nil then some (.done (ended s.2))
    else
      match slab.get s.1 with
      | none => some (.done (broken s.2))
      | some node =>
        match body s.2 s.1 node with
        | .again acc => some (.again (node.next, acc))
        | .done r => some (.done r)) turns (head, start)

/-- More turns than any queue through the slab can take. -/
def Slab.turns {α : Type} (slab : Slab α) : Nat := slab.entries.length + 2

/-- `accumulate_level`: the liquidity of a level, and whether the scan goes on. -/
def accumulateLevel (slab : Slab Node) (head : Nat) (takerAccount : AccountId) (stp : StpPolicy)
    (total need : I64) : Option (Bool × I64) :=
  follow slab
    (fun total _ node =>
      if node.account = takerAccount then
        match stp with
        | .cancelMaker => .again total
        | .cancelTaker | .cancelBoth => .done (false, total)
      else
        let total := total.saturatingAdd node.remaining
        if need.val ≤ total.val then .done (false, total) else .again total)
    (fun total => (true, total)) (fun total => (false, total)) slab.turns head total

/-- The level loop of `SideBook::crossable_qty`. -/
def crossLevels (slab : Slab Node) (takerSide : Side) (takerAccount : AccountId)
    (takerPrice : Price) (isMarket : Bool) (stp : StpPolicy) (need : I64) :
    List (Price × Level) → I64 → Option I64
  | [], total => some total
  | (price, level) :: rest, total =>
    if crosses takerSide isMarket takerPrice price then
      match accumulateLevel slab level.head takerAccount stp total need with
      | none => none
      | some (true, total) =>
        crossLevels slab takerSide takerAccount takerPrice isMarket stp need rest total
      | some (false, total) => some total
    else some total

def SideBook.crossableQty (book : SideBook) (slab : Slab Node) (takerSide : Side)
    (takerAccount : AccountId) (takerPrice : Price) (isMarket : Bool) (stp : StpPolicy)
    (need : I64) : Option I64 :=
  crossLevels slab takerSide takerAccount takerPrice isMarket stp need
    (bestFirst book.side book.levels) I64.zero

end Dexos.Clob
