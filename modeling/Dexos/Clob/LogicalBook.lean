import Dexos.Clob.Plan

/-!
# The order book as its callers see it

The linked order book refines a price-time book whatever its slots are. Its callers hold the
price-time book: a proper one under the default configuration. Each operation they use is one
of the linked book's, result and all, on every book that stands for it.
-/

namespace Dexos.Clob

open Foundations Option Function
open PriceTime.Book (Lookup Placed)

/-- `BookConfig::default`; the matching backend is not modelled. -/
def BookConfig.default : BookConfig where
  capacity := 65536
  stp := .cancelMaker
  dedupCapacity := 4096
  maxBasketLegs := 64

theorem PriceTime.Book.Proper.withPositions {b : PriceTime.Book} (h : b.Proper)
    (positions : OrdMap AccountId Quantity) :
    { b with positions := positions : PriceTime.Book }.Proper := by
  refine ⟨fun side => ?_, h.distinct, fun side p r held => ?_, fun side p q found => ?_, h.apart,
    h.room⟩
  · have stocked := h.stocked side
    cases side <;> exact stocked
  · apply h.positive side p r
    cases side <;> exact held
  · apply h.fits side p q
    cases side <;> exact found

namespace PriceTime.Book

theorem ext_sides {b b' : Book} (config : b.config = b'.config)
    (positions : b.positions = b'.positions) (sides : ∀ side, b.side side = b'.side side) :
    b = b' := by
  have bids := sides .bid
  have asks := sides .ask
  obtain ⟨c, bids, asks, held⟩ := b
  simp_all only [side]

theorem without_append {b : Book} {side : Side} {p : Price} {r : Resting}
    (stocked : ∀ side, Stocked (b.side side)) (fresh : b.lookup r.orderId = none) :
    (b.put side p (b.queue side p ++ [r])).without (fun x => x.orderId = r.orderId) = b := by
  have kept : ∀ side p q, (b.side side).get? p = some q →
      q.filter (fun x => !decide (x.orderId = r.orderId)) = q := by
    intro side p q stored
    apply List.filter_eq_self.2
    intro x hx
    simpa using lookup_eq_none.1 fresh side p x ⟨q, stored, hx⟩
  refine ext_sides (config_put b _ _ _) (positions_put b _ _ _) fun side' => ?_
  ext1 p'
  rw [side_without, get?_keep, get?_side_put]
  by_cases here : side' = side ∧ p' = p
  · obtain ⟨rfl, rfl⟩ := here
    have queued : b.queue side' p' = ((b.side side').get? p').getD [] := rfl
    rw [queued]
    cases stored : (b.side side').get? p' with
    | none => simp
    | some q =>
      have nonempty := stocked side' p' q stored
      simp [kept side' p' q stored, nonempty]
  · rw [if_neg here]
    cases stored : (b.side side').get? p' with
    | none => rfl
    | some q =>
      have nonempty := stocked side' p' q stored
      simp [kept side' p' q stored, nonempty]

/-- The preflight decides what placing a plain order does. -/
theorem place_of_canRest {b : Book} {o : NewOrder} (proper : b.Proper)
    (fits : b.canRest o = .ok true) (limit : o.orderType = .limit) (gtc : o.tif = .gtc)
    (plain : o.reduceOnly = false) :
    b.place o = (.ok ⟨⟨[], .resting o.quantity⟩, []⟩, b.put o.side o.price
      (b.queue o.side o.price ++ [⟨o.orderId, o.account, o.quantity, o.clientId⟩])) := by
  simp only [canRest, ok_iff, Bool.not_eq_true', exists_const]
    at fits
  obtain ⟨positive, priced, fresh, room, level, quiet⟩ := fits
  have absent : b.find o.orderId = none := map_eq_none_iff.1 fresh
  have whole : b.executable o = some o.quantity := by simp [executable, plain, limit]
  have still : b.sweep o false o.quantity = ⟨b, o.quantity, [], [], false⟩ := by
    apply matched_of_none
    rw [matchStep, if_neg (by simpa using positive)]
    rw [wouldCross] at quiet
    cases top : best o.side.opposite (b.side o.side.opposite) with
    | none => rfl
    | some price =>
      rw [top, any_some] at quiet
      simp only [quiet, Bool.false_eq_true, if_false]
  have rests : b.rest o o.quantity = .ok (b.put o.side o.price
      (b.queue o.side o.price ++ [⟨o.orderId, o.account, o.quantity, o.clientId⟩])) := by
    have space : ¬ (b.config.capacity : Nat) ≤ b.count :=
      not_le.2 (lt_of_le_of_ne proper.room room)
    rw [rest, if_neg (not_lt.2 level), if_neg space, put, putQueue, if_neg (by simp)]
  have none_filled : (o.quantity.saturatingSub o.quantity).val = 0 := by
    rw [Bounded.saturatingSub_val] <;> omega
  simp [place, whole, still, absent, limit, gtc, dispose, rests, none_filled,
    not_le.2 positive, not_le.2 priced, positive.ne']

end PriceTime.Book

theorem PriceTime.Book.cancel_config (b : PriceTime.Book) (id : OrderId) :
    (b.cancel id).2.config = b.config := by
  rw [PriceTime.Book.cancel]
  cases b.find id <;> rfl

/-- A proper price-time book under the default configuration. -/
@[ext]
structure LogicalBook where
  book : PriceTime.Book
  proper : book.Proper
  config : book.config = BookConfig.default

namespace LogicalBook

def new : LogicalBook where
  book := ⟨BookConfig.default, ∅, ∅, ∅⟩
  proper := PriceTime.Book.Proper.empty _ _
  config := rfl

variable (b : LogicalBook)

def setPosition (account : AccountId) (position : Quantity) : LogicalBook where
  book := { b.book with positions := b.book.positions.insert account position }
  proper := b.proper.withPositions _
  config := b.config

def placeWithReport (o : NewOrder) : Except OrderError MatchReport × LogicalBook :=
  ((b.book.place o).1,
    ⟨(b.book.place o).2, (b.proper.place o).1, (b.proper.place o).2.trans b.config⟩)

def cancel (id : OrderId) : Except OrderError Unit × LogicalBook :=
  ((b.book.cancel id).1,
    ⟨(b.book.cancel id).2, b.proper.cancel id,
      (PriceTime.Book.cancel_config b.book id).trans b.config⟩)

def cancelAll (account : AccountId) : Nat × LogicalBook :=
  ((b.book.cancelAll account).1,
    ⟨(b.book.cancelAll account).2, b.proper.cancelAll account, b.config⟩)

def replaceWithReport (id : OrderId) (price : Price) (quantity : Quantity) :
    Except OrderError MatchReport × LogicalBook :=
  ((b.book.replace id price quantity).1,
    ⟨(b.book.replace id price quantity).2, (b.proper.replace id price quantity).1,
      (b.proper.replace id price quantity).2.trans b.config⟩)

def lookup : Lookup := b.book.lookup

def contains (id : OrderId) : Bool := (b.lookup id).isSome

def owner (id : OrderId) : Option AccountId := (b.lookup id).map Order.account

def restingOrders : List Order := b.book.restingOrders

def restingLen : Nat := b.book.count

def canRestWithoutMatch (o : NewOrder) : Except OrderError Bool := b.book.canRest o

def planMatchSummary (o : NewOrder) : Except OrderError MatchSummary := b.book.plan o

variable {b}

def stateRoot (sha256 : Sha256) (b : LogicalBook) : Digest :=
  hashDomain sha256 domainExecution (2 :: leBytes 32 (b.book.leafXor sha256).toNat)

end LogicalBook

/-! ## The resting orders -/

namespace LogicalBook

variable {b b' : LogicalBook} {id : OrderId} {e : OrderError} {report : MatchReport} {o : NewOrder}
  {account : AccountId}

theorem contains_eq_true : b.contains id = true ↔ ∃ o, b.lookup id = some o :=
  isSome_iff_exists

theorem contains_eq_false : b.contains id = false ↔ b.lookup id = none := by
  rw [contains, isSome_eq_false_iff, isNone_iff_eq_none]

theorem owner_eq_some :
    b.owner id = some account ↔ ∃ o, b.lookup id = some o ∧ o.account = account :=
  map_eq_some_iff

theorem placeWithReport_ok (ok : b.placeWithReport o = (.ok report, b')) :
    Placed o b.book report b'.book := by
  rw [Prod.mk.injEq] at ok
  rw [← ok.2]
  exact PriceTime.Book.place_ok b.proper (Prod.ext ok.1 rfl)

theorem cancel_ok (ok : b.cancel id = (.ok (), b')) :
    b'.lookup = update b.lookup id none ∧ ∃ o, b.lookup id = some o := by
  rw [cancel, Prod.mk.injEq] at ok
  obtain ⟨after, found⟩ := PriceTime.Book.cancel_ok (b := b.book) (Prod.ext ok.1 rfl)
  refine ⟨?_, isSome_iff_exists.1 found⟩
  calc b'.lookup = (b.book.cancel id).2.lookup := by rw [← ok.2, lookup]
    _ = (b.book.without fun r => r.orderId = id).lookup := congrArg PriceTime.Book.lookup after
    _ = update b.lookup id none :=
      PriceTime.Book.lookup_without_id b.proper.distinct id

theorem lookup_cancelAll (b : LogicalBook) (account : AccountId) (id : OrderId) :
    (b.cancelAll account).2.lookup id = (b.lookup id).filter fun o => o.account ≠ account := by
  calc (b.cancelAll account).2.lookup id
      = (b.lookup id).filter fun o => !decide (o.account = account) :=
        PriceTime.Book.lookup_without b.proper.distinct _ id
    _ = (b.lookup id).filter fun o => o.account ≠ account := by simp only [ne_eq, decide_not]

theorem cancelAll_of_zero (none : (b.cancelAll account).1 = 0) :
    (b.cancelAll account).2 = b := by
  have removed :
      min (b.book.count - (b.book.without fun r => r.account = account).count) u32Max = 0 :=
    none
  have fewer : b.book.count ≤ (b.book.without fun r => r.account = account).count := by
    rw [u32Max] at removed
    omega
  rw [PriceTime.Book.count_eq, PriceTime.Book.count_eq, PriceTime.Book.resting_without] at fewer
  have all := List.length_filter_eq_length_iff.1 (le_antisymm (List.length_filter_le _ _) fewer)
  refine LogicalBook.ext (PriceTime.Book.without_of_none b.proper.stocked fun side p r held => ?_)
  simpa using all r (PriceTime.Book.mem_resting.2 ⟨side, p, held⟩)

/-- A replacement is a placement on the book without the replaced order. -/
theorem replaceWithReport_ok {price : Price} {quantity : Quantity}
    (ok : b.replaceWithReport id price quantity = (.ok report, b')) :
    ∃ m left, b.lookup id = some m ∧ left.lookup = update b.lookup id none ∧
      Placed (OrderBook.replacement id m price quantity) left report b'.book := by
  rw [Prod.mk.injEq] at ok
  obtain ⟨m, found, placed⟩ := PriceTime.Book.replace_ok b.proper (Prod.ext ok.1 rfl)
  rw [← ok.2]
  exact ⟨m, _, found, PriceTime.Book.lookup_without_id b.proper.distinct id, placed⟩

/-- What the preflight of a plain order checks. -/
theorem canRest_admits (fits : b.canRestWithoutMatch o = .ok true) :
    0 < o.quantity.val ∧ 0 < o.price.val ∧ b.lookup o.orderId = none := by
  simp only [canRestWithoutMatch, PriceTime.Book.canRest, ok_iff] at fits
  obtain ⟨-, positive, -, priced, -, fresh, -⟩ := fits
  exact ⟨positive, priced, fresh⟩

/-- A plain order that the preflight lets rest does rest, and cancelling it undoes it. -/
theorem canRest_place (fits : b.canRestWithoutMatch o = .ok true)
    (limit : o.orderType = .limit) (gtc : o.tif = .gtc) (plain : o.reduceOnly = false) :
    ∃ b', b.placeWithReport o = (.ok ⟨⟨[], .resting o.quantity⟩, []⟩, b') ∧
      b'.cancel o.orderId = (.ok (), b) := by
  have rests := PriceTime.Book.place_of_canRest b.proper fits limit gtc plain
  have fresh := (canRest_admits fits).2.2
  have undone : (b.book.place o).2.without (fun r => r.orderId = o.orderId) = b.book := by
    rw [rests]
    exact PriceTime.Book.without_append b.proper.stocked fresh
  have report : (b.book.place o).1 = .ok ⟨⟨[], .resting o.quantity⟩, []⟩ := by rw [rests]
  have found : ((b.book.place o).2.lookup o.orderId).isSome := by
    have added := @PriceTime.Book.lookup_append b.book o.side o.price
      ⟨o.orderId, o.account, o.quantity, o.clientId⟩ b.proper.distinct fresh
    rw [rests, added, update_self]
    rfl
  refine ⟨(b.placeWithReport o).2, Prod.ext report rfl, ?_⟩
  rw [PriceTime.Book.lookup, isSome_map] at found
  obtain ⟨x, found⟩ := isSome_iff_exists.1 found
  have cancelled : (b.book.place o).2.cancel o.orderId = (.ok (), b.book) := by
    rw [PriceTime.Book.cancel, found, undone]
  rw [Prod.ext_iff] at cancelled
  exact Prod.ext cancelled.1 (LogicalBook.ext cancelled.2)

end LogicalBook

/-! ## Linked books stand for logical ones -/

/-- The linked book stores the orders of the logical one. -/
structure Stands (sha256 : Sha256) (ob : OrderBook) (b : LogicalBook) : Prop where
  sound : Sound sha256 ob
  view : ob.view = b.book

namespace Stands

variable {sha256 : Sha256} {ob : OrderBook} {b : LogicalBook}

/-- An operation of the linked book does what the logical book says. -/
def Follows (sha256 : Sha256) {ρ : Type} (concrete : Option (ρ × OrderBook))
    (logical : ρ × LogicalBook) : Prop :=
  ∃ ob', concrete = some (logical.1, ob') ∧ Stands sha256 ob' logical.2

theorem follows_of_refines {ρ : Type} {concrete : Option (ρ × OrderBook)}
    {abstract : ρ × PriceTime.Book} (refines : Refines sha256 ob concrete abstract)
    {after : LogicalBook} (book : after.book = abstract.2) :
    Follows sha256 concrete (abstract.1, after) := by
  obtain ⟨ob', done, view, sound, -⟩ := refines.exists_some
  exact ⟨ob', done, sound, view.trans book.symm⟩

section Operations

variable (h : Stands sha256 ob b)

include h

theorem addressable : (ob.config.capacity : Nat) ≤ u32Max := by
  have same : ob.config = BookConfig.default := by
    rw [← b.config, ← h.view]
    rfl
  rw [same]
  decide

theorem placeWithReport (o : NewOrder) :
    Follows sha256 (ob.placeWithReport sha256 o) (b.placeWithReport o) :=
  follows_of_refines (h.view ▸ h.sound.placeWithReport h.addressable o) rfl

theorem cancel (id : OrderId) : Follows sha256 (ob.cancel sha256 id) (b.cancel id) :=
  follows_of_refines (h.view ▸ h.sound.cancel id) rfl

theorem cancelAll (account : AccountId) :
    Follows sha256 (ob.cancelAll sha256 account) (b.cancelAll account) :=
  follows_of_refines (h.view ▸ h.sound.cancelAll account) rfl

theorem replaceWithReport (id : OrderId) (price : Price) (quantity : Quantity) :
    Follows sha256 (ob.replaceWithReport sha256 id price quantity)
      (b.replaceWithReport id price quantity) :=
  follows_of_refines (h.view ▸ h.sound.replaceWithReport h.addressable id price quantity) rfl

/-- Every accessor reads the logical book. -/
theorem readouts :
    ob.contains = b.contains ∧ ob.owner = b.owner ∧ ob.restingOrders = b.restingOrders ∧
      ob.restingLen = b.restingLen ∧ ob.canRestWithoutMatch = b.canRestWithoutMatch ∧
      (∀ o, ob.planMatchSummary o = some (b.planMatchSummary o)) ∧
      ob.stateRoot sha256 = b.stateRoot sha256 := by
  refine ⟨?_, ?_, ?_, ?_, ?_, ?_, ?_⟩
  · funext id
    rw [h.sound.contains, h.view]
    rfl
  · funext id
    rw [h.sound.owner, h.view]
    rfl
  · rw [h.sound.restingOrders_eq, h.view]
    rfl
  · rw [h.sound.restingLen, h.view]
    rfl
  · funext o
    rw [h.sound.canRest, h.view]
    rfl
  · intro o
    rw [h.sound.planMatchSummary, h.view]
    rfl
  · rw [h.sound.stateRoot, h.view]
    rfl

end Operations

end Stands

end Dexos.Clob
