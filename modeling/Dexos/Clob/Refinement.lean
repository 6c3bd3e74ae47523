import Mathlib.Data.ZMod.Defs
import Dexos.Clob.Session

/-!
# The slab book refines the price-time book

The refinement holds for every reachable book exactly when slots can address the
capacity. With a larger capacity the slab grows until its next slot is the sentinel of the
intrusive links, and the order stored there breaks its level.
-/

namespace Dexos.Clob

open Foundations PriceTime Option OrderBook

/-! ## A level with many orders -/

/-- A bid for one unit at price one, with a given id. -/
def unitBid (n : Nat) : NewOrder where
  orderId := Fin.ofNat _ n
  account := 0
  side := .bid
  orderType := .limit
  tif := .gtc
  price := ⟨1, by decide⟩
  quantity := ⟨1, by decide⟩
  clientId := 0
  reduceOnly := false

/-- What rests of such a bid. -/
def unitResting (n : Nat) : Resting := ⟨Fin.ofNat _ n, 0, ⟨1, by decide⟩, 0⟩

/-- The book with the first unit bids. -/
def crowd (config : BookConfig) (n : Nat) : Book where
  config := config
  bids := putQueue ∅ ⟨1, by decide⟩ ((List.range n).map unitResting)
  asks := ∅
  positions := ∅

variable {config : BookConfig} {n : Nat}

theorem crowd_queue (config : BookConfig) (n : Nat) :
    (crowd config n).queue .bid (unitBid n).price = (List.range n).map unitResting := by
  have found : ((crowd config n).side .bid).get? (unitBid n).price =
      if ((List.range n).map unitResting).isEmpty then none
      else some ((List.range n).map unitResting) := by
    rw [show (crowd config n).side .bid = putQueue ∅ (unitBid n).price _ from rfl, get?_putQueue,
      if_pos rfl]
  rw [Book.queue, found]
  cases (List.range n).map unitResting <;> rfl

theorem crowd_count (config : BookConfig) (n : Nat) : (crowd config n).count = n := by
  have bids := length_flatten_putQueue (∅ : Ladder) (unitBid n).price
    ((List.range n).map unitResting)
  change (flatten (putQueue ∅ (unitBid n).price ((List.range n).map unitResting))).length + 0 = n
  simpa [flatten] using bids

theorem crowd_quantity (n : Nat) :
    quantityOf ((List.range n).map unitResting) = n := by
  rw [quantityOf]
  simp [unitResting, Function.comp_def]

theorem crowd_fresh (small : n < 2 ^ 64) : (crowd config n).find (unitBid n).orderId = none := by
  refine Book.find_eq_none.2 fun side p r held same => ?_
  obtain ⟨q, stored, hr⟩ := held
  cases side with
  | ask => cases stored
  | bid =>
    rw [show (crowd config n).side .bid = putQueue ∅ (unitBid n).price _ from rfl,
      get?_putQueue] at stored
    split_ifs at stored with here
    · obtain rfl := some.inj stored
      obtain ⟨k, hk, rfl⟩ := List.mem_map.1 hr
      have below := List.mem_range.1 hk
      have ids := congrArg Fin.val same
      simp only [unitResting, unitBid, Fin.val_ofNat] at ids
      omega
    · cases stored

theorem crowd_sweep (config : BookConfig) (n : Nat) :
    (crowd config n).sweep (unitBid n) false (unitBid n).quantity =
      ⟨crowd config n, (unitBid n).quantity, [], [], false⟩ := by
  apply Book.matched_of_none
  apply Book.matchStep_of_nil
  · intro p q stored
    cases stored
  · rfl

/-- The next unit bid rests behind the others. -/
theorem crowd_rest (room : n < (config.capacity : Nat)) (small : n < 2 ^ 32) :
    (crowd config n).rest (unitBid n) (unitBid n).quantity = .ok (crowd config (n + 1)) := by
  have side : (unitBid n).side = .bid := rfl
  have one : (unitBid n).quantity.val = 1 := rfl
  have fits : ¬i64Max < quantityOf ((List.range n).map unitResting) + 1 := by
    rw [crowd_quantity, i64Max]
    omega
  have ladder : ((crowd config n).side .bid).insert (unitBid n).price
      ((List.range n).map unitResting ++ [unitResting n]) = (crowd config (n + 1)).bids := by
    ext1 p
    rw [show (crowd config (n + 1)).bids = putQueue ∅ (unitBid n).price _ from rfl,
      show (crowd config n).side .bid = putQueue ∅ (unitBid n).price _ from rfl, get?_putQueue,
      OrdMap.get?_insert, get?_putQueue, List.range_succ]
    split_ifs with here none <;> simp_all
  rw [Book.rest, side, crowd_queue, one, if_neg fits, if_neg (by
    rw [crowd_count]
    exact not_le.2 room)]
  exact congrArg (fun bids => Except.ok (Book.mk config bids ∅ ∅)) ladder

theorem crowd_place (room : n < (config.capacity : Nat)) (small : n < 2 ^ 32) :
    (crowd config n).place (unitBid n) =
      (.ok ⟨⟨[], .resting (unitBid n).quantity⟩, []⟩, crowd config (n + 1)) := by
  have kind : decide ((unitBid n).orderType = .market) = false := rfl
  have one : (unitBid n).quantity.val = 1 := rfl
  have price : (unitBid n).price.val = 1 := rfl
  have allowed : (crowd config n).executable (unitBid n) = some (unitBid n).quantity := rfl
  have known : ¬((crowd config n).find (unitBid n).orderId).isSome = true := by
    rw [crowd_fresh (by omega)]
    decide
  rw [Book.place]
  simp only [kind, one, price, known, allowed]
  rw [crowd_sweep, Book.dispose]
  rw [crowd_rest room small]
  rfl

/-! ## The sentinel as a slot -/

variable {sha256 : Sha256}

/-- A run of unit bids, as long as the capacity and the slots allow. -/
theorem reach_crowd (sha256 : Sha256) (room : n ≤ (config.capacity : Nat))
    (small : n ≤ u32Max) :
    ∃ b, Reachable sha256 config b ∧ Sound sha256 b ∧ b.view = crowd config n := by
  induction n with
  | zero =>
    refine ⟨_, Reachable.new, sound_new sha256 config, ?_⟩
    rfl
  | succ n ih =>
    obtain ⟨b, reached, sound, view⟩ := ih (by omega) (by omega)
    obtain ⟨L, stores⟩ := sound.stores
    have placed : (crowd config n).place (unitBid n) = _ :=
      crowd_place (by omega) (by rw [u32Max] at small; omega)
    have proper := (sound.proper.place (unitBid n)).1
    have count : (b.view.place (unitBid n)).2.count ≤ u32Max := by rwa [view, placed, crowd_count]
    have called : Refines sha256 b (b.placeWithReport sha256 (unitBid n))
        (b.view.place (unitBid n)) := by
      rw [stores.view_eq] at proper count ⊢
      exact (stores.executeWithReport_eq (unitBid n) count).refines proper
    obtain ⟨b', runs, view', sound', -⟩ := called.exists_some
    refine ⟨b', Reachable.step (.placeWithReport (unitBid n)) reached ?_, sound', ?_⟩
    · rw [call, runs]
      rfl
    · rw [view', view, placed]

/-- A slab whose slots are all live, with as many slots as there are addresses, hands out the
sentinel. -/
theorem Slab.Sound.insert_nil {slab : Slab Node} (h : slab.Sound) (full : slab.len = nil)
    (room : nil < slab.capacity) (value : Node) :
    ∃ slab', slab.insert value = some (.ok (nil, slab')) ∧ slab'.get nil = some value := by
  obtain ⟨slots, chain, -, covers⟩ := h.chain
  have total := Slab.countP_free_add_occupied slab.entries
  have counted := h.len_eq
  have bounded := h.addressable
  have length : slab.entries.length = nil := by omega
  have none_free : slots = [] := by
    apply List.eq_nil_of_length_eq_zero
    omega
  subst none_free
  have head : slab.freeHead = nil := chain
  refine ⟨{ slab with entries := slab.entries ++ [.occupied value], len := slab.len + 1 }, ?_, ?_⟩
  · rw [Slab.insert, if_neg (not_not.2 head), if_neg (by omega), if_pos (by rw [length]; decide),
      length]
  · rw [Slab.get_eq_some, ← length, List.getElem?_append_right le_rfl, Nat.sub_self]
    rfl

/-- The bid that gets the sentinel as its slot panics: its level counts no further. -/
theorem restOrder_nil {b : OrderBook} {L : Layout} (h : Represents sha256 b L)
    (view : bookOf b L = crowd config nil) (room : nil < (config.capacity : Nat)) :
    b.restOrder sha256 (unitBid nil) (unitBid nil).quantity = none := by
  have capacity : b.config = config := congrArg Book.config view
  have live : L.live.length = nil := by rw [← bookOf_count b, view, crowd_count]
  have queued : (L.queue .bid (unitBid nil).price).length = nil := by
    have queues := congrArg (fun book => Book.queue book .bid (unitBid nil).price) view
    simp only [bookOf_queue] at queues
    rw [crowd_queue] at queues
    have lengths := congrArg List.length queues
    simpa using lengths
  have units : quantity (L.queue .bid (unitBid nil).price) = nil := by
    have queues := congrArg (fun book => Book.queue book .bid (unitBid nil).price) view
    simp only [bookOf_queue] at queues
    rw [← quantityOf_map, queues, crowd_queue, crowd_quantity]
  obtain ⟨slab, inserted, stored⟩ := h.sound.insert_nil (by rw [h.len, live])
    (by rw [h.capacity, capacity]; exact room) (Node.new (unitBid nil) (unitBid nil).quantity)
  have side : (unitBid nil).side = .bid := rfl
  have one : (unitBid nil).quantity.val = 1 := rfl
  have total := h.levelTotal_val .bid (unitBid nil).price
  rw [units] at total
  have sum : ((b.sideBook .bid).levelTotal (unitBid nil).price).checkedAdd (unitBid nil).quantity =
      some ⟨nil + 1, by decide⟩ := by
    rw [Bounded.checkedAdd_eq_some, total, one]
  have level : (b.sideBook .bid).levels.get? (unitBid nil).price =
      some (levelOf (L.queue .bid (unitBid nil).price)) := by
    have stored := (h.queue_linked .bid (unitBid nil).price).2.2
    rw [stored, if_neg]
    intro empty
    rw [List.isEmpty_iff.1 empty] at queued
    cases queued
  have count : (levelOf (L.queue .bid (unitBid nil).price)).count = u32Max := queued
  rw [restOrder, side, sum]
  simp only [inserted]
  have price : (Node.new (unitBid nil) (unitBid nil).quantity).price = (unitBid nil).price := rfl
  rw [SideBook.pushBack, stored]
  simp only [price, level, getD_some]
  split_ifs <;> simp_all

theorem placeWithReport_nil {b : OrderBook} (sound : Sound sha256 b)
    (view : b.view = crowd config nil) (room : nil < (config.capacity : Nat)) :
    b.placeWithReport sha256 (unitBid nil) = none := by
  obtain ⟨L, stores⟩ := sound.stores
  rw [stores.view_eq] at view
  have kind : decide ((unitBid nil).orderType = .market) = false := rfl
  have known : ¬b.idIndex.contains (unitBid nil).orderId = true := by
    rw [← stores.find_isSome, view, crowd_fresh (by decide)]
    decide
  have allowed : b.clampReduce (unitBid nil) = some (unitBid nil).quantity := rfl
  obtain ⟨r, L', runs, stores', -, same⟩ :=
    stores.runMatch_eq (unitBid nil) false (unitBid nil).quantity
  rw [view, crowd_sweep, progressOf, Book.Progress.mk.injEq] at same
  obtain ⟨view', remaining, -, -, stopped⟩ := same
  rw [placeWithReport, executeWithReport]
  simp only [kind, known, allowed]
  rw [if_neg (by decide), if_neg (by decide), if_neg (by decide), if_neg (by decide),
    if_neg (by decide), runs, bind_some, dispose, ← remaining, ← stopped]
  rw [if_neg (by decide), if_pos (by decide), restOrder_nil stores' view'.symm room]

/-! ## The refinement -/

/-- Every call on every reachable book has the result of price-time priority, and leaves the
book that price-time priority leaves. -/
structure RefinesPriceTime (sha256 : Sha256) (config : BookConfig) : Prop where
  place : ∀ b o, Reachable sha256 config b →
    (b.placeWithReport sha256 o).map (fun r => (r.1, r.2.view)) = some (b.view.place o) ∧
      (b.place sha256 o).map (fun r => (r.1, r.2.view)) =
        some ((b.view.place o).1.map MatchReport.result, (b.view.place o).2)
  cancel : ∀ b id, Reachable sha256 config b →
    (b.cancel sha256 id).map (fun r => (r.1, r.2.view)) = some (b.view.cancel id)
  cancelAll : ∀ b account, Reachable sha256 config b →
    (b.cancelAll sha256 account).map (fun r => (r.1, r.2.view)) = some (b.view.cancelAll account)
  replace : ∀ b id price quantity, Reachable sha256 config b →
    (b.replaceWithReport sha256 id price quantity).map (fun r => (r.1, r.2.view)) =
        some (b.view.replace id price quantity) ∧
      (b.replace sha256 id price quantity).map (fun r => (r.1, r.2.view)) =
        some ((b.view.replace id price quantity).1.map MatchReport.result,
          (b.view.replace id price quantity).2)

theorem refinesPriceTime_of_addressable (sha256 : Sha256)
    (addressable : (config.capacity : Nat) ≤ u32Max) : RefinesPriceTime sha256 config := by
  have forget : ∀ {b : OrderBook} {concrete : Option (Except OrderError MatchReport × OrderBook)}
      {abstract : Except OrderError MatchReport × Book},
      Refines sha256 b concrete abstract →
      concrete.map (fun r => (r.1, r.2.view)) = some abstract ∧
        (concrete.map fun r => (r.1.map MatchReport.result, r.2)).map
            (fun r => (r.1, r.2.view)) =
          some (abstract.1.map MatchReport.result, abstract.2) := by
    intro b concrete abstract refines
    refine ⟨refines.result, ?_⟩
    obtain ⟨b', rfl, view, -, -⟩ := refines.exists_some
    rw [map_some, map_some, view]
  constructor
  · intro b o reached
    obtain ⟨sound, same⟩ := reached.sound addressable
    exact forget (sound.placeWithReport (same ▸ addressable) o)
  · intro b id reached
    exact ((reached.sound addressable).1.cancel id).result
  · intro b account reached
    exact ((reached.sound addressable).1.cancelAll account).result
  · intro b id price quantity reached
    obtain ⟨sound, same⟩ := reached.sound addressable
    exact forget (sound.replaceWithReport (same ▸ addressable) id price quantity)

theorem addressable_of_refinesPriceTime (refines : RefinesPriceTime sha256 config) :
    (config.capacity : Nat) ≤ u32Max := by
  by_contra large
  have room : nil < (config.capacity : Nat) := not_le.1 large
  obtain ⟨b, reached, sound, view⟩ :
      ∃ b, Reachable sha256 config b ∧ Sound sha256 b ∧ b.view = crowd config nil :=
    reach_crowd sha256 room.le le_rfl
  have placed := (refines.place b (unitBid nil) reached).1
  simp [placeWithReport_nil sound view room] at placed

/-- The answer of a call that refines an abstract one. -/
theorem answer_eq {ρ : Type} {concrete : Option (ρ × OrderBook)} {abstract : ρ × Book}
    (result : concrete.map (fun r => (r.1, r.2.view)) = some abstract) :
    concrete.map Prod.fst = some abstract.1 := by
  obtain ⟨r, rfl, rfl⟩ := map_eq_some_iff.1 result
  rfl

/-- The slab book refines the price-time book, for all reachable books and all calls, exactly
when slots can address the capacity; results are then independent of the slots. -/
theorem refinesPriceTime_iff (sha256 : Sha256) (config : BookConfig) :
    (RefinesPriceTime sha256 config ∧
      ∀ b b', Reachable sha256 config b → Reachable sha256 config b' → b.view = b'.view →
        (∀ o, (b.placeWithReport sha256 o).map Prod.fst =
          (b'.placeWithReport sha256 o).map Prod.fst) ∧
        (∀ id, (b.cancel sha256 id).map Prod.fst = (b'.cancel sha256 id).map Prod.fst) ∧
        (∀ account, (b.cancelAll sha256 account).map Prod.fst =
          (b'.cancelAll sha256 account).map Prod.fst) ∧
        ∀ id price quantity, (b.replaceWithReport sha256 id price quantity).map Prod.fst =
          (b'.replaceWithReport sha256 id price quantity).map Prod.fst) ↔
      (config.capacity : Nat) ≤ u32Max := by
  constructor
  · intro both
    exact addressable_of_refinesPriceTime both.1
  · intro addressable
    have refines := refinesPriceTime_of_addressable sha256 addressable
    -- Books that stand for the same orders answer as the abstract book does, so alike.
    refine ⟨refines, fun b b' reached reached' same =>
      ⟨fun o => ?_, fun id => ?_, fun account => ?_, fun id price quantity => ?_⟩⟩
    · rw [answer_eq (refines.place b o reached).1, answer_eq (refines.place b' o reached').1, same]
    · rw [answer_eq (refines.cancel b id reached), answer_eq (refines.cancel b' id reached'), same]
    · rw [answer_eq (refines.cancelAll b account reached),
        answer_eq (refines.cancelAll b' account reached'), same]
    · rw [answer_eq (refines.replace b id price quantity reached).1,
        answer_eq (refines.replace b' id price quantity reached').1, same]

/-- With room for `2 ^ 32` orders, the bid that would be the last of them panics. -/
theorem place_panics_at_sentinel :
    ∃ b, Reachable (fun _ => 0) ⟨2 ^ 32, .cancelMaker, 0, 0⟩ b ∧
      b.placeWithReport (fun _ => 0) (unitBid nil) = none ∧
      (b.view.place (unitBid nil)).1 = .ok ⟨⟨[], .resting (unitBid nil).quantity⟩, []⟩ := by
  have room : nil <
      (((⟨2 ^ 32, .cancelMaker, 0, 0⟩ : BookConfig).capacity : U64) : Nat) := by decide
  obtain ⟨b, reached, sound, view⟩ := reach_crowd (fun _ => 0) room.le le_rfl
  refine ⟨b, reached, placeWithReport_nil sound view room, ?_⟩
  rw [view, crowd_place room (by decide)]

end Dexos.Clob
