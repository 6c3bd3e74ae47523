import Dexos.Clob.Matching
import Dexos.Clob.Reports

/-!
# The operations of the book

Each operation of the slab book is the operation of the price-time book that it stands
for: it does not fail, returns the same result and leaves a book that stands for the same
resting orders.
-/

namespace Dexos.Clob

open Foundations Option List PriceTime OrdMap OrderBook
open PriceTime.Book (Progress)

variable {q : List Slotted} {x : Slotted} {side : Side}

/-! ## The abstract book of a layout -/

theorem flatten_ladderOf (m : Queues) :
    flatten (ladderOf m) = (flatten m).map fun x => x.2.resting :=
  flatten_mapValues m _

theorem bookOf_resting (b : OrderBook) (L : Layout) :
    (bookOf b L).resting = L.live.map fun x => x.2.resting := by
  rw [Layout.live, map_append, ← flatten_ladderOf, ← flatten_ladderOf]
  rfl

theorem bookOf_count (b : OrderBook) (L : Layout) : (bookOf b L).count = L.live.length := by
  rw [Book.count_eq, bookOf_resting, length_map]

theorem bookOf_holds {b : OrderBook} {L : Layout} {p : Price} {r : Resting} :
    (bookOf b L).Holds side p r ↔
      ∃ q, (L.side side).get? p = some q ∧ ∃ x ∈ q, x.2.resting = r := by
  rw [Book.Holds, bookOf_side, ladderOf, get?_mapValues]
  cases (L.side side).get? p <;> simp

theorem quantityOf_map (q : List Slotted) :
    quantityOf (q.map fun x => x.2.resting) = quantity q := by
  rw [quantityOf, List.map_map]
  rfl

theorem Layout.mem_live {L : Layout} {p : Price}
    (stored : (L.side side).get? p = some q) (hx : x ∈ q) : x ∈ L.live := by
  cases side
  · exact mem_append_left _ (mem_flatten.2 ⟨p, q, stored, hx⟩)
  · exact mem_append_right _ (mem_flatten.2 ⟨p, q, stored, hx⟩)

theorem ite_lt_eq_min (a b : I64) : (if b.val < a.val then b else a) = min a b := by
  split_ifs with less
  · exact (min_eq_right (show b ≤ a from le_of_lt less)).symm
  · exact (min_eq_left (show a ≤ b from not_lt.1 less)).symm

namespace Represents

variable {sha256 : Sha256} {b : OrderBook} {L : Layout} {side : Side} {p : Price}
  {o : NewOrder}

variable (h : Represents sha256 b L)
include h

theorem distinctIds : (bookOf b L).DistinctIds := by
  rw [Book.DistinctIds, bookOf_resting, List.map_map]
  exact h.mirror.ids

theorem stocked (side : Side) : Stocked ((bookOf b L).side side) := by
  intro p q found
  rw [bookOf_side, ladderOf, get?_mapValues, map_eq_some_iff] at found
  obtain ⟨q', stored, rfl⟩ := found
  exact fun empty => ((h.laid side).queues p q' stored).nonempty (map_eq_nil_iff.1 empty)

theorem placed_at (live : x ∈ L.live) : ∃ q, (L.side x.2.side).get? x.2.price = some q ∧ x ∈ q := by
  obtain bid | ask := mem_append.1 live
  · obtain ⟨p, q, stored, hx⟩ := Foundations.mem_flatten.1 bid
    obtain ⟨side, price⟩ := ((h.laid .bid).queues p q stored).placed x hx
    rw [side, price]
    exact ⟨q, stored, hx⟩
  · obtain ⟨p, q, stored, hx⟩ := Foundations.mem_flatten.1 ask
    obtain ⟨side, price⟩ := ((h.laid .ask).queues p q stored).placed x hx
    rw [side, price]
    exact ⟨q, stored, hx⟩

theorem find_of_index {id : OrderId} {loc : Locator} (found : b.idIndex.get? id = some loc) :
    ∃ x q, (L.side loc.side).get? x.2.price = some q ∧ x ∈ q ∧ x.2.orderId = id ∧
      loc = ⟨x.1, x.2.side, x.2.account⟩ ∧
      (bookOf b L).find id = some (loc.side, x.2.price, x.2.resting) := by
  obtain ⟨x, live, rfl, rfl⟩ := (h.mirror.index id loc).1 found
  obtain ⟨q, stored, hx⟩ := h.placed_at live
  refine ⟨x, q, stored, hx, rfl, rfl, ?_⟩
  exact (Book.find_eq_some h.distinctIds).2 ⟨bookOf_holds.2 ⟨q, stored, x, hx, rfl⟩, rfl⟩

theorem find_of_absent {id : OrderId} (absent : b.idIndex.get? id = none) :
    (bookOf b L).find id = none := by
  refine Book.find_eq_none.2 fun side p r held same => ?_
  obtain ⟨q, stored, x, hx, rfl⟩ := bookOf_holds.1 held
  have indexed := (h.mirror.index id ⟨x.1, x.2.side, x.2.account⟩).2
    ⟨x, Layout.mem_live stored hx, same, rfl⟩
  simp [absent] at indexed

theorem find_isSome (id : OrderId) : ((bookOf b L).find id).isSome = b.idIndex.contains id := by
  rw [OrdMap.contains]
  cases found : b.idIndex.get? id with
  | none =>
    rw [h.find_of_absent found]
    rfl
  | some loc =>
    obtain ⟨x, q, -, -, -, -, found⟩ := h.find_of_index found
    rw [found]
    rfl

theorem wouldCross_eq (side : Side) (price : Price) :
    b.wouldCross side price = (bookOf b L).wouldCross side price := by
  rw [Book.wouldCross, bookOf_side, best_ladderOf, ← h.bestPrice_eq]
  cases side <;> rfl

omit h

theorem clampReduce_eq (b : OrderBook) (L : Layout) (o : NewOrder) :
    b.clampReduce o = (bookOf b L).executable o := by
  rw [clampReduce, Book.executable]
  split_ifs with reduce
  · have held : ((bookOf b L).positions.get? o.account).getD I64.zero = b.position o.account := rfl
    rw [held]
    generalize b.position o.account = pos
    cases o.side with
    | ask => simp only [ite_lt_eq_min]
    | bid =>
      have negated : (pos.saturatingNeg.val ≤ 0) ↔ 0 ≤ pos.val := by
        change max (-2 ^ 63) (min (2 ^ 63 - 1) (-pos.val)) ≤ 0 ↔ _
        omega
      simp only [negated, ite_lt_eq_min]
  · rfl

theorem restOrder_eq (h : Represents sha256 b L) {remaining : Quantity} (priced : 0 < o.price.val)
    (positive : 0 < remaining.val) (fresh : b.idIndex.get? o.orderId = none)
    (small : ∀ book, (bookOf b L).rest o remaining = .ok book → book.count ≤ u32Max) :
    (∃ e, b.restOrder sha256 o remaining = some (.error e) ∧
        (bookOf b L).rest o remaining = .error e) ∨
      ∃ b' L', b.restOrder sha256 o remaining = some (.ok b') ∧ Represents sha256 b' L' ∧
        Frame b b' ∧ (bookOf b L).rest o remaining = .ok (bookOf b' L') := by
  have total : quantityOf ((bookOf b L).queue o.side o.price) =
      quantity (L.queue o.side o.price) := by
    rw [bookOf_queue, quantityOf_map]
  have config : (bookOf b L).config = b.config := rfl
  rw [Book.rest, total, bookOf_count, config] at small ⊢
  by_cases high : i64Max < quantity (L.queue o.side o.price) + remaining.val
  · exact .inl ⟨_, h.rest_overflow high, if_pos high⟩
  rw [if_neg high]
  by_cases full : (b.config.capacity : Nat) ≤ L.live.length
  · exact .inl ⟨_, h.rest_full positive (not_lt.1 high) full, if_pos full⟩
  rw [if_neg full]
  have room : L.live.length < (b.config.capacity : Nat) := not_le.1 full
  have addressable : L.live.length < u32Max := by
    have count := small _ ((if_neg high).trans (if_neg full))
    rw [Book.count_insert] at count
    rwa [bookOf_count] at count
  obtain ⟨slot, b', rests, h', frame⟩ :=
    h.rest_ok priced positive (not_lt.1 high) room addressable fresh
  refine .inr ⟨b', _, rests, h', frame, ?_⟩
  rw [bookOf_put frame, map_append, putQueue, if_neg (by simp), bookOf_queue]
  rfl

/-! ## Placing -/

/-- The concrete operation stands for the abstract one. -/
def Simulates (sha256 : Sha256) (b : OrderBook) {ρ : Type}
    (concrete : Option (ρ × OrderBook)) (abstract : ρ × Book) : Prop :=
  ∃ r b' L', concrete = some (r, b') ∧ Represents sha256 b' L' ∧ Frame b b' ∧
    abstract = (r, bookOf b' L')

theorem simulates_idle (h : Represents sha256 b L) {ρ : Type} (r : ρ) :
    Simulates sha256 b (some (r, b)) (r, bookOf b L) :=
  ⟨r, b, L, rfl, h, Frame.refl b, rfl⟩

/-- Both operations branch on one condition. -/
theorem Simulates.ite {ρ : Type} {c : Prop} [Decidable c] {x y : Option (ρ × OrderBook)}
    {x' y' : ρ × Book} (small : (if c then x' else y').2.count ≤ u32Max)
    (yes : c → Simulates sha256 b x x') (no : ¬ c → y'.2.count ≤ u32Max → Simulates sha256 b y y') :
    Simulates sha256 b (if c then x else y) (if c then x' else y') := by
  split_ifs at small ⊢ with h
  · exact yes h
  · exact no h small

theorem dispose_eq {isMarket stopped : Bool} {quantity : Quantity} {s : MatchState}
    (h : Represents sha256 s.book L) (frame : Frame b s.book)
    (priced : isMarket = false → 0 < o.price.val) (nonneg : 0 ≤ s.remaining.val)
    (fresh : s.book.idIndex.get? o.orderId = none)
    (small : (Book.dispose o isMarket quantity (progressOf s L stopped)).2.count ≤ u32Max) :
    Simulates sha256 b (dispose sha256 o isMarket quantity s stopped)
      (Book.dispose o isMarket quantity (progressOf s L stopped)) := by
  have plain : ∀ r : Except OrderError MatchReport,
      Simulates sha256 b (some (r, s.book)) (r, (progressOf s L stopped).book) := fun r =>
    ⟨r, s.book, L, rfl, h, frame, rfl⟩
  have remaining : (progressOf s L stopped).remaining = s.remaining := rfl
  have cancelled : (progressOf s L stopped).stpCancelled = s.stpCancelled := rfl
  have halted : (progressOf s L stopped).stopped = stopped := rfl
  rw [Book.dispose, remaining, cancelled, halted] at small ⊢
  refine .ite small (fun _ => plain _) fun done small => ?_
  by_cases ends : (isMarket || stopped || decide (o.tif ≠ .gtc)) = true
  · have cancels : ¬(!isMarket && !stopped && decide (o.tif = .gtc)) = true := by
      revert ends
      cases isMarket <;> cases stopped <;> simp
    rw [if_pos ends, if_neg cancels]
    exact plain _
  · have rests : (!isMarket && !stopped && decide (o.tif = .gtc)) = true := by
      revert ends
      cases isMarket <;> cases stopped <;> simp
    rw [if_neg ends] at small ⊢
    rw [if_pos rests]
    have limited : isMarket = false := by
      revert rests
      cases isMarket <;> simp
    have unfilled : 0 < s.remaining.val := lt_of_le_of_ne nonneg (Ne.symm done)
    obtain ⟨e, concrete, abstract⟩ | ⟨b', L', concrete, h', frame', abstract⟩ :=
      h.restOrder_eq (priced limited) unfilled fresh fun book ok => by
        have ok' : (progressOf s L stopped).book.rest o s.remaining = .ok book := ok
        simpa only [ok'] using small
    · have abstract' : (progressOf s L stopped).book.rest o s.remaining = .error e := abstract
      rw [concrete, abstract']
      by_cases filled : 0 < (quantity.saturatingSub s.remaining).val
      · simp only [filled, decide_true, Bool.true_or, if_true]
        exact plain _
      · simp only [filled, decide_false, Bool.false_or, if_false]
        by_cases none : s.stpCancelled.isEmpty = true
        · simp only [none, Bool.not_true, Bool.false_eq_true, if_false]
          exact plain _
        · simp only [none, Bool.not_false, if_true]
          exact plain _
    · have abstract' : (progressOf s L stopped).book.rest o s.remaining = .ok (bookOf b' L') :=
        abstract
      rw [concrete, abstract']
      exact ⟨_, b', L', rfl, h', frame.trans frame', rfl⟩

variable (h : Represents sha256 b L)
include h

theorem positive (side : Side) (p : Price) (r : Resting) (held : (bookOf b L).Holds side p r) :
    0 < p.val ∧ 0 < r.remaining.val := by
  obtain ⟨q, stored, x, hx, rfl⟩ := bookOf_holds.1 held
  have ok := (h.laid side).queues p q stored
  exact ⟨ok.priced, ok.positive x hx⟩

theorem sweep_eq {isMarket : Bool} {quantity : Quantity}
    (priced : isMarket = false → 0 < o.price.val) (positive : 0 < quantity.val)
    (fresh : b.idIndex.get? o.orderId = none)
    (small : (Book.dispose o isMarket quantity
      ((bookOf b L).sweep o isMarket quantity)).2.count ≤ u32Max) :
    Simulates sha256 b
      ((b.runMatch sha256 o isMarket quantity).bind fun r =>
        dispose sha256 o isMarket quantity r.1 r.2)
      (Book.dispose o isMarket quantity ((bookOf b L).sweep o isMarket quantity)) := by
  obtain ⟨r, L', runs, h', frame, same⟩ := h.runMatch_eq o isMarket quantity
  have absent : (bookOf b L).lookup o.orderId = none := by
    rw [Book.lookup, h.find_of_absent fresh, map_none]
  have fair : Book.Fair o quantity ((bookOf b L).sweep o isMarket quantity) :=
    (Book.fair_start h.stocked h.distinctIds h.positive absent positive).matched
  have within : Book.Within (bookOf b L)
      ((bookOf b L).sweep o isMarket quantity).book :=
    Book.within_matched o isMarket ⟨bookOf b L, quantity, [], [], false⟩
  rw [same] at fair within small
  have fresh' : r.1.book.idIndex.get? o.orderId = none := by
    rw [← contains_eq_false, ← h'.find_isSome, isSome_eq_false_iff,
      isNone_iff_eq_none, Book.find_eq_none]
    intro side p x held same
    obtain ⟨x', held', id⟩ := within.ids side p x held
    exact Book.lookup_eq_none.1 absent side p x' held' (id.trans same)
  rw [runs, same]
  exact h'.dispose_eq frame priced fair.nonneg fresh' small

theorem executeWithReport_eq (o : NewOrder) (small : ((bookOf b L).place o).2.count ≤ u32Max) :
    Simulates sha256 b (b.executeWithReport sha256 o) ((bookOf b L).place o) := by
  have idle := fun r : Except OrderError MatchReport => h.simulates_idle r
  rw [Book.place] at small ⊢
  refine .ite small (fun _ => idle _) fun none small => ?_
  refine .ite small (fun _ => idle _) fun unpriced small => ?_
  rw [h.find_isSome] at small ⊢
  refine .ite small (fun _ => idle _) fun known small => ?_
  rw [clampReduce_eq b L]
  have priced : decide (o.orderType = .market) = false → 0 < o.price.val := by
    intro limited
    rw [limited] at unpriced
    simpa using unpriced
  have fresh : b.idIndex.get? o.orderId = .none :=
    contains_eq_false.1 (Bool.eq_false_iff.2 known)
  cases allowed : (bookOf b L).executable o with
  | none => exact idle _
  | some quantity =>
    simp only [allowed] at small ⊢
    have positive : 0 < quantity.val :=
      (Book.executable_bounds (not_le.1 none) allowed).1
    by_cases post : o.orderType = .postOnly
    · rw [if_pos post] at small ⊢
      rw [if_pos post, h.wouldCross_eq]
      refine .ite small (fun _ => idle _) fun _ small => ?_
      have limited : decide (o.orderType = .market) = false := by simp [post]
      obtain ⟨e, concrete, abstract⟩ | ⟨b', L', concrete, h', frame, abstract⟩ :=
        h.restOrder_eq (priced limited) positive fresh fun book ok => by simpa only [ok] using small
      · rw [concrete, abstract]
        exact idle _
      · rw [concrete, abstract]
        exact ⟨_, b', L', rfl, h', frame, rfl⟩
    · rw [if_neg post] at small ⊢
      rw [if_neg post]
      by_cases kill : o.tif = .fok
      · rw [if_pos kill, h.crossableQty_eq]
        have enough : (Book.depth o (decide (o.orderType = .market)) b.config.stp quantity
            (priority o.side.opposite ((bookOf b L).side o.side.opposite))
            I64.zero).val < quantity.val ↔
            ((bookOf b L).sweep o (decide (o.orderType = .market)) quantity).remaining.val ≠ 0 :=
          @Book.depth_lt_iff o _ ⟨bookOf b L, quantity, [], [], false⟩ quantity I64.zero
            (h.stocked _) (fun x hx => (h.positive _ _ _ (mem_priority.1 hx)).2) rfl
            positive le_rfl (by simp [I64.zero])
        simp only
        by_cases short : ((bookOf b L).sweep o (decide (o.orderType = .market))
            quantity).remaining.val ≠ 0
        · rw [if_pos (enough.2 short), if_pos ⟨kill, short⟩]
          exact idle _
        · rw [if_neg fun both => short both.2] at small
          rw [if_neg fun less => short (enough.1 less), if_neg fun both => short both.2]
          exact h.sweep_eq priced positive fresh small
      · rw [if_neg fun both => kill both.1] at small
        rw [if_neg kill, if_neg fun both => kill both.1]
        exact h.sweep_eq priced positive fresh small

/-! ## Cancelling -/

theorem put_eq_without {l r : List Slotted} (stored : (L.side side).get? p = some (l ++ x :: r)) :
    (bookOf b L).put side p ((l ++ r).map fun y => y.2.resting) =
      (bookOf b L).without fun y => y.orderId = x.2.orderId := by
  have unique : ∀ side' p' q', (L.side side').get? p' = some q' → ∀ y ∈ q',
      y.2.orderId = x.2.orderId → side' = side ∧ p' = p ∧ y.2.resting = x.2.resting := by
    intro side' p' q' stored' y hy same
    exact Book.holds_unique h.distinctIds
      (bookOf_holds.2 ⟨q', stored', y, hy, rfl⟩)
      (bookOf_holds.2 ⟨_, stored, x, by simp, rfl⟩) same
  have ids := Book.queue_ids_nodup h.distinctIds side p
  rw [bookOf_queue, Layout.queue, stored, getD_some, List.map_map, map_append,
    map_cons, nodup_middle, nodup_cons, ← map_append] at ids
  have same_side : ∀ side',
      ((bookOf b L).put side p ((l ++ r).map fun y => y.2.resting)).side side' =
      ((bookOf b L).without fun y => y.orderId = x.2.orderId).side side' := by
    intro side'
    ext1 p'
    rw [Book.get?_side_put, Book.side_without, get?_keep, bookOf_side, ladderOf, get?_mapValues]
    by_cases here : side' = side ∧ p' = p
    · obtain ⟨rfl, rfl⟩ := here
      have kept : ((l ++ x :: r).map fun y => y.2.resting).filter
          (fun y => !decide (y.orderId = x.2.orderId)) = (l ++ r).map fun y => y.2.resting := by
        have others : ∀ y ∈ (l ++ r).map (fun y => y.2.resting),
            (!decide (y.orderId = x.2.orderId)) = true := by
          intro y hy
          obtain ⟨z, hz, rfl⟩ := List.mem_map.1 hy
          have apart : z.2.orderId ≠ x.2.orderId := fun same =>
            ids.1 (List.mem_map.2 ⟨z, hz, same⟩)
          rwa [Bool.not_eq_true', decide_eq_false_iff_not]
        rw [map_append, map_cons, filter_append, filter_cons_of_neg (by simp [Order.resting]),
          ← filter_append, ← map_append]
        exact filter_eq_self.2 others
      rw [if_pos ⟨rfl, rfl⟩, stored, map_some, map_some, kept]
      cases (l ++ r).map fun y => y.2.resting <;> rfl
    · rw [if_neg here]
      cases stored' : (L.side side').get? p' with
      | none => rfl
      | some q' =>
        have kept : (q'.map fun y => y.2.resting).filter
            (fun y => !decide (y.orderId = x.2.orderId)) = q'.map fun y => y.2.resting := by
          refine filter_eq_self.2 fun y hy => ?_
          obtain ⟨z, hz, rfl⟩ := List.mem_map.1 hy
          have apart : z.2.orderId ≠ x.2.orderId := fun same => by
            obtain ⟨first, second, -⟩ := unique side' p' q' stored' z hz same
            exact here ⟨first, second⟩
          rwa [Bool.not_eq_true', decide_eq_false_iff_not]
        have nonempty := ((h.laid side').queues p' q' stored').nonempty
        rw [map_some, map_some, kept]
        cases q' with
        | nil => exact absurd rfl nonempty
        | cons => rfl
  have bids := same_side .bid
  have asks := same_side .ask
  have config := Book.config_put (bookOf b L) side p ((l ++ r).map fun y => y.2.resting)
  have positions :=
    Book.positions_put (bookOf b L) side p ((l ++ r).map fun y => y.2.resting)
  generalize (bookOf b L).put side p ((l ++ r).map fun y => y.2.resting) = after at *
  obtain ⟨c, m, n, ps⟩ := after
  simp only [Book.side] at bids asks
  simp only at config positions
  rw [bids, asks, config, positions]
  rfl

theorem removeResting_eq (stored : (L.side side).get? p = some q) (hx : x ∈ q) :
    ∃ b' L', b.removeResting sha256 side x.1 = some b' ∧ Represents sha256 b' L' ∧ Frame b b' ∧
      bookOf b' L' = (bookOf b L).without fun y => y.orderId = x.2.orderId := by
  obtain ⟨l, r, rfl⟩ := append_of_mem hx
  obtain ⟨b', removed, h', frame⟩ := h.remove stored
  refine ⟨b', _, removed, h', frame, ?_⟩
  rw [bookOf_put frame]
  exact h.put_eq_without stored

theorem cancel_eq (id : OrderId) :
    Simulates sha256 b (b.cancel sha256 id) ((bookOf b L).cancel id) := by
  rw [cancel, Book.cancel]
  cases found : b.idIndex.get? id with
  | none =>
    rw [h.find_of_absent found]
    exact h.simulates_idle _
  | some loc =>
    obtain ⟨x, q, stored, hx, rfl, rfl, abstract⟩ := h.find_of_index found
    obtain ⟨b', L', removed, h', frame, same⟩ := h.removeResting_eq stored hx
    rw [abstract]
    simp only [removed, map_some]
    exact ⟨_, b', L', rfl, h', frame, by rw [same]⟩

/-- The loop of `cancel_all` removes the listed ids. -/
theorem cancelEach_eq (ids : List OrderId) :
    ∃ b' L', cancelEach sha256 b ids = some b' ∧ Represents sha256 b' L' ∧ Frame b b' ∧
      bookOf b' L' = (bookOf b L).without fun y => y.orderId ∈ ids := by
  induction ids generalizing b L with
  | nil =>
    refine ⟨b, L, rfl, h, Frame.refl b, ?_⟩
    exact (Book.without_of_none h.stocked fun _ _ _ _ => rfl).symm
  | cons id rest ih =>
    rw [cancelEach]
    cases found : b.idIndex.get? id with
    | none =>
      obtain ⟨b', L', runs, h', frame, same⟩ := ih h
      refine ⟨b', L', runs, h', frame, same.trans ?_⟩
      apply Book.without_congr
      intro side p r held
      have other := Book.find_eq_none.1 (h.find_of_absent found) side p r held
      simp [other]
    | some loc =>
      obtain ⟨x, q, stored, hx, rfl, rfl, -⟩ := h.find_of_index found
      obtain ⟨b₁, L₁, removed, h₁, frame₁, same₁⟩ := h.removeResting_eq stored hx
      obtain ⟨b', L', runs, h', frame, same⟩ := ih h₁
      simp only [removed]
      refine ⟨b', L', runs, h', frame₁.trans frame, ?_⟩
      rw [same, same₁, Book.without_without]
      simp

/-- The ids listed for an account are those of its live orders. -/
theorem targets_eq (account : AccountId) {side : Side} {p : Price}
    {r : Resting} (held : (bookOf b L).Holds side p r) :
    r.orderId ∈ (b.accountOrders.get? account).getD [] ↔ r.account = account := by
  obtain ⟨q, stored, x, hx, rfl⟩ := bookOf_holds.1 held
  rw [h.mirror.owned]
  constructor
  · rintro ⟨y, live, owner, same⟩
    obtain ⟨q', stored', hy⟩ := h.placed_at live
    have both := Book.holds_unique h.distinctIds
      (bookOf_holds.2 ⟨q', stored', y, hy, rfl⟩) held same
    have accounts : y.2.account = x.2.account := congrArg Resting.account both.2.2
    exact accounts.symm.trans owner
  · intro owner
    exact ⟨x, Layout.mem_live stored hx, owner, rfl⟩

theorem targets_length (account : AccountId) : ((b.accountOrders.get? account).getD []).length =
      (bookOf b L).count - ((bookOf b L).without fun r => r.account = account).count := by
  have distinct : ((b.accountOrders.get? account).getD []).Nodup := by
    cases listed : b.accountOrders.get? account with
    | none => exact nodup_nil
    | some ids => exact (h.mirror.ascending account ids listed).imp ne_of_lt
  have perm : ((b.accountOrders.get? account).getD []).Perm
      ((((bookOf b L).resting.filter fun r => decide (r.account = account))).map
        Resting.orderId) := by
    rw [perm_ext_iff_of_nodup distinct (h.distinctIds.sublist (filter_sublist.map _))]
    intro id
    rw [h.mirror.owned, List.mem_map]
    constructor
    · rintro ⟨x, live, owner, same⟩
      refine ⟨x.2.resting, mem_filter.2 ⟨?_, decide_eq_true owner⟩, same⟩
      rw [bookOf_resting]
      exact mem_map_of_mem live
    · rintro ⟨r, member, same⟩
      obtain ⟨member, owner⟩ := mem_filter.1 member
      rw [bookOf_resting] at member
      obtain ⟨x, live, rfl⟩ := List.mem_map.1 member
      exact ⟨x, live, of_decide_eq_true owner, same⟩
  have split := (bookOf b L).resting.length_eq_length_filter_add
    fun r => decide (r.account = account)
  rw [perm.length_eq, length_map, Book.count_eq, Book.count_eq, Book.resting_without]
  omega

theorem cancelAll_eq (account : AccountId) :
    Simulates sha256 b (b.cancelAll sha256 account) ((bookOf b L).cancelAll account) := by
  rw [cancelAll, Book.cancelAll]
  obtain ⟨b', L', runs, h', frame, same⟩ := h.cancelEach_eq ((b.accountOrders.get? account).getD [])
  simp only [runs, map_some]
  refine ⟨_, b', L', rfl, h', frame, ?_⟩
  rw [h.targets_length, same]
  congr 1
  apply Book.without_congr
  intro side p r held
  simp only [h.targets_eq account held]

/-! ## Replacing -/

/-- The level of a replacement, without the order it replaces. -/
theorem replaceFits_eq (stored : (L.side x.2.side).get? x.2.price = some q) (hx : x ∈ q)
    (price : Price) {amount : Quantity} (positive : 0 < amount.val) :
    b.replaceFits x.2 price amount = !(!(bookOf b L).wouldCross x.2.side price &&
        decide (i64Max < quantityOf (((bookOf b L).without
          fun y => y.orderId = x.2.orderId).queue x.2.side price) + amount.val)) := by
  obtain ⟨l, r, rfl⟩ := append_of_mem hx
  rw [← h.put_eq_without stored, replaceFits, h.wouldCross_eq]
  by_cases crossing : (bookOf b L).wouldCross x.2.side price = true
  · rw [crossing]
    rfl
  rw [Bool.eq_false_iff.2 crossing]
  have ok := (h.laid x.2.side).queues x.2.price _ stored
  have total := h.levelTotal_val x.2.side price
  have nonneg := h.quantity_queue_nonneg x.2.side price
  -- The total that is left at the level of the replacement.
  have left : ∃ current : Quantity, (if x.2.price = price then
          ((b.sideBook x.2.side).levelTotal price).checkedSub x.2.remaining
        else some ((b.sideBook x.2.side).levelTotal price)) = some current ∧ 0 ≤ current.val ∧
      current.val = quantityOf (((bookOf b L).put x.2.side x.2.price
        ((l ++ r).map fun y => y.2.resting)).queue x.2.side price) := by
    rw [Book.queue, Book.get?_side_put]
    by_cases here : x.2.price = price
    · subst here
      have whole : quantity (L.queue x.2.side x.2.price) =
          quantity (l ++ r) + x.2.remaining.val := by
        rw [Layout.queue, stored, getD_some, quantity_append, quantity_append, quantity_cons]
        omega
      have rest : 0 ≤ quantity (l ++ r) := quantity_nonneg fun y hy =>
        ok.positive y (by
          obtain left | right := mem_append.1 hy
          · exact mem_append_left _ left
          · exact mem_append_right _ (mem_cons_of_mem _ right))
      have some_left := ok.positive x (by simp)
      have upper := ((b.sideBook x.2.side).levelTotal x.2.price).property.2
      rw [if_pos rfl, if_pos ⟨rfl, rfl⟩]
      refine ⟨⟨quantity (l ++ r), by omega, by omega⟩, ?_, rest, ?_⟩
      · rw [Bounded.checkedSub_eq_some]
        change quantity (l ++ r) = _
        omega
      · change quantity (l ++ r) = _
        rw [← quantityOf_map]
        cases (l ++ r).map fun y => y.2.resting <;> rfl
    · rw [if_neg here, if_neg fun both => here both.2.symm]
      refine ⟨_, rfl, by omega, ?_⟩
      have queued := bookOf_queue b L x.2.side price
      rw [Book.queue] at queued
      rw [queued, quantityOf_map, total]
  obtain ⟨current, subtracted, lower, value⟩ := left
  simp only [subtracted, bind_some, ← value]
  by_cases high : i64Max < current.val + amount.val
  · have none : current.checkedAdd amount = none := Bounded.narrow_eq_none.2 (.inr high)
    rw [none, decide_eq_true high]
    rfl
  · have some_sum : current.checkedAdd amount =
        some ⟨current.val + amount.val, le_trans (by decide) (add_nonneg lower positive.le),
          not_lt.1 high⟩ :=
      Bounded.checkedAdd_eq_some.2 rfl
    rw [some_sum, decide_eq_false high]
    rfl

theorem replaceWithReport_eq (id : OrderId) (price : Price)
    (amount : Quantity) (small : ((bookOf b L).replace id price amount).2.count ≤ u32Max) :
    Simulates sha256 b (b.replaceWithReport sha256 id price amount)
      ((bookOf b L).replace id price amount) := by
  have idle := fun r : Except OrderError MatchReport => h.simulates_idle r
  rw [Book.replace] at small ⊢
  refine .ite small (fun _ => idle _) fun none small => ?_
  refine .ite small (fun _ => idle _) fun unpriced small => ?_
  cases found : b.idIndex.get? id with
  | none =>
    rw [h.find_of_absent found]
    exact idle _
  | some loc =>
    obtain ⟨x, q, stored, hx, rfl, rfl, abstract⟩ := h.find_of_index found
    obtain ⟨node, live, same⟩ := h.exists_node stored hx
    obtain ⟨b₁, L₁, removed, h₁, frame₁, left⟩ := h.removeResting_eq stored hx
    have order : x.2.resting.at x.2.side x.2.price = x.2 := rfl
    simp only [abstract, order] at small ⊢
    simp only [live, same, removed]
    rw [h.replaceFits_eq stored hx price (not_le.1 none)]
    by_cases high : (!(bookOf b L).wouldCross x.2.side price &&
        decide (i64Max < quantityOf (((bookOf b L).without
          fun y => y.orderId = x.2.orderId).queue x.2.side price) + amount.val)) = true
    · simp only [high, if_true, Bool.not_true, Bool.false_eq_true, if_false]
      exact idle _
    · simp only [Bool.eq_false_iff.2 high, Bool.false_eq_true, if_false] at small ⊢
      rw [← left] at small ⊢
      obtain ⟨r, b', L', runs, h', frame', same'⟩ := h₁.executeWithReport_eq
        (replacement x.2.orderId x.2 price amount) small
      exact ⟨r, b', L', runs, h', frame₁.trans frame', same'⟩

end Represents

end Dexos.Clob
