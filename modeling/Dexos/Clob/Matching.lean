import Dexos.Clob.Sweep
import Dexos.Clob.View

/-!
# Matching through the slab

`run_match` walks levels through intrusive links and leaves its loops at several points;
it takes the steps of price-time matching, in their order. The simulation relation is that
the concrete book stores a layout whose orders are those of the abstract book.
-/

namespace Dexos.Clob

open Foundations List PriceTime OrdMap OrderBook
open PriceTime.Book (Progress matchStep matchHead matched)

/-- The price-time book of a layout, with the other fields of a concrete book. -/
def bookOf (b : OrderBook) (L : Layout) : Book where
  config := b.config
  bids := ladderOf L.bids
  asks := ladderOf L.asks
  positions := b.positions

theorem bookOf_side (b : OrderBook) (L : Layout) (side : Side) :
    (bookOf b L).side side = ladderOf (L.side side) := by
  cases side <;> rfl

variable {sha256 : Sha256}

theorem Represents.view_eq {b : OrderBook} {L : Layout} (h : Represents sha256 b L) :
    b.view = bookOf b L := by
  have bids := h.view_side .bid
  have asks := h.view_side .ask
  change b.view = ⟨b.config, ladderOf (L.side .bid), ladderOf (L.side .ask), b.positions⟩
  rw [← bids, ← asks]
  rfl

theorem best_ladderOf (side : Side) (m : Queues) : best side (ladderOf m) = best side m :=
  best_mapValues side m _

theorem bookOf_queue (b : OrderBook) (L : Layout) (side : Side) (p : Price) :
    (bookOf b L).queue side p = (L.queue side p).map fun x => x.2.resting := by
  rw [Book.queue, bookOf_side, ladderOf, get?_mapValues, Layout.queue]
  cases (L.side side).get? p <;> rfl

theorem bookOf_put {b b' : OrderBook} (frame : Frame b b') (L : Layout) (side : Side) (p : Price)
    (q : List Slotted) :
    bookOf b' (L.put side p q) = (bookOf b L).setSide side
        (putQueue ((bookOf b L).side side) p (q.map fun x => x.2.resting)) := by
  rw [bookOf_side, ladderOf, ← mapValues_putQueue]
  cases side <;> simp only [bookOf, Layout.put, Layout.setSide, Book.setSide, frame.config,
    frame.positions, Layout.side, ladderOf]

namespace Represents

variable {sha256 : Sha256} {b : OrderBook} {L : Layout} {side : Side} {p : Price}

variable (h : Represents sha256 b L)
include h

theorem bestPrice_eq (side : Side) : (b.sideBook side).bestPrice = best side (L.side side) := by
  rw [← best_mapValues side (L.side side) levelOf, ← (h.laid side).levels_eq, best,
    SideBook.bestPrice, (h.laid side).side_eq]

theorem headAt_eq_none (absent : (L.side side).get? p = none) :
    (b.sideBook side).headAt p = none := by
  rw [SideBook.headAt, (h.laid side).levels_eq, get?_mapValues, absent]
  rfl

theorem headAt_eq_some {x : Slotted} {r : List Slotted}
    (stored : (L.side side).get? p = some (x :: r)) : (b.sideBook side).headAt p = some x.1 := by
  have proper := h.nil_notMem stored
  rw [SideBook.headAt, (h.laid side).levels_eq, get?_mapValues, stored]
  have head : (levelOf (x :: r)).head = x.1 := rfl
  have live : x.1 ≠ nil := fun same => proper (same ▸ mem_cons_self)
  simp [head, live]

theorem len_remove {x : Slotted} {l r : List Slotted}
    (stored : (L.side side).get? p = some (l ++ x :: r)) {b' : OrderBook}
    (h' : Represents sha256 b' (L.put side p (l ++ r))) : b'.slab.len + 1 = b.slab.len := by
  have before := (L.live_perm side p).length_eq
  have after := (L.live_put_perm side p (l ++ r)).length_eq
  rw [Layout.queue, stored, Option.getD_some] at before
  rw [h.len, h'.len, before, after]
  simp only [length_append, length_cons]
  omega

end Represents

/-! ## The simulation -/

section Simulation

variable (sha256 : Sha256) (o : NewOrder) (isMarket : Bool) (start : OrderBook)
  (target : Progress)

/-- The abstract progress that a concrete state stands for. -/
def progressOf (s : MatchState) (L : Layout) (stopped : Bool) : Progress :=
  ⟨bookOf s.book L, s.remaining, s.fills, s.stpCancelled, stopped⟩

/-- The cursor is at a crossing price, which is the best one as long as its level is there. -/
def CursorOk (s : MatchState) (L : Layout) : Prop :=
  ∀ p, s.cursor = some p → crosses o.side isMarket o.price p = true ∧
    ∀ q, (L.side o.side.opposite).get? p = some q →
      best o.side.opposite (L.side o.side.opposite) = some p

/-- Before each turn the concrete state is in step with a run of price-time matching. -/
def InStep (s : MatchState) : Prop :=
  ∃ L, Represents sha256 s.book L ∧ Frame start s.book ∧
    matched o isMarket (progressOf s L false) = target ∧ CursorOk o isMarket s L

/-- Where the loops leave, the run of price-time matching has ended in the same state. -/
def Ended (r : MatchState × Bool) : Prop :=
  ∃ L, Represents sha256 r.1.book L ∧ Frame start r.1.book ∧ target = progressOf r.1 L r.2

/-- The turns that are left: at most three for each order, and at most two at a price. -/
def turnsLeft (s : MatchState) : Nat :=
  if s.remaining.val ≤ 0 then 0
  else
    3 * s.book.slab.len +
      match s.cursor with
      | none => 2
      | some p => if ((s.book.sideBook o.side.opposite).levels.get? p).isSome then 1 else 3

/-- What a turn must do: go on in step, or leave where matching has ended. -/
def TurnOk (s : MatchState)
    (next : Option (Turn MatchState (MatchState × Bool))) : Prop :=
  (∃ s', next = some (.again s') ∧ InStep sha256 o isMarket start target s' ∧
    turnsLeft o s' < turnsLeft o s) ∨ ∃ r, next = some (.done r) ∧ Ended sha256 start target r

variable {sha256 o isMarket start target} {s : MatchState} {L : Layout} {p : Price}
  {s' : MatchState}
  {q : List Slotted} {x : Slotted}

theorem levels_isSome (h : Represents sha256 s.book L) (side : Side) (p : Price) :
    ((s.book.sideBook side).levels.get? p).isSome = ((L.side side).get? p).isSome := by
  rw [(h.laid side).levels_eq, get?_mapValues, Option.isSome_map]

theorem turnsLeft_le (s : MatchState) : turnsLeft o s ≤ 3 * s.book.slab.len + 3 := by
  rw [turnsLeft]
  split_ifs
  · exact Nat.zero_le _
  · apply Nat.add_le_add_left
    cases s.cursor with
    | none => exact Nat.le_succ 2
    | some p =>
      dsimp only
      split_ifs <;> decide

section Outer

variable (h : Represents sha256 s.book L) (frame : Frame start s.book)
  (run : matched o isMarket (progressOf s L false) = target)
include h frame run

/-- Leaving where the abstract run cannot go on. -/
theorem ended_of_none (last : matchStep o isMarket (progressOf s L false) = none) :
    Ended sha256 start target (s, false) := by
  refine ⟨L, h, frame, ?_⟩
  rw [← run, Book.matched_of_none last]

/-- The outer loop: find the best price. -/
theorem turn_outer (unfilled : 0 < s.remaining.val) (outer : s.cursor = none) :
    TurnOk sha256 o isMarket start target s
      (matchTurn sha256 o isMarket s) := by
  have top : best o.side.opposite ((bookOf s.book L).side o.side.opposite) =
      (s.book.sideBook o.side.opposite).bestPrice := by
    rw [h.bestPrice_eq, bookOf_side, best_ladderOf]
  rw [matchTurn, if_neg (by omega), outer]
  cases found : (s.book.sideBook o.side.opposite).bestPrice with
  | none =>
    refine .inr ⟨_, rfl, ended_of_none h frame run ?_⟩
    rw [found] at top
    simp only [matchStep, progressOf, top, ite_self]
  | some p =>
    rw [found] at top
    dsimp only
    split_ifs with crossing
    · have first : best o.side.opposite (L.side o.side.opposite) = some p := by
        rw [← h.bestPrice_eq, found]
      refine .inl ⟨_, rfl, ⟨L, h, frame, run, ?_⟩, ?_⟩
      · intro p' same
        obtain rfl := Option.some.inj same
        exact ⟨crossing, fun _ _ => first⟩
      · obtain ⟨⟨q, stored⟩, -⟩ := best_eq_some.1 first
        have present := levels_isSome h o.side.opposite p
        rw [stored, Option.isSome_some] at present
        have busy : ¬s.remaining.val ≤ 0 := not_le.2 unfilled
        simp only [turnsLeft, busy, if_false, outer, present, if_true]
        omega
    · refine .inr ⟨_, rfl, ended_of_none h frame run ?_⟩
      simp [matchStep, progressOf, top, crossing]

theorem turn_absent (unfilled : 0 < s.remaining.val) (inner : s.cursor = some p)
    (absent : (L.side o.side.opposite).get? p = none) : TurnOk sha256 o isMarket start target s
      (matchTurn sha256 o isMarket s) := by
  have gone := levels_isSome h o.side.opposite p
  rw [absent] at gone
  have busy : ¬s.remaining.val ≤ 0 := not_le.2 unfilled
  rw [matchTurn, if_neg busy, inner]
  dsimp only
  rw [h.headAt_eq_none absent]
  refine .inl ⟨_, rfl, ⟨L, h, frame, run, fun _ none => by cases none⟩, ?_⟩
  simp only [turnsLeft, busy, if_false, inner, gone]
  simp

end Outer

theorem queue_of_stored {r : List Slotted}
    (stored : (L.side o.side.opposite).get? p = some (x :: r)) (stopped : Bool) :
    (progressOf s L stopped).book.queue o.side.opposite p =
      x.2.resting :: r.map fun x => x.2.resting := by
  rw [progressOf, bookOf_queue, Layout.queue, stored]
  rfl

/-- A stored order keeps its side and price in its queue. -/
theorem resting_at (h : Represents sha256 s.book L) {side : Side}
    (stored : (L.side side).get? p = some q) (hx : x ∈ q) :
    x.2.resting.at side p = x.2 := by
  obtain ⟨side_eq, price_eq⟩ := ((h.laid side).queues p q stored).placed x hx
  rw [← side_eq, ← price_eq]
  rfl

theorem progressOf_put (frame : Frame s.book s'.book) (side : Side)
    (q : List Slotted) (stopped : Bool) :
    progressOf s' (L.put side p q) stopped =
      Progress.setQueue ⟨bookOf s.book L, s'.remaining, s'.fills, s'.stpCancelled, stopped⟩ side p
        (q.map fun x => x.2.resting) := by
  rw [progressOf, bookOf_put frame]
  rfl

/-- After a write to the level at the cursor the loops are in step again. -/
theorem inStep_put
    (cursor : CursorOk o isMarket s L) (inner : s.cursor = some p) (same : s'.cursor = s.cursor)
    {q q' : List Slotted} (stored : (L.side o.side.opposite).get? p = some q)
    (h' : Represents sha256 s'.book (L.put o.side.opposite p q')) (frame : Frame start s'.book)
    (run : matched o isMarket (progressOf s' (L.put o.side.opposite p q') false) = target) :
    InStep sha256 o isMarket start target s' := by
  refine ⟨_, h', frame, run, ?_⟩
  intro p' at_
  rw [same, inner] at at_
  obtain rfl := Option.some.inj at_
  obtain ⟨crossing, first⟩ := cursor p inner
  refine ⟨crossing, fun q'' stored' => ?_⟩
  rw [Layout.put, Layout.side_setSide_self] at stored' ⊢
  have kept : q' ≠ [] := by
    rintro rfl
    rw [get?_putQueue, if_pos rfl] at stored'
    cases stored'
  exact best_putQueue (first q stored) kept

theorem turnsLeft_present (h : Represents sha256 s.book L) (unfilled : 0 < s.remaining.val)
    (inner : s.cursor = some p) (stored : (L.side o.side.opposite).get? p = some q) :
    turnsLeft o s = 3 * s.book.slab.len + 1 := by
  have present := levels_isSome h o.side.opposite p
  rw [stored, Option.isSome_some] at present
  simp only [turnsLeft, not_le.2 unfilled, if_false, inner, present, if_true]

section Inner

variable {x : Slotted} {r : List Slotted} (cursor : CursorOk o isMarket s L)
  (unfilled : 0 < s.remaining.val) (inner : s.cursor = some p)
  (stored : (L.side o.side.opposite).get? p = some (x :: r))

include cursor unfilled inner stored

/-- The abstract run meets the same maker. -/
theorem abstract_step : matchStep o isMarket (progressOf s L false) =
    matchHead o (progressOf s L false) p (x.2.resting :: r.map fun x => x.2.resting) := by
  obtain ⟨crossing, first⟩ := cursor p inner
  have top : best o.side.opposite ((progressOf s L false).book.side o.side.opposite) = some p := by
    rw [progressOf, bookOf_side, best_ladderOf]
    exact first _ stored
  rw [Book.matchStep_at rfl unfilled top crossing, queue_of_stored stored]

variable (h : Represents sha256 s.book L) (frame : Frame start s.book)
  (run : matched o isMarket (progressOf s L false) = target)

include h frame run

theorem turn_own (own : x.2.account = o.account) :
    TurnOk sha256 o isMarket start target s (matchOwn sha256 o s x.1 x.2) := by
  have step := abstract_step cursor unfilled inner stored
  have at_ := resting_at h stored (x := x) mem_cons_self
  obtain ⟨b', removed, h', frame'⟩ := h.remove (l := []) stored
  have len := h.len_remove (l := []) stored h'
  have left := turnsLeft_present h unfilled inner stored
  have config : (progressOf s L false).book.config = s.book.config := rfl
  have own' : x.2.resting.account = o.account := own
  rw [matchHead, if_pos own', config, at_] at step
  rw [matchOwn, removed]
  cases policy : s.book.config.stp with
  | cancelTaker =>
    refine .inr ⟨_, rfl, L, h, frame, ?_⟩
    simp only [policy] at step
    rw [← run, Book.matched_step step, Book.matched_of_none]
    · rfl
    · exact Book.matchStep_of_idle (.inl rfl)
  | cancelMaker =>
    simp only [policy] at step
    refine .inl ⟨_, rfl, ?_, ?_⟩
    · refine inStep_put cursor inner rfl stored h' (frame.trans frame') ?_
      rw [← run, Book.matched_step step, progressOf_put frame']
      rfl
    · have bound := turnsLeft_le (o := o) { s with
        book := b', stpCancelled := s.stpCancelled ++ [stpCancellation x.2] }
      dsimp only at bound ⊢
      omega
  | cancelBoth =>
    simp only [policy] at step
    refine .inr ⟨_, rfl, _, h', frame.trans frame', ?_⟩
    rw [← run, Book.matched_step step, Book.matched_of_none]
    · rw [progressOf_put frame']
      rfl
    · exact Book.matchStep_of_idle (.inl rfl)

theorem turn_fill (other : x.2.account ≠ o.account) :
    TurnOk sha256 o isMarket start target s (matchFill sha256 o s p x.1 x.2) := by
  have step := abstract_step cursor unfilled inner stored
  have at_ := resting_at h stored (x := x) mem_cons_self
  have positive : 0 < x.2.remaining.val :=
    ((h.laid _).queues p _ stored).positive x mem_cons_self
  have left := turnsLeft_present h unfilled inner stored
  have other' : x.2.resting.account ≠ o.account := other
  have amount : (if s.remaining.val ≤ x.2.remaining.val then s.remaining else x.2.remaining) =
      min s.remaining x.2.remaining := (min_def _ _).symm
  set quantity := min s.remaining x.2.remaining with quantity_eq
  have kept : (x.2.remaining.saturatingSub quantity).val =
      x.2.remaining.val - min s.remaining.val x.2.remaining.val := by
    rw [quantity_eq, min_comm, Book.sub_min_val positive unfilled, min_comm]
  have spent : (s.remaining.saturatingSub quantity).val =
      s.remaining.val - min s.remaining.val x.2.remaining.val :=
    Book.sub_min_val unfilled positive
  have amount' : min (progressOf s L false).remaining x.2.resting.remaining = quantity := rfl
  rw [matchHead, if_neg other', at_] at step
  rw [matchFill, amount]
  by_cases whole : (x.2.remaining.saturatingSub quantity).val = 0
  · obtain ⟨b', removed, h', frame'⟩ := h.remove (l := []) stored
    have len := h.len_remove (l := []) stored h'
    have whole' : (x.2.resting.remaining.saturatingSub quantity).val = 0 := whole
    simp only [whole, if_true, removed, Option.map_some]
    refine .inl ⟨_, rfl, ?_, ?_⟩
    · refine inStep_put cursor inner rfl stored h' (frame.trans frame') ?_
      simp only [amount', whole', if_true] at step
      rw [← run, Book.matched_step step, progressOf_put frame']
      rfl
    · have bound := turnsLeft_le (o := o) { s with
        book := b', fills := s.fills ++ [fillOf o x.2 quantity],
        remaining := s.remaining.saturatingSub quantity }
      dsimp only at bound ⊢
      omega
  · have some_left : 0 < (x.2.remaining.saturatingSub quantity).val := by omega
    have difference : (x.2.remaining.saturatingSub quantity).val =
        x.2.remaining.val - quantity.val := by omega
    obtain ⟨book, reduced, h', frame'⟩ := h.reduce stored some_left difference (by omega)
    have whole' : ¬(x.2.resting.remaining.saturatingSub quantity).val = 0 := whole
    simp only [whole, if_false, reduced, Option.map_some]
    refine .inl ⟨_, rfl, ?_, ?_⟩
    · refine inStep_put cursor inner rfl stored h' (frame.trans frame') ?_
      simp only [amount', whole', if_false] at step
      rw [← run, Book.matched_step step, progressOf_put frame']
      rfl
    · have exhausted : (s.remaining.saturatingSub quantity).val ≤ 0 := by omega
      simp only [turnsLeft, exhausted, if_true]
      rw [turnsLeft] at left
      omega

end Inner

/-- Every turn keeps in step with price-time matching. -/
theorem matchTurn_ok (inStep : InStep sha256 o isMarket start target s) :
    TurnOk sha256 o isMarket start target s (matchTurn sha256 o isMarket s) := by
  obtain ⟨L, h, frame, run, cursor⟩ := inStep
  rcases lt_or_ge 0 s.remaining.val with unfilled | exhausted
  · cases inner : s.cursor with
    | none => exact turn_outer h frame run unfilled inner
    | some p =>
      cases stored : (L.side o.side.opposite).get? p with
      | none => exact turn_absent h frame run unfilled inner stored
      | some q =>
        obtain ⟨x, r, rfl⟩ :=
          exists_cons_of_ne_nil ((h.laid _).queues p q stored).nonempty
        obtain ⟨node, live, same⟩ := h.exists_node stored mem_cons_self
        rw [matchTurn, if_neg (not_le.2 unfilled), inner]
        simp only [h.headAt_eq_some stored, live, same]
        split_ifs with own
        · exact turn_own cursor unfilled inner stored h frame run own
        · exact turn_fill cursor unfilled inner stored h frame run own
  · refine .inr ⟨_, if_pos exhausted, ended_of_none h frame run ?_⟩
    exact Book.matchStep_of_idle (.inr exhausted)

end Simulation

/-- `run_match` does what price-time matching does. -/
theorem Represents.runMatch_eq {b : OrderBook} {L : Layout}
    (h : Represents sha256 b L) (o : NewOrder) (isMarket : Bool) (quantity : Quantity) :
    ∃ r L', b.runMatch sha256 o isMarket quantity = some r ∧ Represents sha256 r.1.book L' ∧
      Frame b r.1.book ∧ (bookOf b L).sweep o isMarket quantity = progressOf r.1 L' r.2 := by
  let s : MatchState :=
    { book := b, remaining := quantity, fills := [], stpCancelled := [], cursor := none }
  have start : InStep sha256 o isMarket b ((bookOf b L).sweep o isMarket quantity) s :=
    ⟨L, h, Frame.refl b, rfl, fun p none => by cases none⟩
  have enough : turnsLeft o s < b.matchTurns := by
    have bound := turnsLeft_le (o := o) s
    rw [matchTurns]
    dsimp only [s] at bound ⊢
    omega
  obtain ⟨r, runs, L', h', frame, ends⟩ :=
    loop_total (turnsLeft o) (fun _ inStep => matchTurn_ok inStep) start enough
  exact ⟨r, L', runs, h', frame, ends⟩

/-! ## Executable depth -/

section Depth

open PriceTime.Book (depth)

variable {o : NewOrder} {isMarket : Bool} {stp : StpPolicy} {need : I64}

/-- The body of `accumulate_level`. -/
def accumulateBody (account : AccountId) (stp : StpPolicy) (need total : I64) (node : Order) :
    Turn I64 (Bool × I64) :=
  if node.account = account then
    match stp with
    | .cancelMaker => .again total
    | .cancelTaker | .cancelBoth => .done (false, total)
  else
    let total := total.saturatingAdd node.remaining
    if need.val ≤ total.val then .done (false, total) else .again total

theorem accumulateLevel_eq (slab : Slab Node) (head : Nat) (account : AccountId)
    (stp : StpPolicy) (total need : I64) :
    accumulateLevel slab head account stp total need =
      follow slab (fun total _ node => accumulateBody account stp need total node.toOrder)
        (fun total => (true, total)) (fun total => (false, total)) slab.turns head total := by
  cases stp <;> rfl

theorem scanQueue_depth {p : Price} (crossing : crosses o.side isMarket o.price p = true)
    (before : Nat) (q : List Slotted) (tail : List (Price × Resting)) (total : I64) :
    depth o isMarket stp need (q.map (fun x => (p, x.2.resting)) ++ tail) total =
      match scanQueue (fun total _ node => accumulateBody o.account stp need total node.toOrder)
        (fun total => (true, total)) before q total with
      | (true, total) => depth o isMarket stp need tail total
      | (false, total) => total := by
  induction q generalizing before total with
  | nil => rfl
  | cons x rest ih =>
    have node : (x.2.node before (firstAddress nil rest)).toOrder = x.2 := rfl
    have account : x.2.resting.account = x.2.account := rfl
    have remaining : x.2.resting.remaining = x.2.remaining := rfl
    rw [map_cons, cons_append, depth, if_pos crossing, scanQueue, node, account, remaining]
    by_cases own : x.2.account = o.account
    · cases stp with
      | cancelMaker => simpa only [accumulateBody, own, if_true] using ih x.1 total
      | cancelTaker | cancelBoth => simp [accumulateBody, own]
    · by_cases enough : need.val ≤ (total.saturatingAdd x.2.remaining).val
      · simp only [accumulateBody, own, enough, if_true, if_false]
      · simpa only [accumulateBody, own, enough, if_false] using ih x.1 _

variable {sha256 : Sha256} {b : OrderBook} {L : Layout}

theorem crossLevels_depth (h : Represents sha256 b L) {side : Side}
    (levels : List (Price × List Slotted))
    (stored : ∀ e ∈ levels, (L.side side).get? e.1 = some e.2) (total : I64) :
    crossLevels b.slab o.side o.account o.price isMarket stp need
        (levels.map fun e => (e.1, levelOf e.2)) total =
      some (depth o isMarket stp need
        (levels.flatMap fun e => e.2.map fun x => (e.1, x.2.resting)) total) := by
  induction levels generalizing total with
  | nil => rfl
  | cons e rest ih =>
    have here := stored e mem_cons_self
    have later := ih fun e' he' => stored e' (mem_cons_of_mem _ he')
    rw [map_cons, crossLevels, flatMap_cons]
    by_cases crossing : crosses o.side isMarket o.price e.1 = true
    · rw [if_pos crossing, accumulateLevel_eq, h.follow_level here, scanQueue_depth crossing nil]
      rcases scanQueue _ _ _ _ _ with ⟨goes, total'⟩
      cases goes
      · rfl
      · exact later total'
    · obtain ⟨x, q, shape⟩ :=
        exists_cons_of_ne_nil ((h.laid side).queues _ _ here).nonempty
      rw [if_neg crossing, shape, map_cons, cons_append, depth, if_neg crossing]

theorem bestFirst_mapValues {V W : Type} (side : Side) (m : OrdMap Price V) (f : V → W) :
    bestFirst side (m.mapValues f) = (bestFirst side m).map fun e => (e.1, f e.2) := by
  cases side
  · exact map_reverse.symm
  · rfl

theorem priority_ladderOf (side : Side) (m : Queues) :
    priority side (ladderOf m) =
      (bestFirst side m).flatMap fun e => e.2.map fun x => (e.1, x.2.resting) := by
  rw [priority, ladderOf, bestFirst_mapValues, flatMap_map]
  simp only [map_map]
  rfl

theorem Represents.crossableQty_eq (h : Represents sha256 b L) (o : NewOrder) (isMarket : Bool)
    (need : I64) :
    b.crossableQty o isMarket need = some (depth o isMarket b.config.stp need
        (priority o.side.opposite ((bookOf b L).side o.side.opposite)) I64.zero) := by
  rw [crossableQty, SideBook.crossableQty, (h.laid _).side_eq, (h.laid _).levels_eq,
    bestFirst_mapValues, bookOf_side, priority_ladderOf]
  exact crossLevels_depth h _ (fun e he => mem_bestFirst.1 he) _

end Depth

end Dexos.Clob
