import Dexos.Clob.Writes

/-!
# The abstraction of a book

`OrderBook.view` reads the price-time book that a concrete book stands for, by following
the links of every level. On a book that stores a layout it is that layout without its
slots.
-/

namespace Dexos.Clob

open Foundations List
open PriceTime (Resting Ladder)

variable {q : List Slotted} {σ : Type}

/-! ## Walks -/

/-- An order with its links. -/
def Order.node (o : Order) (prev next : Nat) : Node := { o with prev := prev, next := next }

/-- The walk of a loop body over a queue. -/
def scanQueue {σ ρ : Type} (body : σ → Nat → Node → Turn σ ρ) (ended : σ → ρ) :
    Nat → List Slotted → σ → ρ
  | _, [], s => ended s
  | before, x :: rest, s =>
    match body s x.1 (x.2.node before (firstAddress nil rest)) with
    | .again s' => scanQueue body ended x.1 rest s'
    | .done r => r

theorem follow_eq {ρ : Type} {slab : Slab Node} {body : σ → Nat → Node → Turn σ ρ}
    {ended broken : σ → ρ} {before turns : Nat} (linked : Segment (heapOf slab) before q nil)
    (proper : nil ∉ slotsOf q) (enough : q.length < turns) (s : σ) :
    follow slab body ended broken turns (firstAddress nil q) s =
      some (scanQueue body ended before q s) := by
  rw [follow]
  induction q generalizing before turns s with
  | nil =>
    obtain ⟨n, rfl⟩ : ∃ n, turns = n + 1 := ⟨turns - 1, by omega⟩
    simp [loop, firstAddress, scanQueue]
  | cons x rest ih =>
    obtain ⟨n, rfl⟩ : ∃ n, turns = n + 1 := ⟨turns - 1, by omega⟩
    obtain ⟨node, live, cell⟩ := heapOf_eq_some.1 linked.1
    have same : node = x.2.node before (firstAddress nil rest) := by
      obtain ⟨o, prev, next⟩ := node
      obtain ⟨rfl, rfl, rfl⟩ := cell
      rfl
    have first : x.1 ≠ nil := fun h => proper (h ▸ mem_cons_self)
    have short : rest.length < n := by simpa using enough
    have later := fun s' => ih linked.2 (fun h => proper (mem_cons_of_mem _ h)) short s'
    have head : firstAddress nil (x :: rest) = x.1 := rfl
    rw [head, loop, scanQueue]
    simp only [first, if_false, live, same]
    cases body s x.1 (x.2.node before (firstAddress nil rest)) with
    | again => exact later ..
    | done r => rfl

/-- A body that ignores the links walks over the orders. -/
theorem scanQueue_fold {body : σ → Nat → Node → Turn σ σ} (step : σ → Order → σ)
    (plain : ∀ s slot node, body s slot node = .again (step s node.toOrder)) (before : Nat)
    (q : List Slotted) (s : σ) :
    scanQueue body id before q s = q.foldl (fun s x => step s x.2) s := by
  induction q generalizing before s with
  | nil => rfl
  | cons x rest ih =>
    rw [scanQueue, plain]
    exact ih x.1 _

/-! ## The view -/

/-- The abstract fields of a stored order. -/
def Order.resting (o : Order) : Resting := ⟨o.orderId, o.account, o.remaining, o.clientId⟩

/-- The queue of a level, read through its links. -/
def readLevel (slab : Slab Node) (level : Level) : List Resting :=
  (follow slab (fun acc _ node => .again (acc ++ [node.toOrder.resting])) id id slab.turns
    level.head []).getD []

/-- The price-time book that a concrete book stands for. -/
def OrderBook.view (b : OrderBook) : PriceTime.Book where
  config := b.config
  bids := b.bids.levels.mapValues (readLevel b.slab)
  asks := b.asks.levels.mapValues (readLevel b.slab)
  positions := b.positions

/-- The queues of a layout without their slots. -/
def ladderOf (m : Queues) : Ladder := m.mapValues fun q => q.map fun x => x.2.resting

theorem OrderBook.view_side (b : OrderBook) (side : Side) :
    b.view.side side = (b.sideBook side).levels.mapValues (readLevel b.slab) := by
  cases side <;> rfl

theorem Layout.length_le_live {L : Layout} {side : Side} {p : Price}
    (stored : (L.side side).get? p = some q) : q.length ≤ L.live.length := by
  have split := (L.live_perm side p).length_eq
  rw [Layout.queue, stored, Option.getD_some, length_append] at split
  omega

namespace Represents

variable {sha256 : Sha256} {b : OrderBook} {L : Layout} {side : Side} {p : Price}

variable (h : Represents sha256 b L)
include h

variable (stored : (L.side side).get? p = some q)
include stored

theorem length_lt_turns : q.length < b.slab.turns := by
  have short := Layout.length_le_live stored
  have counted : b.slab.len ≤ b.slab.entries.length := by
    rw [h.sound.len_eq]
    exact countP_le_length
  rw [← h.len] at short
  rw [Slab.turns]
  omega

theorem nil_notMem : nil ∉ slotsOf q :=
  nil_notMem_slots h.sound ((h.laid side).queues p q stored).linked

theorem follow_level {ρ : Type} (body : σ → Nat → Node → Turn σ ρ) (ended broken : σ → ρ) (s : σ) :
    follow b.slab body ended broken b.slab.turns (levelOf q).head s =
      some (scanQueue body ended nil q s) :=
  follow_eq ((h.laid side).queues p q stored).linked (h.nil_notMem stored)
    (h.length_lt_turns stored) s

theorem readLevel_eq : readLevel b.slab (levelOf q) = q.map fun x => x.2.resting := by
  rw [readLevel, h.follow_level stored,
    scanQueue_fold (fun acc o => acc ++ [o.resting]) fun _ _ _ => rfl]
  have collect : ∀ (l : List Slotted) (acc : List Resting),
      l.foldl (fun acc x => acc ++ [x.2.resting]) acc = acc ++ l.map fun x => x.2.resting := by
    intro l
    induction l with
    | nil => simp
    | cons x rest ih => simp [ih]
  exact collect q []

omit stored

/-- The view of a book that stores a layout is the layout without its slots. -/
theorem view_side (side : Side) : b.view.side side = ladderOf (L.side side) := by
  rw [OrderBook.view_side, (h.laid side).levels_eq, ladderOf]
  ext1 p
  rw [OrdMap.get?_mapValues, OrdMap.get?_mapValues, OrdMap.get?_mapValues]
  cases stored : (L.side side).get? p with
  | none => rfl
  | some q => exact congrArg some (h.readLevel_eq stored)

end Represents

end Dexos.Clob
