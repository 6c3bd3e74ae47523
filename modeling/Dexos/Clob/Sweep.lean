import Mathlib.Algebra.Order.BigOperators.Group.List
import Dexos.Clob.Ladder

/-!
# What matching does

Facts about matching in the price-time book: it comes to an end, the fills it reports are
well formed and in order, and it stops only when the taker is exhausted, nothing crosses
or self-trade prevention interferes.
-/

namespace Dexos.Clob.PriceTime.Book

open Foundations List Option OrderBook Bounded

/-- The orders a taker matches against, in priority order. -/
def Progress.makers (s : Progress) (taker : NewOrder) : List (Price × Resting) :=
  priority taker.side.opposite (s.book.side taker.side.opposite)

/-- The queues a taker matches against. -/
def Progress.ladder (s : Progress) (taker : NewOrder) : Ladder :=
  s.book.side taker.side.opposite

@[simp] theorem side_setSide_self (b : Book) (side : Side) (m : Ladder) :
    (b.setSide side m).side side = m := by
  cases side <;> rfl

@[simp] theorem side_setSide_opposite (b : Book) (side : Side) (m : Ladder) :
    (b.setSide side.opposite m).side side = b.side side := by
  cases side <;> rfl

@[simp] theorem config_setSide (b : Book) (side : Side) (m : Ladder) :
    (b.setSide side m).config = b.config := by
  cases side <;> rfl

@[simp] theorem positions_setSide (b : Book) (side : Side) (m : Ladder) :
    (b.setSide side m).positions = b.positions := by
  cases side <;> rfl

variable {o : NewOrder} {isMarket : Bool} {s s' : Progress} {quantity : Quantity}
  {fills : List Fill} {p : Price}

/-- Prices behind one that does not cross do not cross. -/
theorem crosses_mono {side : Side} {price p p' : Price}
    (ahead : Ahead side.opposite p p') (apart : crosses side isMarket price p = false) :
    crosses side isMarket price p' = false := by
  cases side with
  | bid =>
    have order : p.val ≤ p'.val := ahead
    simp only [crosses] at apart ⊢
    split_ifs at apart ⊢
    simp only [decide_eq_false_iff_not] at apart ⊢
    omega
  | ask =>
    have order : p'.val ≤ p.val := ahead
    simp only [crosses] at apart ⊢
    split_ifs at apart ⊢
    simp only [decide_eq_false_iff_not] at apart ⊢
    omega

/-- Matching cannot go on when it was stopped or the taker is exhausted. -/
theorem matchStep_of_idle (idle : s.stopped = true ∨ s.remaining.val ≤ 0) :
    matchStep o isMarket s = none := by
  rw [matchStep, if_pos]
  simpa using idle

section Head

variable {p : Price} {r : Resting}
  {rest : List (Price × Resting)}

/-- Matching cannot go on when no maker is left. -/
theorem matchStep_of_nil (stocked : Stocked (s.ladder o)) (shape : s.makers o = []) :
    matchStep o isMarket s = none := by
  have empty : best o.side.opposite (s.book.side o.side.opposite) = none :=
    priority_eq_nil stocked shape
  rw [matchStep, empty]
  exact ite_self none

/-- Matching cannot go on when the first maker does not cross. -/
theorem matchStep_of_apart (stocked : Stocked (s.ladder o)) (shape : s.makers o = (p, r) :: rest)
    (apart : crosses o.side isMarket o.price p = false) : matchStep o isMarket s = none := by
  obtain ⟨q, levels, first, -⟩ := priority_eq_cons stocked shape
  have top : best o.side.opposite (s.book.side o.side.opposite) = some p :=
    best_of_bestFirst first
  rw [matchStep, top]
  simp [apart]

/-- A running taker meets the queue at the best price if it crosses. -/
theorem matchStep_at (running : s.stopped = false) (unfilled : 0 < s.remaining.val)
    (top : best o.side.opposite (s.book.side o.side.opposite) = some p)
    (crossing : crosses o.side isMarket o.price p = true) :
    matchStep o isMarket s = matchHead o s p (s.book.queue o.side.opposite p) := by
  rw [matchStep, top, if_neg (by simp [running, unfilled])]
  simp only [crossing, if_true]

/-- Otherwise the first maker is met. -/
theorem matchStep_of_cons (stocked : Stocked (s.ladder o)) (shape : s.makers o = (p, r) :: rest)
    (running : s.stopped = false) (unfilled : 0 < s.remaining.val)
    (crossing : crosses o.side isMarket o.price p = true) :
    ∃ q levels, bestFirst o.side.opposite (s.ladder o) = (p, r :: q) :: levels ∧
      rest = q.map (fun x => (p, x)) ++ levels.flatMap (fun e => e.2.map fun x => (e.1, x)) ∧
      matchStep o isMarket s = matchHead o s p (r :: q) := by
  obtain ⟨q, levels, first, tail⟩ := priority_eq_cons stocked shape
  have top : best o.side.opposite (s.book.side o.side.opposite) = some p :=
    best_of_bestFirst first
  have queued : s.book.queue o.side.opposite p = r :: q := by
    exact congrArg (·.getD []) (get?_of_bestFirst first)
  refine ⟨q, levels, first, tail, ?_⟩
  rw [matchStep_at running unfilled top crossing, queued]

end Head

/-! ## The steps -/

/-- What one step of matching does to the first maker. -/
inductive Step (o : NewOrder) (s : Progress) (p : Price) (r : Resting)
    (rest : List (Price × Resting)) (s' : Progress) : Prop
  /-- The taker is cancelled. -/
  | halt (own : r.account = o.account) (policy : s.book.config.stp = .cancelTaker)
      (same : s' = { s with stopped := true })
  /-- The maker is cancelled, and with it the taker or not. -/
  | withdraw (own : r.account = o.account) (policy : s.book.config.stp ≠ .cancelTaker)
      (stopped : s'.stopped = decide (s.book.config.stp = .cancelBoth))
      (left : s'.makers o = rest) (remaining : s'.remaining = s.remaining)
      (fills : s'.fills = s.fills)
  /-- The maker is filled. -/
  | consume (other : r.account ≠ o.account) (covered : r.remaining.val ≤ s.remaining.val)
      (running : s'.stopped = false) (left : s'.makers o = rest)
      (remaining : s'.remaining.val = s.remaining.val - r.remaining.val)
      (fills : s'.fills = s.fills ++ [fillOf o (r.at o.side.opposite p) r.remaining])
  /-- The maker is filled in part, and the taker in full. -/
  | nibble (other : r.account ≠ o.account) (short : s.remaining.val < r.remaining.val)
      (running : s'.stopped = false) (remaining : s'.remaining.val = 0)
      (left : ∃ r' : Resting, r'.orderId = r.orderId ∧
        r'.remaining.val = r.remaining.val - s.remaining.val ∧ s'.makers o = (p, r') :: rest)
      (fills : s'.fills = s.fills ++ [fillOf o (r.at o.side.opposite p) s.remaining])

/-- What no step of matching touches, and how the makers' queues change. -/
structure Shrinks (o : NewOrder) (s s' : Progress) : Prop where
  book : ∃ m, s'.book = s.book.setSide o.side.opposite m
  stocked : Stocked (s.ladder o) → Stocked (s'.ladder o)
  levels : ∀ p q, (s'.ladder o).get? p = some q → ∃ q', (s.ladder o).get? p = some q'

theorem Shrinks.refl (o : NewOrder) (s : Progress) : Shrinks o s s where
  book := by
    refine ⟨s.book.side o.side.opposite, ?_⟩
    cases o.side <;> rfl
  stocked := id
  levels _ q stored := ⟨q, stored⟩

theorem Shrinks.config (h : Shrinks o s s') :
    s'.book.config = s.book.config := by
  obtain ⟨m, same⟩ := h.book
  rw [same, config_setSide]

theorem shrinks_of_put {q q' : List Resting} (stored : (s.ladder o).get? p = some q)
    (same : s'.book = s.book.setSide o.side.opposite (putQueue (s.ladder o) p q')) :
    Shrinks o s s' := by
  have after : s'.ladder o = putQueue (s.ladder o) p q' := by
    rw [Progress.ladder, same, side_setSide_self]
  refine ⟨⟨_, same⟩, fun stocked => ?_, fun p' q'' stored' => ?_⟩
  · rw [after]
    exact stocked.putQueue p q'
  · rw [after, get?_putQueue] at stored'
    split_ifs at stored' with here none
    · exact ⟨q, here ▸ stored⟩
    · exact ⟨q'', stored'⟩

theorem min_val (a b : I64) : (min a b).val = min a.val b.val := by
  obtain h | h := le_total a b
  · rw [min_eq_left h, min_eq_left (show a.val ≤ b.val from h)]
  · rw [min_eq_right h, min_eq_right (show b.val ≤ a.val from h)]

theorem sub_min_val {a b : I64} (ha : 0 < a.val) (hb : 0 < b.val) :
    (a.saturatingSub (min a b)).val = a.val - min a.val b.val := by
  have value := min_val a b
  rw [saturatingSub_val]
  all_goals omega

section Head

variable {p : Price} {r : Resting}

theorem matchHead_step {q : List Resting} {levels : List (Price × List Resting)}
    (first : bestFirst o.side.opposite (s.ladder o) = (p, r :: q) :: levels)
    (running : s.stopped = false) (unfilled : 0 < s.remaining.val)
    (positive : 0 < r.remaining.val) :
    ∃ s', matchHead o s p (r :: q) = some s' ∧ Shrinks o s s' ∧ Step o s p r
        (q.map (fun x => (p, x)) ++ levels.flatMap fun e => e.2.map fun x => (e.1, x)) s' := by
  have stored := get?_of_bestFirst first
  have dropped := priority_drop first
  rw [matchHead]
  split_ifs with own
  · cases policy : s.book.config.stp with
    | cancelTaker =>
      exact ⟨_, rfl, ⟨(Shrinks.refl o s).book, id, fun _ q h => ⟨q, h⟩⟩, .halt own policy rfl⟩
    | cancelMaker | cancelBoth =>
      refine ⟨_, rfl, shrinks_of_put stored rfl, .withdraw own (by simp [policy]) ?_ ?_ rfl rfl⟩
      · simp [policy, Progress.setQueue, running]
      · rw [Progress.makers]
        simp only [Progress.setQueue, side_setSide_self]
        exact dropped
  · have left : (s.remaining.saturatingSub (min s.remaining r.remaining)).val =
        s.remaining.val - min s.remaining.val r.remaining.val := sub_min_val unfilled positive
    set unsold := r.remaining.saturatingSub (min s.remaining r.remaining) with sold
    have kept : unsold.val = r.remaining.val - min s.remaining.val r.remaining.val := by
      rw [sold, min_comm, sub_min_val positive unfilled, min_comm]
    refine ⟨_, rfl, shrinks_of_put stored rfl, ?_⟩
    rcases le_or_gt r.remaining.val s.remaining.val with covered | short
    · have whole : min s.remaining r.remaining = r.remaining := min_eq_right covered
      have done : unsold.val = 0 := by rw [kept, min_eq_right covered, sub_self]
      refine .consume own covered running ?_ ?_ ?_
      · rw [Progress.makers]
        simp only [Progress.setQueue, side_setSide_self, ← sold, done, if_true]
        exact dropped
      · exact left.trans (by rw [min_eq_right covered])
      · simp only [Progress.setQueue, whole]
    · have whole : min s.remaining r.remaining = s.remaining := min_eq_left short.le
      have rest : unsold.val = r.remaining.val - s.remaining.val := by
        rw [kept, min_eq_left short.le]
      refine .nibble own short running ?_ ?_ ?_
      · exact left.trans (by rw [min_eq_left short.le, sub_self])
      · refine ⟨{ r with remaining := unsold }, rfl, rest, ?_⟩
        have some_left : unsold.val ≠ 0 := by omega
        rw [Progress.makers]
        simp only [Progress.setQueue, side_setSide_self, ← sold, some_left, if_false]
        exact priority_change first _
      · simp only [Progress.setQueue, whole]

variable {rest : List (Price × Resting)}

/-- Matching goes on when the first maker crosses. -/
theorem exists_step (stocked : Stocked (s.ladder o)) (shape : s.makers o = (p, r) :: rest)
    (running : s.stopped = false) (unfilled : 0 < s.remaining.val)
    (positive : 0 < r.remaining.val) (crossing : crosses o.side isMarket o.price p = true) :
    ∃ s', matchStep o isMarket s = some s' ∧ Shrinks o s s' ∧ Step o s p r rest s' := by
  obtain ⟨q, levels, first, rfl, same⟩ :=
    matchStep_of_cons stocked shape running unfilled crossing
  rw [same]
  exact matchHead_step first running unfilled positive

end Head

theorem matchStep_inv (stocked : Stocked (s.ladder o))
    (positive : ∀ x ∈ s.makers o, 0 < x.2.remaining.val) (next : matchStep o isMarket s = some s') :
    ∃ p r rest, s.makers o = (p, r) :: rest ∧ s.stopped = false ∧ 0 < s.remaining.val ∧
      crosses o.side isMarket o.price p = true ∧ Shrinks o s s' ∧ Step o s p r rest s' := by
  by_cases idle : s.stopped = true ∨ s.remaining.val ≤ 0
  · simp [matchStep_of_idle idle] at next
  · obtain ⟨running, unfilled⟩ : s.stopped = false ∧ 0 < s.remaining.val := by
      simpa [not_or] using idle
    cases shape : s.makers o with
    | nil => simp [matchStep_of_nil stocked shape] at next
    | cons x rest =>
      obtain ⟨p, r⟩ := x
      cases crossing : crosses o.side isMarket o.price p with
      | false => simp [matchStep_of_apart stocked shape crossing] at next
      | true =>
        have full : 0 < r.remaining.val := positive (p, r) (shape ▸ mem_cons_self)
        obtain ⟨s'', same, shrinks, step⟩ :=
          exists_step stocked shape running unfilled full crossing
        rw [next] at same
        obtain rfl := some.inj same
        exact ⟨p, r, rest, rfl, running, unfilled, crossing, shrinks, step⟩

/-! ## Runs -/

/-- Every step leaves less to do. -/
theorem pending_lt (next : matchStep o isMarket s = some s') : pending o s' < pending o s := by
  by_cases idle : s.stopped = true ∨ s.remaining.val ≤ 0
  · simp [matchStep_of_idle idle] at next
  have busy : ¬(s.stopped || decide (s.remaining.val ≤ 0)) = true := by simpa using idle
  -- Without a maker left the step is the last one, or drops an order.
  have small : ∀ t : Progress, (flatten (t.book.side o.side.opposite)).length <
        (flatten (s.book.side o.side.opposite)).length ∨ t.stopped = true ∨ t.remaining.val = 0 →
      pending o t < pending o s := by
    intro t ends
    rw [pending, pending]
    split_ifs with halted
    · exact Nat.succ_pos _
    · have going : t.stopped = false ∧ 0 < t.remaining.val := by simpa using halted
      rcases ends with fewer | stopped | exhausted
      · omega
      · simp [stopped] at going
      · omega
  rw [matchStep] at next
  cases top : best o.side.opposite (s.book.side o.side.opposite) with
  | none => simp [top] at next
  | some p =>
    simp only [top] at next
    split_ifs at next
    cases queued : s.book.queue o.side.opposite p with
    | nil => simp [queued, matchHead] at next
    | cons r later =>
      have length := length_flatten_putQueue (s.book.side o.side.opposite) p later
      rw [queue] at queued
      rw [queued, length_cons] at length
      rw [queue, queued, matchHead] at next
      split_ifs at next with own
      · cases policy : s.book.config.stp with
        | cancelTaker | cancelBoth =>
          simp only [policy, some.injEq] at next
          exact small _ (.inr (.inl (next ▸ rfl)))
        | cancelMaker =>
          simp only [policy, some.injEq] at next
          apply small
          rw [← next]
          simp only [Progress.setQueue, side_setSide_self]
          omega
      · simp only [some.injEq] at next
        apply small
        rw [← next]
        simp only [Progress.setQueue, side_setSide_self]
        obtain whole | part := le_total r.remaining s.remaining
        · have cancels : (r.remaining.saturatingSub r.remaining).val = 0 := by
            rw [saturatingSub_val] <;> omega
          simp only [min_eq_right whole, cancels, if_true]
          omega
        · have cancels : (s.remaining.saturatingSub s.remaining).val = 0 := by
            rw [saturatingSub_val] <;> omega
          simp only [min_eq_left part, cancels, or_true]

section Runs

theorem matched_of_none (last : matchStep o isMarket s = none) : matched o isMarket s = s :=
  exhaust_of_none last _

theorem matched_step (next : matchStep o isMarket s = some s') :
    matched o isMarket s = matched o isMarket s' :=
  exhaust_step (fun _ _ => pending_lt) next

/-- Matching runs to its end. -/
theorem matchStep_matched (o : NewOrder) (isMarket : Bool) (s : Progress) :
    matchStep o isMarket (matched o isMarket s) = none :=
  exhaust_done (fun _ _ => pending_lt) s

theorem matched_invariant {I : Progress → Prop}
    (keep : ∀ s s', matchStep o isMarket s = some s' → I s → I s') (start : I s) :
    I (matched o isMarket s) :=
  exhaust_invariant keep _ start

end Runs

/-! ## Fills -/

/-- The total quantity of some fills. -/
def filledBy (fills : List Fill) : Int := (fills.map fun f => f.quantity.val).sum

/-- The fills of one taker: proper, in priority order, no maker twice. -/
structure FillsOk (o : NewOrder) (fills : List Fill) : Prop where
  proper : ∀ f ∈ fills, 0 < f.price.val ∧ 0 < f.quantity.val ∧ f.makerOrder ≠ o.orderId ∧
    f.makerAccount ≠ o.account
  taker : ∀ f ∈ fills, f.takerOrder = o.orderId ∧ f.takerAccount = o.account ∧ f.takerSide = o.side
  ordered : fills.Pairwise fun a b => Ahead o.side.opposite a.price b.price
  makers : (fills.map Fill.makerOrder).Nodup

theorem FillsOk.nil (o : NewOrder) : FillsOk o [] := by
  constructor <;> simp

theorem FillsOk.snoc (h : FillsOk o fills) {r : Resting} (priced : 0 < p.val)
    (positive : 0 < quantity.val) (fresh : r.orderId ≠ o.orderId) (other : r.account ≠ o.account)
    (behind : ∀ f ∈ fills, Ahead o.side.opposite f.price p)
    (unfilled : ∀ f ∈ fills, r.orderId ≠ f.makerOrder) :
    FillsOk o (fills ++ [fillOf o (r.at o.side.opposite p) quantity]) where
  proper := forall_mem_snoc.2 ⟨h.proper, priced, positive, fresh, other⟩
  taker := forall_mem_snoc.2 ⟨h.taker, rfl, rfl, rfl⟩
  ordered := pairwise_snoc.2 ⟨h.ordered, behind⟩
  makers := by
    rw [map_append]
    refine nodup_snoc.2 ⟨h.makers, fun taken => ?_⟩
    obtain ⟨f, hf, same⟩ := mem_map.1 taken
    exact unfilled f hf same.symm

theorem filledBy_snoc (fills : List Fill) (f : Fill) :
    filledBy (fills ++ [f]) = filledBy fills + f.quantity.val := by
  simp [filledBy]

theorem FillsOk.filledBy_pos (h : FillsOk o fills) :
    0 < filledBy fills ↔ fills ≠ [] := by
  cases fills with
  | nil => simp [filledBy]
  | cons f rest =>
    have later : 0 ≤ filledBy rest := by
      apply sum_nonneg
      intro v hv
      obtain ⟨g, hg, rfl⟩ := mem_map.1 hv
      exact (h.proper g (mem_cons_of_mem _ hg)).2.1.le
    have first := (h.proper f mem_cons_self).2.1
    have sum : filledBy (f :: rest) = f.quantity.val + filledBy rest := by simp [filledBy]
    exact ⟨fun _ => cons_ne_nil _ _, fun _ => by omega⟩

/-- What holds all along matching a quantity. -/
structure Fair (o : NewOrder) (quantity : Quantity) (s : Progress) : Prop where
  stocked : Stocked (s.ladder o)
  makers : ∀ x ∈ s.makers o, 0 < x.1.val ∧ 0 < x.2.remaining.val ∧ x.2.orderId ≠ o.orderId
  ids : ((s.makers o).map fun x => x.2.orderId).Nodup
  nonneg : 0 ≤ s.remaining.val
  total : filledBy s.fills + s.remaining.val = quantity.val
  fills : FillsOk o s.fills
  behind : ∀ f ∈ s.fills, ∀ x ∈ s.makers o, Ahead o.side.opposite f.price x.1
  gone : 0 < s.remaining.val → ∀ f ∈ s.fills, ∀ x ∈ s.makers o, x.2.orderId ≠ f.makerOrder

namespace Fair

variable {quantity : Quantity}

theorem step (h : Fair o quantity s) (next : matchStep o isMarket s = some s') :
    Fair o quantity s' := by
  obtain ⟨p, r, rest, shape, running, unfilled, -, shrinks, moved⟩ :=
    matchStep_inv h.stocked (fun x hx => (h.makers x hx).2.1) next
  have first : (p, r) ∈ s.makers o := shape ▸ mem_cons_self
  have later : ∀ x ∈ rest, x ∈ s.makers o := fun x hx => shape ▸ mem_cons_of_mem _ hx
  have head := h.makers _ first
  have ids := h.ids
  rw [shape, map_cons, nodup_cons] at ids
  have ahead : ∀ x ∈ rest, Ahead o.side.opposite p x.1 := by
    have sorted := priority_ahead o.side.opposite (s.book.side o.side.opposite)
    rw [show priority _ _ = (p, r) :: rest from shape] at sorted
    exact (pairwise_cons.1 sorted).1
  have stocked := shrinks.stocked h.stocked
  have total := h.total
  cases moved with
  | halt own policy same =>
    subst same
    exact { h with }
  | withdraw own policy stopped left remaining fills =>
    refine ⟨stocked, ?_, ?_, remaining ▸ h.nonneg, ?_, fills ▸ h.fills, ?_, ?_⟩
    · rw [left]
      exact fun x hx => h.makers x (later x hx)
    · rw [left]
      exact ids.2
    · rwa [fills, remaining]
    · rw [fills, left]
      exact fun f hf x hx => h.behind f hf x (later x hx)
    · rw [fills, left, remaining]
      exact fun some_left f hf x hx => h.gone some_left f hf x (later x hx)
  | consume other covered running' left remaining fills =>
    refine ⟨stocked, ?_, ?_, by omega, ?_, ?_, ?_, ?_⟩
    · rw [left]
      exact fun x hx => h.makers x (later x hx)
    · rw [left]
      exact ids.2
    · rw [fills, filledBy_snoc]
      change _ + r.remaining.val + _ = _
      omega
    · rw [fills]
      exact h.fills.snoc head.1 head.2.1 head.2.2 other (fun f hf => h.behind f hf _ first)
        fun f hf => h.gone unfilled f hf _ first
    · rw [fills, left]
      exact forall_mem_snoc.2 ⟨fun f hf x hx => h.behind f hf x (later x hx), ahead⟩
    · rw [fills, left]
      refine fun _ => forall_mem_snoc.2 ⟨fun f hf x hx => h.gone unfilled f hf x (later x hx), ?_⟩
      exact fun x hx same => ids.1 (mem_map.2 ⟨x, hx, same⟩)
  | nibble other short running' remaining left fills =>
    obtain ⟨r', id, kept, left⟩ := left
    refine ⟨stocked, ?_, ?_, remaining.ge, ?_, ?_, ?_, ?_⟩
    · rw [left]
      have positive : 0 < r'.remaining.val := by omega
      exact forall_mem_cons.2
        ⟨⟨head.1, positive, id ▸ head.2.2⟩, fun x hx => h.makers x (later x hx)⟩
    · rwa [left, map_cons, nodup_cons, id]
    · rw [fills, filledBy_snoc]
      change _ + s.remaining.val + _ = _
      omega
    · rw [fills]
      exact h.fills.snoc head.1 unfilled head.2.2 other (fun f hf => h.behind f hf _ first)
        fun f hf => h.gone unfilled f hf _ first
    · rw [fills, left]
      refine forall_mem_snoc.2 ⟨fun f hf => forall_mem_cons.2 ⟨h.behind f hf (p, r) first, ?_⟩,
        forall_mem_cons.2 ⟨Ahead.refl _ _, ahead⟩⟩
      exact fun x hx => h.behind f hf x (later x hx)
    · intro positive
      omega

theorem matched (h : Fair o quantity s) : Fair o quantity (matched o isMarket s) :=
  matched_invariant (fun _ _ next fair => fair.step next) h

end Fair

/-! ## Depth -/

/-- The executable depth for a taker, up to what it needs: own orders are skipped or end the
scan, as the policy says. -/
def depth (o : NewOrder) (isMarket : Bool) (stp : StpPolicy) (need : I64) :
    List (Price × Resting) → I64 → I64
  | [], total => total
  | (p, r) :: rest, total =>
    if crosses o.side isMarket o.price p then
      if r.account = o.account then
        if stp = .cancelMaker then depth o isMarket stp need rest total else total
      else
        let total := total.saturatingAdd r.remaining
        if need.val ≤ total.val then total else depth o isMarket stp need rest total
    else total

/-- Matching fills a taker iff the depth covers it. -/
theorem depth_lt_iff {need total : I64}
    (stocked : Stocked (s.ladder o)) (positive : ∀ x ∈ s.makers o, 0 < x.2.remaining.val)
    (running : s.stopped = false) (unfilled : 0 < s.remaining.val) (counted : 0 ≤ total.val)
    (split : total.val + s.remaining.val = need.val) :
    (depth o isMarket s.book.config.stp need (s.makers o) total).val < need.val ↔
      (matched o isMarket s).remaining.val ≠ 0 := by
  induction shape : s.makers o generalizing s total with
  | nil =>
    rw [matched_of_none (matchStep_of_nil stocked shape), depth]
    omega
  | cons x rest ih =>
    obtain ⟨p, r⟩ := x
    have full : 0 < r.remaining.val := positive (p, r) (shape ▸ mem_cons_self)
    have later : ∀ x ∈ rest, 0 < x.2.remaining.val := fun x hx =>
      positive x (shape ▸ mem_cons_of_mem _ hx)
    rw [depth]
    cases crossing : crosses o.side isMarket o.price p with
    | false =>
      rw [matched_of_none (matchStep_of_apart stocked shape crossing), if_neg (by simp)]
      omega
    | true =>
      obtain ⟨s', next, shrinks, moved⟩ :=
        exists_step stocked shape running unfilled full crossing
      have stocked' := shrinks.stocked stocked
      rw [matched_step next, if_pos rfl]
      cases moved with
      | halt own policy same =>
        rw [if_pos own, if_neg (by simp [policy]), same]
        change total.val < need.val ↔ s.remaining.val ≠ 0
        omega
      | withdraw own policy stopped left remaining fills =>
        rw [if_pos own]
        by_cases both : s.book.config.stp = .cancelBoth
        · have last : matchStep o isMarket s' = none :=
            matchStep_of_idle (.inl (by simp [stopped, both]))
          rw [matched_of_none last, if_neg (by simp [both]), remaining]
          omega
        · have maker : s.book.config.stp = .cancelMaker := by
            cases which : s.book.config.stp with
            | cancelMaker => rfl
            | cancelTaker => exact absurd which policy
            | cancelBoth => exact absurd which both
          rw [if_pos maker, ← shrinks.config]
          exact ih stocked' (left ▸ later) (by simp [stopped, both])
            (remaining ▸ unfilled) counted (remaining ▸ split) left
      | consume other covered running' left remaining fills =>
        have sum : (total.saturatingAdd r.remaining).val = total.val + r.remaining.val := by
          rw [saturatingAdd_val] <;> omega
        rw [if_neg other]
        by_cases enough : need.val ≤ (total.saturatingAdd r.remaining).val
        · have last : matchStep o isMarket s' = none :=
            matchStep_of_idle (.inr (by omega))
          rw [matched_of_none last, if_pos enough]
          omega
        · rw [if_neg enough, ← shrinks.config]
          exact ih stocked' (left ▸ later) running' (by omega) (by omega) (by omega) left
      | nibble other short running' remaining left fills =>
        have enough : need.val ≤ (total.saturatingAdd r.remaining).val := by
          rw [saturatingAdd_val] <;> omega
        have last : matchStep o isMarket s' = none :=
          matchStep_of_idle (.inr remaining.le)
        rw [if_neg other, matched_of_none last, if_pos enough]
        omega

/-- A taker that is neither filled nor stopped crosses nothing that is left. -/
theorem matched_apart
    (fair : Fair o quantity s) (running : (matched o isMarket s).stopped = false)
    (unfilled : 0 < (matched o isMarket s).remaining.val) {q : List Resting}
    (stored : ((matched o isMarket s).ladder o).get? p = some q) :
    crosses o.side isMarket o.price p = false := by
  have ended := matchStep_matched o isMarket s
  have fair' := @Fair.matched o isMarket s quantity fair
  generalize matched o isMarket s = t at *
  obtain ⟨r, rest, rfl⟩ := exists_cons_of_ne_nil (fair'.stocked p q stored)
  have listed : (p, r) ∈ t.makers o := mem_priority.2 ⟨_, stored, mem_cons_self⟩
  cases shape : t.makers o with
  | nil => simp [shape] at listed
  | cons x later =>
    obtain ⟨p', r'⟩ := x
    have first : crosses o.side isMarket o.price p' = false := by
      by_contra crossing
      have full := (fair'.makers (p', r') (shape ▸ mem_cons_self)).2.1
      obtain ⟨s', next, -⟩ := exists_step fair'.stocked shape running unfilled full
        (Bool.of_not_eq_false crossing)
      simp [ended] at next
    have ahead : Ahead o.side.opposite p' p := by
      have sorted := priority_ahead o.side.opposite (t.book.side o.side.opposite)
      rw [show priority _ _ = (p', r') :: later from shape] at sorted
      rw [shape] at listed
      obtain here | later := mem_cons.1 listed
      · rw [Prod.mk.injEq] at here
        rw [here.1]
        exact Ahead.refl _ _
      · exact (pairwise_cons.1 sorted).1 _ later
    exact crosses_mono ahead first

end Dexos.Clob.PriceTime.Book
