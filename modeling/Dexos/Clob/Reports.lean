import Dexos.Clob.Resting

/-!
# What a report says

A successful placement reports its fills and the cancellations of self-trade prevention.
The resting orders after it are those before it, drawn down by the fills, without the
cancelled orders, and with the rest of the taker if it rests.
-/

namespace Dexos.Clob.PriceTime.Book

open Foundations List Function OrderBook

variable {f : Fill} {id : OrderId}

/-! ## Proper books -/

/-- What holds of every book that calls can reach. -/
structure Proper (b : Book) : Prop where
  stocked : ∀ side, Stocked (b.side side)
  distinct : b.DistinctIds
  positive : ∀ side p r, b.Holds side p r → 0 < p.val ∧ 0 < r.remaining.val
  fits : ∀ side p q, (b.side side).get? p = some q → quantityOf q ≤ i64Max
  apart : ∀ p p' q q', b.bids.get? p = some q → b.asks.get? p' = some q' → p < p'
  room : b.count ≤ b.config.capacity

variable {b : Book} {side : Side} {p : Price} {r : Resting} {q q' : List Resting}
  {fills : List Fill}

theorem get?_side_put (b : Book) (side side' : Side) (p p' : Price) (q : List Resting) :
    ((b.put side p q).side side').get? p' =
      if side' = side ∧ p' = p then (if q.isEmpty then none else some q)
      else (b.side side').get? p' := by
  rw [put]
  by_cases same : side' = side
  · subst same
    rw [side_setSide_self, get?_putQueue]
    simp
  · have opposite : side = side'.opposite := by
      cases side <;> cases side' <;> first | rfl | exact absurd rfl same
    rw [if_neg fun both => same both.1, opposite, side_setSide_opposite]

theorem config_put (b : Book) (side : Side) (p : Price) (q : List Resting) :
    (b.put side p q).config = b.config :=
  config_setSide b side _

theorem positions_put (b : Book) (side : Side) (p : Price) (q : List Resting) :
    (b.put side p q).positions = b.positions :=
  positions_setSide b side _

def Level (p : Price) (q : List Resting) : Prop :=
  q ≠ [] ∧ 0 < p.val ∧ (∀ r ∈ q, 0 < r.remaining.val) ∧ quantityOf q ≤ i64Max

theorem Proper.level (h : b.Proper) (stored : (b.side side).get? p = some q) : Level p q := by
  obtain ⟨x, rest, shape⟩ := exists_cons_of_ne_nil (h.stocked _ _ _ stored)
  have held : ∀ r ∈ q, b.Holds side p r := fun r listed => ⟨q, stored, listed⟩
  exact ⟨h.stocked _ _ _ stored, (h.positive _ _ x (held x (by simp [shape]))).1,
    fun r listed => (h.positive _ _ r (held r listed)).2, h.fits _ _ _ stored⟩

theorem Proper.of_levels (levels : ∀ side p q, (b.side side).get? p = some q → Level p q)
    (distinct : b.DistinctIds)
    (apart : ∀ p p' q q', b.bids.get? p = some q → b.asks.get? p' = some q' → p < p')
    (room : b.count ≤ b.config.capacity) : b.Proper where
  stocked side p q found := (levels side p q found).1
  distinct := distinct
  positive side p r held := by
    obtain ⟨q, found, listed⟩ := held
    obtain ⟨-, priced, positive, -⟩ := levels side p q found
    exact ⟨priced, positive r listed⟩
  fits side p q found := (levels side p q found).2.2.2
  apart := apart
  room := room

theorem Proper.thin (h : b.Proper) (stored : (b.side side).get? p = some q)
    (ids : (q'.map Resting.orderId).Sublist (q.map Resting.orderId))
    (positive : ∀ r ∈ q', 0 < r.remaining.val) (less : quantityOf q' ≤ quantityOf q) :
    (b.put side p q').Proper := by
  have queued := queue_of_stored stored
  have levels : ∀ side' p' q₁, ((b.put side p q').side side').get? p' = some q₁ →
      ∃ q₂, (b.side side').get? p' = some q₂ := by
    intro side' p' q₁ found
    rw [get?_side_put] at found
    split_ifs at found with here
    · obtain ⟨rfl, rfl⟩ := here
      exact ⟨q, stored⟩
    · exact ⟨q₁, found⟩
  refine .of_levels (fun side' p' q₁ found => ?_) (h.distinct.put (queued ▸ ids)) ?_ ?_
  · rw [get?_side_put] at found
    split_ifs at found with here empty
    · obtain ⟨rfl, rfl⟩ := here
      obtain rfl := Option.some.inj found
      obtain ⟨-, priced, -, fits⟩ := h.level stored
      exact ⟨fun none => empty (isEmpty_iff.2 none), priced, positive, less.trans fits⟩
    · exact h.level found
  · intro p₁ p₂ q₁ q₂ bid ask
    obtain ⟨q₃, bid⟩ := levels .bid p₁ q₁ bid
    obtain ⟨q₄, ask⟩ := levels .ask p₂ q₂ ask
    exact h.apart p₁ p₂ q₃ q₄ bid ask
  · rw [config_put]
    have shorter : q'.length ≤ q.length := by simpa using ids.length_le
    exact (count_put_le (queued ▸ shorter)).trans h.room

/-- Resting an order that does not cross keeps a book proper. -/
theorem Proper.append (h : b.Proper) (priced : 0 < p.val) (positive : 0 < r.remaining.val)
    (fresh : b.lookup r.orderId = none) (fits : quantityOf (b.queue side p ++ [r]) ≤ i64Max)
    (apart : ∀ p' q', (b.side side.opposite).get? p' = some q' → crosses side false p p' = false)
    (room : b.count < b.config.capacity) :
    (b.put side p (b.queue side p ++ [r])).Proper := by
  have levels : ∀ side' p' q₁,
      ((b.put side p (b.queue side p ++ [r])).side side').get? p' = some q₁ →
      (side' = side ∧ p' = p ∧ q₁ = b.queue side p ++ [r]) ∨ (b.side side').get? p' = some q₁ := by
    intro side' p' q₁ found
    rw [get?_side_put] at found
    split_ifs at found with here
    · exact .inl ⟨here.1, here.2, (Option.some.inj found).symm⟩
    · exact .inr found
  refine .of_levels (fun side' p' q₁ found => ?_) (h.distinct.append fresh) ?_ ?_
  · obtain ⟨rfl, rfl, rfl⟩ | old := levels side' p' q₁ found
    · refine ⟨by simp, priced, forall_mem_snoc.2 ⟨fun r' old => ?_, positive⟩, fits⟩
      exact (h.positive _ _ _ (mem_queue.1 old)).2
    · exact h.level old
  · intro p₁ p₂ q₁ q₂ bid ask
    obtain ⟨same, rfl, -⟩ | oldBid := levels .bid p₁ q₁ bid
    · subst same
      obtain ⟨⟨⟩, -⟩ | oldAsk := levels .ask p₂ q₂ ask
      have below := apart p₂ q₂ oldAsk
      simpa [crosses] using below
    · obtain ⟨same, rfl, -⟩ | oldAsk := levels .ask p₂ q₂ ask
      · subst same
        have above := apart p₁ q₁ oldBid
        simpa [crosses] using above
      · exact h.apart p₁ p₂ q₁ q₂ oldBid oldAsk
  · rwa [config_put, count_append]

theorem Proper.empty (config : BookConfig) (positions : OrdMap AccountId Quantity) :
    (Book.mk config ∅ ∅ positions).Proper := by
  refine .of_levels (fun side p q found => ?_) nodup_nil (by rintro p p' q q' ⟨⟩) (Nat.zero_le _)
  cases side <;> cases found

/-! ## Drawing down -/

/-- The resting orders, by id. -/
abbrev Lookup := OrderId → Option Order

/-- A fill takes its quantity off its maker. -/
def drawn (f : Fill) (l : Lookup) : Lookup :=
  update l f.makerOrder ((l f.makerOrder).bind fun m =>
    let left := m.remaining.saturatingSub f.quantity
    if left.val = 0 then none else some (m.withRemaining left))

/-- The resting orders after some fills. -/
def afterFills (l : Lookup) (fills : List Fill) : Lookup := fills.foldl (fun l f => drawn f l) l

/-- The resting orders without the cancelled ones. -/
def withdrawn (cancelled : List StpCancellation) (l : Lookup) : Lookup := fun id =>
  if id ∈ cancelled.map StpCancellation.orderId then none else l id

/-- A fill is of a resting order that has its quantity. -/
structure Covers (l : Lookup) (f : Fill) (m : Order) : Prop where
  found : l f.makerOrder = some m
  account : m.account = f.makerAccount
  side : m.side = f.takerSide.opposite
  price : m.price = f.price
  positive : 0 < f.quantity.val
  enough : f.quantity.val ≤ m.remaining.val

/-- Every fill is of an order that rests when it happens. -/
def Covered : Lookup → List Fill → Prop
  | _, [] => True
  | l, f :: rest => (∃ m, Covers l f m) ∧ Covered (drawn f l) rest

theorem afterFills_append (l : Lookup) (fills : List Fill) (f : Fill) :
    afterFills l (fills ++ [f]) = drawn f (afterFills l fills) := by
  simp [afterFills]

theorem covered_append {l : Lookup} :
    Covered l (fills ++ [f]) ↔ Covered l fills ∧ ∃ m, Covers (afterFills l fills) f m := by
  induction fills generalizing l with
  | nil => simp [Covered, afterFills]
  | cons g rest ih =>
    simp only [cons_append, Covered, ih, and_assoc]
    rfl

theorem drawn_of_ne (l : Lookup) (other : id ≠ f.makerOrder) : drawn f l id = l id :=
  update_of_ne other _ _

theorem withdrawn_append (cancelled : List StpCancellation) (c : StpCancellation) (l : Lookup) :
    withdrawn (cancelled ++ [c]) l = update (withdrawn cancelled l) c.orderId none := by
  funext id
  by_cases here : id = c.orderId
  · simp [withdrawn, here]
  · simp [withdrawn, here]

/-- A fill of an order that was not cancelled. -/
theorem drawn_withdrawn {cancelled : List StpCancellation}
    (kept : f.makerOrder ∉ cancelled.map StpCancellation.orderId) (l : Lookup) :
    drawn f (withdrawn cancelled l) = withdrawn cancelled (drawn f l) := by
  funext id
  have same : withdrawn cancelled l f.makerOrder = l f.makerOrder := if_neg kept
  by_cases here : id = f.makerOrder
  · subst here
    rw [withdrawn, if_neg kept, drawn, drawn, update_self, update_self, same]
  · rw [drawn_of_ne _ here, withdrawn, withdrawn, drawn_of_ne _ here]

/-! ## Traces of matching -/

/-- The ways in which a taker meets the first maker, as writes to the book. -/
inductive Move (o : NewOrder) (s : Progress) (p : Price) (r : Resting) (later : List Resting)
    (s' : Progress) : Prop
  | halt (own : r.account = o.account) (same : s' = { s with stopped := true })
  | withdraw (own : r.account = o.account)
      (book : s'.book = s.book.put o.side.opposite p later)
      (remaining : s'.remaining = s.remaining) (fills : s'.fills = s.fills)
      (cancelled : s'.stpCancelled = s.stpCancelled ++ [stpCancellation (r.at o.side.opposite p)])
  | fill (other : r.account ≠ o.account)
      (fills : s'.fills = s.fills ++
        [fillOf o (r.at o.side.opposite p) (min s.remaining r.remaining)])
      (cancelled : s'.stpCancelled = s.stpCancelled)
      (book : s'.book = s.book.put o.side.opposite p
        (if (r.remaining.saturatingSub (min s.remaining r.remaining)).val = 0 then later
          else { r with remaining := r.remaining.saturatingSub (min s.remaining r.remaining) } ::
            later))

variable {o : NewOrder} {isMarket : Bool} {s s' : Progress} {later : List Resting}

theorem matchHead_move (next : matchHead o s p (r :: later) = some s') : Move o s p r later s' := by
  rw [matchHead] at next
  split_ifs at next with own
  · cases policy : s.book.config.stp with
    | cancelTaker =>
      rw [policy] at next
      exact .halt own (Option.some.inj next).symm
    | cancelMaker | cancelBoth =>
      rw [policy] at next
      obtain rfl := Option.some.inj next
      exact .withdraw own rfl rfl rfl rfl
  · obtain rfl := Option.some.inj next
    exact .fill own rfl rfl rfl

/-- A step of matching meets the oldest order at a crossing price. -/
theorem matchStep_move (next : matchStep o isMarket s = some s') :
    ∃ p r later, (s.book.side o.side.opposite).get? p = some (r :: later) ∧
      0 < s.remaining.val ∧ crosses o.side isMarket o.price p = true ∧ Move o s p r later s' := by
  rw [matchStep] at next
  split_ifs at next with idle
  have unfilled : 0 < s.remaining.val := by
    simp only [Bool.or_eq_true, decide_eq_true_eq, not_or, not_le] at idle
    exact idle.2
  split at next
  · cases next
  rename_i p top
  split_ifs at next with crossing
  obtain ⟨⟨q, stored⟩, -⟩ := best_eq_some.1 top
  rw [queue_of_stored stored] at next
  cases q with
  | nil => cases next
  | cons r later => exact ⟨p, r, later, stored, unfilled, crossing, matchHead_move next⟩

/-- A book with no more orders than another one, and no other ids. -/
structure Within (b b' : Book) : Prop where
  count : b'.count ≤ b.count
  ids : ∀ side p r, b'.Holds side p r → ∃ r', b.Holds side p r' ∧ r'.orderId = r.orderId

theorem Within.refl (b : Book) : Within b b := ⟨le_rfl, fun _ _ r held => ⟨r, held, rfl⟩⟩

theorem Within.put {b b' : Book} (h : Within b b') (stored : (b'.side side).get? p = some q)
    (shorter : q'.length ≤ q.length) (ids : ∀ r ∈ q', ∃ r' ∈ q, r'.orderId = r.orderId) :
    Within b (b'.put side p q') := by
  have queued := queue_of_stored stored
  refine ⟨(count_put_le (queued ▸ shorter)).trans h.count, fun side' p' r held => ?_⟩
  rw [holds_put] at held
  split_ifs at held with here
  · obtain ⟨rfl, rfl⟩ := here
    obtain ⟨r', hr', same⟩ := ids r held
    obtain ⟨r₁, held₁, same₁⟩ := h.ids _ _ r' ⟨q, stored, hr'⟩
    exact ⟨r₁, held₁, same₁.trans same⟩
  · exact h.ids _ _ r held

theorem within_matched (o : NewOrder) (isMarket : Bool) (s : Progress) :
    Within s.book (matched o isMarket s).book := by
  apply matched_invariant (I := fun t => Within s.book t.book) _ (Within.refl s.book)
  intro t t' next within
  obtain ⟨p, r, later, stored, -, -, move⟩ := matchStep_move next
  cases move with
  | halt own same =>
    subst same
    exact within
  | withdraw own book remaining fills cancelled =>
    rw [book]
    exact within.put stored (by simp) fun x hx => ⟨x, mem_cons_of_mem _ hx, rfl⟩
  | fill other fills cancelled book =>
    rw [book]
    split_ifs with empty
    · exact within.put stored (by simp) fun x hx => ⟨x, mem_cons_of_mem _ hx, rfl⟩
    · exact within.put stored (by simp) (forall_mem_cons.2
        ⟨⟨r, mem_cons_self, rfl⟩, fun x hx => ⟨x, mem_cons_of_mem _ hx, rfl⟩⟩)

/-- What the fills and the cancellations say about the book, all along matching. -/
structure Traced (o : NewOrder) (isMarket : Bool) (b : Book) (s : Progress) : Prop where
  proper : s.book.Proper
  config : s.book.config = b.config
  positions : s.book.positions = b.positions
  lookup : s.book.lookup = withdrawn s.stpCancelled (afterFills b.lookup s.fills)
  covered : Covered b.lookup s.fills
  limit : ∀ f ∈ s.fills, crosses o.side isMarket o.price f.price = true
  own : ∀ c ∈ s.stpCancelled, c.account = o.account ∧ c.side = o.side.opposite ∧
    ∃ m, afterFills b.lookup s.fills c.orderId = some m ∧ stpCancellation m = c
  cancelled : (s.stpCancelled.map StpCancellation.orderId).Nodup
  quiet : s.fills = [] → s.stpCancelled = [] → s.book = b

theorem Traced.start (proper : b.Proper) (o : NewOrder) (isMarket : Bool) (quantity : Quantity) :
    Traced o isMarket b ⟨b, quantity, [], [], false⟩ where
  proper := proper
  config := rfl
  positions := rfl
  lookup := by
    funext id
    simp [withdrawn, afterFills]
  covered := trivial
  limit := by simp
  own := by simp
  cancelled := by simp
  quiet _ _ := rfl

variable (h : Traced o isMarket b s)
include h

/-- A resting order was not cancelled. -/
theorem Traced.notMem {m : Order} (found : s.book.lookup id = some m) :
    id ∉ s.stpCancelled.map StpCancellation.orderId ∧ afterFills b.lookup s.fills id = some m := by
  rw [h.lookup, withdrawn] at found
  split_ifs at found with gone
  exact ⟨gone, found⟩

theorem Traced.step (next : matchStep o isMarket s = some s') : Traced o isMarket b s' := by
  obtain ⟨p, r, later, stored, unfilled, crossing, move⟩ := matchStep_move next
  have held : s.book.Holds o.side.opposite p r := ⟨_, stored, mem_cons_self⟩
  have found : s.book.lookup r.orderId = some (r.at o.side.opposite p) :=
    lookup_of_holds h.proper.distinct held
  obtain ⟨kept, before⟩ := h.notMem found
  have laterPositive : ∀ x ∈ later, 0 < x.remaining.val := fun x hx =>
    (h.proper.positive _ _ x ⟨_, stored, mem_cons_of_mem _ hx⟩).2
  have rPositive := (h.proper.positive _ _ _ held).2
  have dropped := lookup_drop (l := []) h.proper.distinct stored
  have thinned : (s.book.put o.side.opposite p later).Proper := by
    refine h.proper.thin stored ((sublist_cons_self r later).map _) laterPositive ?_
    rw [quantityOf_cons]
    omega
  cases move with
  | halt own same =>
    subst same
    exact { h with }
  | withdraw own book remaining fills cancelled =>
    refine ⟨?_, ?_, ?_, ?_, fills ▸ h.covered, fills ▸ h.limit, ?_, ?_, ?_⟩
    · rwa [book]
    · rw [book, config_put, h.config]
    · rw [book, positions_put, h.positions]
    · rwa [book, fills, cancelled, withdrawn_append, ← h.lookup]
    · rw [cancelled, fills]
      exact forall_mem_snoc.2 ⟨h.own, own, rfl, _, before, rfl⟩
    · rw [cancelled, map_append]
      exact nodup_snoc.2 ⟨h.cancelled, kept⟩
    · intro _ none
      rw [cancelled] at none
      simp at none
  | fill other fills cancelled book =>
    have quantity : (min s.remaining r.remaining).val = min s.remaining.val r.remaining.val :=
      min_val _ _
    have left : (r.remaining.saturatingSub (min s.remaining r.remaining)).val =
        r.remaining.val - min s.remaining.val r.remaining.val := by
      rw [min_comm, sub_min_val rPositive unfilled, min_comm]
    generalize min s.remaining r.remaining = taken at quantity left fills book
    have lookup : s'.book.lookup =
        drawn (fillOf o (r.at o.side.opposite p) taken) s.book.lookup := by
      have maker : (fillOf o (r.at o.side.opposite p) taken).makerOrder = r.orderId := rfl
      rw [book, drawn, maker, found, Option.bind_some]
      split_ifs with empty
      · rw [if_pos]
        · exact dropped
        · exact empty
      · rw [if_neg]
        · exact lookup_change (l := []) h.proper.distinct stored rfl
        · exact empty
    refine ⟨?_, ?_, ?_, ?_, ?_, ?_, ?_, cancelled ▸ h.cancelled, ?_⟩
    · rw [book]
      split_ifs with empty
      · exact thinned
      · refine h.proper.thin stored (List.Sublist.refl _) ?_ ?_
        · refine forall_mem_cons.2 ⟨?_, laterPositive⟩
          change 0 < (r.remaining.saturatingSub taken).val
          omega
        · rw [quantityOf_cons, quantityOf_cons]
          change (r.remaining.saturatingSub taken).val + _ ≤ _
          omega
    · rw [book, config_put, h.config]
    · rw [book, positions_put, h.positions]
    · rw [lookup, fills, cancelled, afterFills_append, ← drawn_withdrawn kept, ← h.lookup]
    · rw [fills]
      refine covered_append.2 ⟨h.covered, _, before, rfl, rfl, rfl, ?_, ?_⟩
      · change 0 < taken.val
        omega
      · change taken.val ≤ r.remaining.val
        omega
    · rw [fills]
      exact forall_mem_snoc.2 ⟨h.limit, crossing⟩
    · rw [cancelled, fills, afterFills_append]
      intro c hc
      obtain ⟨account, side, m, at_m, same⟩ := h.own c hc
      have apart : c.orderId ≠ r.orderId := fun eq =>
        kept (eq ▸ mem_map_of_mem hc)
      exact ⟨account, side, m, (drawn_of_ne _ apart).trans at_m, same⟩
    · intro none
      rw [fills] at none
      simp at none

theorem Traced.matched : Traced o isMarket b (matched o isMarket s) :=
  matched_invariant (fun _ _ next traced => traced.step next) h

/-! ## Placing -/

omit h

/-- What an outcome leaves resting. -/
def restedBy : OrderOutcome → Option Quantity
  | .resting remaining | .partiallyFilledResting remaining => some remaining
  | .fullyFilled | .partiallyFilledCancelled _ | .rejected => none

/-- The resting orders with what an outcome leaves of the taker. -/
def withTaker (o : NewOrder) (outcome : OrderOutcome) (l : Lookup) : Lookup :=
  match restedBy outcome with
  | none => l
  | some remaining =>
    update l o.orderId
      (some ⟨o.orderId, o.account, o.side, o.price, remaining, o.clientId⟩)

/-- The resting orders after a report. -/
def settled (o : NewOrder) (report : MatchReport) (l : Lookup) : Lookup :=
  withTaker o report.result.outcome
    (withdrawn report.stpCancelled (afterFills l report.result.fills))

/-- What the report of a placement says about the books before and after it. -/
structure Placed (o : NewOrder) (b : Book) (report : MatchReport) (b' : Book) : Prop where
  proper : b'.Proper
  config : b'.config = b.config
  positions : b'.positions = b.positions
  lookup : b'.lookup = settled o report b.lookup
  fresh : b.lookup o.orderId = none
  covered : Covered b.lookup report.result.fills
  fills : FillsOk o report.result.fills
  limit : ∀ f ∈ report.result.fills,
    crosses o.side (decide (o.orderType = .market)) o.price f.price = true
  own : ∀ c ∈ report.stpCancelled, c.account = o.account ∧ c.side = o.side.opposite ∧
    ∃ m, afterFills b.lookup report.result.fills c.orderId = some m ∧ stpCancellation m = c
  cancelled : (report.stpCancelled.map StpCancellation.orderId).Nodup
  quantity : filledBy report.result.fills +
    ((restedBy report.result.outcome).elim 0 fun remaining => remaining.val) ≤ o.quantity.val
  rests : ∀ remaining, restedBy report.result.outcome = some remaining →
    0 < remaining.val ∧ 0 < o.price.val ∧ o.orderType ≠ .market

/-- A fill draws nothing but its maker, which is not fresh. -/
theorem afterFills_of_none {l : Lookup} (absent : l id = none) :
    afterFills l fills id = none := by
  induction fills generalizing l with
  | nil => exact absent
  | cons f rest ih =>
    apply ih
    change drawn f l id = none
    by_cases here : id = f.makerOrder
    · rw [drawn, ← here, update_self, absent, Option.bind_none]
    · rw [drawn_of_ne _ here, absent]

theorem rest_eq_ok {b' : Book} {remaining : Quantity} (ok : b.rest o remaining = .ok b') :
    b' = b.put o.side o.price
        (b.queue o.side o.price ++ [⟨o.orderId, o.account, remaining, o.clientId⟩]) ∧
      quantityOf (b.queue o.side o.price) + remaining.val ≤ i64Max ∧
      b.count < b.config.capacity := by
  rw [rest] at ok
  split_ifs at ok with high full
  refine ⟨?_, not_lt.1 high, not_le.1 full⟩
  rw [← Except.ok.inj ok, put, putQueue, if_neg (by simp)]

/-- Resting what is left of a taker that crosses nothing. -/
theorem Proper.rest (h : b.Proper) {b' : Book} {remaining : Quantity} (priced : 0 < o.price.val)
    (positive : 0 < remaining.val) (fresh : b.lookup o.orderId = none)
    (apart : ∀ p' q', (b.side o.side.opposite).get? p' = some q' →
      crosses o.side false o.price p' = false)
    (ok : b.rest o remaining = .ok b') :
    b'.Proper ∧ b'.config = b.config ∧ b'.positions = b.positions ∧
      b'.lookup = update b.lookup o.orderId
        (some ⟨o.orderId, o.account, o.side, o.price, remaining, o.clientId⟩) := by
  obtain ⟨rfl, fits, room⟩ := rest_eq_ok ok
  refine ⟨?_, config_put b _ _ _, positions_put b _ _ _, lookup_append h.distinct fresh⟩
  apply h.append priced positive fresh _ apart room
  simpa [quantityOf] using fits

variable {quantity : Quantity}

theorem executable_bounds (positive : 0 < o.quantity.val)
    (some_quantity : b.executable o = some quantity) :
    0 < quantity.val ∧ quantity.val ≤ o.quantity.val := by
  rw [executable] at some_quantity
  split_ifs at some_quantity with reduce
  · simp only at some_quantity
    split_ifs at some_quantity with none
    obtain rfl := Option.some.inj some_quantity
    rw [min_val]
    omega
  · obtain rfl := Option.some.inj some_quantity
    exact ⟨positive, le_rfl⟩

/-- A price that would not cross the best opposite price crosses no price of that side. -/
theorem apart_of_wouldCross (quiet : b.wouldCross o.side o.price = false) {p' : Price}
    {q' : List Resting} (stored : (b.side o.side.opposite).get? p' = some q') :
    crosses o.side false o.price p' = false := by
  rw [wouldCross] at quiet
  cases top : best o.side.opposite (b.side o.side.opposite) with
  | none => simp [best_eq_none.1 top] at stored
  | some first =>
    rw [top] at quiet
    exact crosses_mono ((best_eq_some.1 top).2 p' q' stored) quiet

theorem Placed.rejected (h : b.Proper) (fresh : b.lookup o.orderId = none)
    (positive : 0 < o.quantity.val) : Placed o b MatchReport.rejected b where
  proper := h
  config := rfl
  positions := rfl
  lookup := by
    funext id
    simp [settled, withTaker, restedBy, MatchReport.rejected, MatchResult.rejected, withdrawn,
      afterFills]
  fresh := fresh
  covered := trivial
  fills := FillsOk.nil o
  limit := by simp [MatchReport.rejected, MatchResult.rejected]
  own := by simp [MatchReport.rejected]
  cancelled := by simp [MatchReport.rejected]
  quantity := by simpa [MatchReport.rejected, MatchResult.rejected, filledBy, restedBy]
    using positive.le
  rests := by simp [MatchReport.rejected, MatchResult.rejected, restedBy]

theorem fair_start (stocked : ∀ side, Stocked (b.side side)) (distinct : b.DistinctIds)
    (proper : ∀ side p r, b.Holds side p r → 0 < p.val ∧ 0 < r.remaining.val)
    (fresh : b.lookup o.orderId = none) (positive : 0 < quantity.val) :
    Fair o quantity ⟨b, quantity, [], [], false⟩ := by
  have held : ∀ x ∈ Progress.makers ⟨b, quantity, [], [], false⟩ o,
      b.Holds o.side.opposite x.1 x.2 := fun x hx => mem_priority.1 hx
  refine ⟨stocked _, ?_, ?_, positive.le, ?_, FillsOk.nil o, by simp, by simp⟩
  · intro x hx
    have here := proper _ _ _ (held x hx)
    exact ⟨here.1, here.2, lookup_eq_none.1 fresh _ _ _ (held x hx)⟩
  · have ids := distinct
    have perm := (priority_perm o.side.opposite (b.side o.side.opposite)).map Resting.orderId
    rw [map_map] at perm
    refine perm.nodup_iff.2 ?_
    rw [DistinctIds, resting, map_append, nodup_append] at ids
    cases o.side
    · exact ids.2.1
    · exact ids.1
  · simp [filledBy]

theorem Proper.fair (h : b.Proper) (fresh : b.lookup o.orderId = none)
    (positive : 0 < quantity.val) : Fair o quantity ⟨b, quantity, [], [], false⟩ :=
  fair_start h.stocked h.distinct h.positive fresh positive

section Dispose

variable {quantity : Quantity} {report : MatchReport} {b' : Book} {e : OrderError}

/-- The endings of a matched taker: nothing rests, what is left of it rests, or that fails before
anything changed. -/
theorem dispose_cases (o : NewOrder) (isMarket : Bool) (quantity : Quantity) (s : Progress) :
    (∃ outcome, restedBy outcome = none ∧
      dispose o isMarket quantity s = (.ok ⟨⟨s.fills, outcome⟩, s.stpCancelled⟩, s.book)) ∨
    (∃ outcome book, restedBy outcome = some s.remaining ∧ isMarket = false ∧ s.stopped = false ∧
      s.remaining.val ≠ 0 ∧ s.book.rest o s.remaining = .ok book ∧
      dispose o isMarket quantity s = (.ok ⟨⟨s.fills, outcome⟩, s.stpCancelled⟩, book)) ∨
    ∃ e, (quantity.saturatingSub s.remaining).val ≤ 0 ∧ s.stpCancelled = [] ∧
      dispose o isMarket quantity s = (.error e, s.book) := by
  rw [dispose]
  have ended : restedBy (if 0 < (quantity.saturatingSub s.remaining).val then
      .partiallyFilledCancelled (quantity.saturatingSub s.remaining) else .rejected) = none := by
    split_ifs <;> rfl
  by_cases done : s.remaining.val = 0
  · exact .inl ⟨_, rfl, if_pos done⟩
  rw [if_neg done]
  by_cases ends : (isMarket || s.stopped || decide (o.tif ≠ .gtc)) = true
  · exact .inl ⟨_, ended, if_pos ends⟩
  rw [if_neg ends]
  simp only [Bool.or_eq_true, not_or, Bool.not_eq_true] at ends
  obtain ⟨⟨limited, running⟩, -⟩ := ends
  cases resting : s.book.rest o s.remaining with
  | error e =>
    by_cases kept : (decide (0 < (quantity.saturatingSub s.remaining).val) ||
        !s.stpCancelled.isEmpty) = true
    · exact .inl ⟨_, ended, if_pos kept⟩
    · refine .inr (.inr ⟨e, ?_, ?_, if_neg kept⟩)
      · simp at kept
        omega
      · simp at kept
        exact kept.2
  | ok book =>
    refine .inr (.inl ⟨_, book, ?_, limited, running, done, rfl, rfl⟩)
    split_ifs <;> rfl

/-- What disposing of the rest of a matched taker leaves. -/
theorem dispose_placed (h : b.Proper) (fresh : b.lookup o.orderId = none)
    (priced : isMarket = false → 0 < o.price.val) (positive : 0 < quantity.val)
    (within : quantity.val ≤ o.quantity.val) (kind : isMarket = decide (o.orderType = .market))
    (ok : dispose o isMarket quantity (b.sweep o isMarket quantity) = (.ok report, b')) :
    Placed o b report b' := by
  set s := b.sweep o isMarket quantity
  have traced : Traced o isMarket b s := (Traced.start h o isMarket quantity).matched
  have fair : Fair o quantity s := (h.fair fresh positive).matched
  have ended : s.stopped = false → 0 < s.remaining.val → ∀ p' q',
      (s.book.side o.side.opposite).get? p' = some q' →
      crosses o.side isMarket o.price p' = false := fun running unfilled p' q' stored =>
    matched_apart (h.fair fresh positive) running unfilled stored
  have total := fair.total
  have nonneg := fair.nonneg
  obtain ⟨outcome, none, same⟩ | ⟨outcome, book, rests, limited, running, left, resting, same⟩ |
    ⟨e, -, -, same⟩ := dispose_cases o isMarket quantity s
  · cases same.symm.trans ok
    refine ⟨traced.proper, traced.config, traced.positions, ?_, fresh, traced.covered, fair.fills,
      kind ▸ traced.limit, traced.own, traced.cancelled, ?_, ?_⟩
    · simp only [settled, withTaker, none]
      exact traced.lookup
    · simp only [none, Option.elim_none]
      omega
    · intro remaining rests
      simp [none] at rests
  · cases same.symm.trans ok
    have unfilled : 0 < s.remaining.val := lt_of_le_of_ne nonneg (Ne.symm left)
    have gone : s.book.lookup o.orderId = .none := by
      rw [traced.lookup, withdrawn]
      split_ifs
      · rfl
      · exact afterFills_of_none fresh
    have apart := ended running unfilled
    rw [limited] at apart
    obtain ⟨proper, config, positions, lookup⟩ :=
      traced.proper.rest (priced limited) unfilled gone apart resting
    refine ⟨proper, config.trans traced.config, positions.trans traced.positions, ?_, fresh,
      traced.covered, fair.fills, kind ▸ traced.limit, traced.own, traced.cancelled, ?_, ?_⟩
    · simp only [settled, withTaker, rests]
      rw [lookup, traced.lookup]
    · simp only [rests, Option.elim_some]
      omega
    · intro remaining same
      simp only [rests, Option.some.injEq] at same
      subst same
      rw [limited, eq_comm, decide_eq_false_iff_not] at kind
      exact ⟨unfilled, priced limited, kind⟩
  · cases same.symm.trans ok

theorem dispose_error (h : b.Proper) (fresh : b.lookup o.orderId = none)
    (positive : 0 < quantity.val)
    (failed : dispose o isMarket quantity (b.sweep o isMarket quantity) = (.error e, b')) :
    b' = b := by
  set s := b.sweep o isMarket quantity
  have traced : Traced o isMarket b s := (Traced.start h o isMarket quantity).matched
  have fair : Fair o quantity s := (h.fair fresh positive).matched
  obtain ⟨outcome, -, same⟩ | ⟨outcome, book, -, -, -, -, -, same⟩ | ⟨e, filled, quiet, same⟩ :=
    dispose_cases o isMarket quantity s
  · cases same.symm.trans failed
  · cases same.symm.trans failed
  · rw [same, Prod.mk.injEq] at failed
    refine failed.2.symm.trans (traced.quiet ?_ quiet)
    by_contra some_fill
    have more := fair.fills.filledBy_pos.2 some_fill
    have total := fair.total
    have nonneg := fair.nonneg
    rw [Bounded.saturatingSub_val (by omega) (by omega)] at filled
    omega

end Dispose

/-- Placing an order, as a case distinction over what is checked before matching. -/
theorem place_cases (b : Book) (o : NewOrder) :
    (∃ e, b.place o = (.error e, b)) ∨
      (0 < o.quantity.val ∧ (o.orderType ≠ .market → 0 < o.price.val) ∧ b.lookup o.orderId = none ∧
        (b.place o = (.ok MatchReport.rejected, b) ∨ ∃ quantity, b.executable o = some quantity ∧
            ((o.orderType = .postOnly ∧ b.wouldCross o.side o.price = false ∧
                ∃ book, b.rest o quantity = .ok book ∧
                  b.place o = (.ok ⟨⟨[], .resting quantity⟩, []⟩, book)) ∨
              (o.orderType ≠ .postOnly ∧
                b.place o = dispose o (decide (o.orderType = .market)) quantity
                  (b.sweep o (decide (o.orderType = .market)) quantity))))) := by
  by_cases small : o.quantity.val ≤ 0
  · exact .inl ⟨.nonPositiveQuantity, if_pos small⟩
  by_cases unpriced : (!decide (o.orderType = .market) && decide (o.price.val ≤ 0)) = true
  · exact .inl ⟨.nonPositivePrice, (if_neg small).trans (if_pos unpriced)⟩
  by_cases known : (b.find o.orderId).isSome = true
  · exact .inl ⟨.duplicateOrderId, (if_neg small).trans ((if_neg unpriced).trans (if_pos known))⟩
  have reached : b.place o = _ := (if_neg small).trans ((if_neg unpriced).trans (if_neg known))
  have priced : o.orderType ≠ .market → 0 < o.price.val := by
    intro limit
    simpa [limit] using unpriced
  have fresh : b.lookup o.orderId = none := by simpa [lookup] using known
  cases allowed : b.executable o with
  | none =>
    refine .inr ⟨not_le.1 small, priced, fresh, .inl ?_⟩
    rw [reached]
    simp only [allowed]
  | some quantity =>
    simp only [allowed] at reached
    by_cases post : o.orderType = .postOnly
    · rw [if_pos post] at reached
      by_cases crossing : b.wouldCross o.side o.price = true
      · rw [if_pos crossing] at reached
        exact .inr ⟨not_le.1 small, priced, fresh, .inl reached⟩
      · rw [if_neg crossing] at reached
        cases resting : b.rest o quantity with
        | error e =>
          rw [resting] at reached
          exact .inl ⟨e, reached⟩
        | ok book =>
          rw [resting] at reached
          refine .inr ⟨not_le.1 small, priced, fresh, .inr ⟨quantity, rfl, .inl ?_⟩⟩
          exact ⟨post, by simpa using crossing, book, resting, reached⟩
    · rw [if_neg post] at reached
      by_cases kill : o.tif = .fok ∧
          (b.sweep o (decide (o.orderType = .market)) quantity).remaining.val ≠ 0
      · rw [if_pos kill] at reached
        exact .inr ⟨not_le.1 small, priced, fresh, .inl reached⟩
      · rw [if_neg kill] at reached
        refine .inr ⟨not_le.1 small, priced, fresh, .inr ⟨quantity, rfl, .inr ?_⟩⟩
        exact ⟨post, reached⟩

variable {report : MatchReport} {b' : Book} {e : OrderError} {price : Price}

theorem place_error (h : b.Proper) (failed : b.place o = (.error e, b')) : b' = b := by
  obtain ⟨e', same⟩ | ⟨positive, -, fresh, same | ⟨quantity, allowed, post | sweep⟩⟩ :=
    place_cases b o
  · cases same.symm.trans failed
    rfl
  · cases same.symm.trans failed
  · obtain ⟨-, -, book, -, same⟩ := post
    cases same.symm.trans failed
  · rw [sweep.2] at failed
    exact dispose_error h fresh (executable_bounds positive allowed).1 failed

/-- What the report of a placement says. -/
theorem place_ok (h : b.Proper) (ok : b.place o = (.ok report, b')) : Placed o b report b' := by
  obtain ⟨e', same⟩ | ⟨positive, priced, fresh, same | ⟨quantity, allowed, post | sweep⟩⟩ :=
    place_cases b o
  · cases same.symm.trans ok
  · cases same.symm.trans ok
    exact Placed.rejected h fresh positive
  · obtain ⟨post, quiet, book, resting, same⟩ := post
    cases same.symm.trans ok
    obtain ⟨some_left, within⟩ := executable_bounds positive allowed
    have price := priced (by rw [post]; decide)
    obtain ⟨proper, config, positions, lookup⟩ :=
      h.rest price some_left fresh (fun _ _ => apart_of_wouldCross quiet) resting
    refine ⟨proper, config, positions, ?_, fresh, trivial, FillsOk.nil o, by simp, by simp,
      by simp, ?_, ?_⟩
    · congr 1
    · simpa [filledBy, restedBy] using within
    · intro remaining rests
      obtain rfl := Option.some.inj rests
      exact ⟨some_left, price, by rw [post]; decide⟩
  · obtain ⟨-, same⟩ := sweep
    rw [same] at ok
    obtain ⟨some_left, within⟩ := executable_bounds positive allowed
    apply dispose_placed h fresh _ some_left within rfl ok
    intro limited
    exact priced (by simpa using limited)

/-! ## Cancelling and replacing -/

theorem quantityOf_filter_le (keeps : Resting → Bool) {q : List Resting}
    (positive : ∀ r ∈ q, 0 < r.remaining.val) : quantityOf (q.filter keeps) ≤ quantityOf q := by
  induction q with
  | nil => exact le_rfl
  | cons r rest ih =>
    have later := ih fun x hx => positive x (mem_cons_of_mem _ hx)
    have first := positive r mem_cons_self
    rw [filter_cons]
    split_ifs
    · rw [quantityOf_cons, quantityOf_cons]
      omega
    · rw [quantityOf_cons]
      omega

theorem Proper.without (h : b.Proper) (gone : Resting → Bool) : (b.without gone).Proper := by
  have levels : ∀ side p q, ((b.without gone).side side).get? p = some q →
      q ≠ [] ∧ ∃ q', (b.side side).get? p = some q' ∧ q = q'.filter fun r => !gone r := by
    intro side p q found
    rw [side_without, get?_keep, Option.filter_eq_some_iff, Option.map_eq_some_iff] at found
    obtain ⟨⟨q', stored, rfl⟩, nonempty⟩ := found
    exact ⟨by simpa using nonempty, q', stored, rfl⟩
  refine .of_levels (fun side p q found => ?_) (h.distinct.without gone) ?_ ?_
  · obtain ⟨nonempty, q', stored, rfl⟩ := levels side p q found
    obtain ⟨-, priced, positive, fits⟩ := h.level stored
    exact ⟨nonempty, priced, fun r listed => positive r (mem_of_mem_filter listed),
      (quantityOf_filter_le _ positive).trans fits⟩
  · intro p p' q q' bid ask
    obtain ⟨-, q₁, bid, -⟩ := levels .bid p q bid
    obtain ⟨-, q₂, ask, -⟩ := levels .ask p' q' ask
    exact h.apart p p' q₁ q₂ bid ask
  · refine le_trans ?_ h.room
    rw [count_eq, count_eq, resting_without]
    exact length_filter_le _ _

theorem cancel_ok {b' : Book} (ok : b.cancel id = (.ok (), b')) :
    b' = b.without (fun r => r.orderId = id) ∧ (b.lookup id).isSome := by
  rw [cancel] at ok
  rw [lookup]
  cases found : b.find id with
  | none =>
    rw [found] at ok
    cases ok
  | some x =>
    rw [found] at ok
    cases ok
    exact ⟨rfl, rfl⟩

/-- A replacement is a cancellation and a placement. -/
theorem replace_cases (ok : b.replace id price quantity = (.ok report, b')) :
    ∃ m, b.lookup id = some m ∧ (b.without fun r => r.orderId = id).place
      (replacement id m price quantity) = (.ok report, b') := by
  rw [replace] at ok
  split_ifs at ok with small unpriced
  · cases ok
  · cases ok
  cases found : b.find id with
  | none => simp [found] at ok
  | some x =>
    obtain ⟨side, old, r⟩ := x
    simp only [found] at ok
    split_ifs at ok with high
    · cases ok
    · refine ⟨r.at side old, ?_, ok⟩
      rw [lookup, found, Option.map_some]

theorem replace_ok (h : b.Proper) (ok : b.replace id price quantity = (.ok report, b')) :
    ∃ m, b.lookup id = some m ∧
      Placed (replacement id m price quantity) (b.without fun r => r.orderId = id)
        report b' := by
  obtain ⟨m, found, placed⟩ := replace_cases ok
  exact ⟨m, found, place_ok (h.without _) placed⟩

end Dexos.Clob.PriceTime.Book
