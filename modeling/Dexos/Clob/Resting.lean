import Dexos.Clob.Sweep

/-!
# The resting orders of a book

`lookup` finds a resting order by its id. A proper book has distinct ids, positive prices
and quantities, and sides that do not cross; every operation keeps it proper and changes
the lookup by the fills and the cancellations it reports.
-/

namespace Dexos.Clob.PriceTime

open Foundations Option Function

theorem mem_orders {m : Ladder} {p : Price} {r : Resting} :
    (p, r) ∈ orders m ↔ ∃ q, m.get? p = some q ∧ r ∈ q := by
  simp only [orders, List.mem_flatMap, Prod.exists, OrdMap.mem_entries, List.mem_map, Prod.mk.injEq]
  constructor
  · rintro ⟨p', q, stored, r', hr, rfl, rfl⟩
    exact ⟨q, stored, hr⟩
  · rintro ⟨q, stored, hr⟩
    exact ⟨p, q, stored, r, hr, rfl, rfl⟩

theorem orders_snd (m : Ladder) : (orders m).map Prod.snd = flatten m := by
  simp [orders, flatten, List.map_flatMap, comp_def]

theorem get?_keep (keeps : Resting → Bool) (m : Ladder) (p : Price) :
    (keep keeps m).get? p =
      ((m.get? p).map fun q => q.filter keeps).filter fun q => !q.isEmpty := by
  rw [keep, OrdMap.get?_filter, OrdMap.get?_mapValues]

theorem quantityOf_cons (r : Resting) (q : List Resting) :
    quantityOf (r :: q) = r.remaining.val + quantityOf q := by
  simp [quantityOf]

namespace Book

/-! ## Orders and where they rest -/

variable (b : Book)

/-- An order rests at a price of a side. -/
def Holds (side : Side) (p : Price) (r : Resting) : Prop :=
  ∃ q, (b.side side).get? p = some q ∧ r ∈ q

def resting : List Resting := flatten b.bids ++ flatten b.asks

/-- No two resting orders share an id. -/
def DistinctIds : Prop := (b.resting.map Resting.orderId).Nodup

/-- Every resting order with its side and price. -/
def listing : List (Side × Price × Resting) :=
  ((orders b.bids).map fun x => (Side.bid, x)) ++ (orders b.asks).map fun x => (Side.ask, x)

def lookup (id : OrderId) : Option Order :=
  (b.find id).map fun x => x.2.2.at x.1 x.2.1

def put (side : Side) (p : Price) (q : List Resting) : Book :=
  b.setSide side (putQueue (b.side side) p q)

variable {b}

variable {b b' : Book} {side side' : Side} {p p' : Price} {r r' : Resting} {q q' : List Resting}
  {id : OrderId}

theorem mem_listing : (side, p, r) ∈ b.listing ↔ b.Holds side p r := by
  cases side <;> simp [listing, Holds, Book.side, mem_orders]

theorem listing_resting (b : Book) : b.listing.map (fun x => x.2.2) = b.resting := by
  rw [listing, resting, ← orders_snd, ← orders_snd]
  simp [comp_def]

theorem mem_resting : r ∈ b.resting ↔ ∃ side p, b.Holds side p r := by
  rw [← listing_resting, List.mem_map]
  constructor
  · rintro ⟨⟨side, p, r⟩, listed, rfl⟩
    exact ⟨side, p, mem_listing.1 listed⟩
  · rintro ⟨side, p, held⟩
    exact ⟨(side, p, r), mem_listing.2 held, rfl⟩

theorem find_eq_some (distinct : b.DistinctIds) :
    b.find id = some (side, p, r) ↔ b.Holds side p r ∧ r.orderId = id := by
  have keys : (b.listing.map fun x => x.2.2.orderId).Nodup := by
    have ids := distinct
    rwa [DistinctIds, ← listing_resting, List.map_map] at ids
  rw [← mem_listing]
  exact find?_key keys

theorem find_eq_none : b.find id = none ↔ ∀ side p r, b.Holds side p r → r.orderId ≠ id := by
  rw [find, List.find?_eq_none]
  constructor
  · intro absent side p r held
    simpa using absent (side, p, r) (mem_listing.2 held)
  · rintro absent ⟨side, p, r⟩ listed
    simpa using absent side p r (mem_listing.1 listed)

theorem lookup_eq_some (distinct : b.DistinctIds) {o : Order} :
    b.lookup id = some o ↔
      b.Holds o.side o.price ⟨o.orderId, o.account, o.remaining, o.clientId⟩ ∧ o.orderId = id := by
  rw [lookup, map_eq_some_iff]
  constructor
  · rintro ⟨⟨side, p, r⟩, found, rfl⟩
    exact (find_eq_some distinct).1 found
  · intro held
    exact ⟨(o.side, o.price, _), (find_eq_some distinct).2 held, rfl⟩

theorem lookup_of_holds (distinct : b.DistinctIds) (held : b.Holds side p r) :
    b.lookup r.orderId = some (r.at side p) :=
  (lookup_eq_some distinct).2 ⟨held, rfl⟩

theorem lookup_eq_none : b.lookup id = none ↔ ∀ side p r, b.Holds side p r → r.orderId ≠ id := by
  rw [lookup, map_eq_none_iff, find_eq_none]

theorem lookup_eq_update (distinct : b.DistinctIds) (distinct' : b'.DistinctIds)
    (others : ∀ side p r, r.orderId ≠ id → (b'.Holds side p r ↔ b.Holds side p r)) :
    b'.lookup = update b.lookup id (b'.lookup id) := by
  funext id'
  by_cases here : id' = id
  · rw [here, update_self]
  · rw [update_of_ne here]
    apply ext
    intro o
    rw [lookup_eq_some distinct, lookup_eq_some distinct']
    constructor
    · rintro ⟨held, same⟩
      exact ⟨(others _ _ _ (by rw [same]; exact here)).1 held, same⟩
    · rintro ⟨held, same⟩
      exact ⟨(others _ _ _ (by rw [same]; exact here)).2 held, same⟩

/-! ## Writes to one queue -/

theorem holds_put : (b.put side p q).Holds side' p' r ↔
    if side' = side ∧ p' = p then r ∈ q else b.Holds side' p' r := by
  rw [put, Holds]
  by_cases same : side' = side
  · subst same
    rw [side_setSide_self, get?_putQueue]
    by_cases here : p' = p
    · subst here
      cases q <;> simp
    · simp [here, Holds]
  · have opposite : side = side'.opposite := by
      cases side <;> cases side' <;> first | rfl | exact absurd rfl same
    rw [opposite, side_setSide_opposite,
      if_neg (by rintro ⟨h, -⟩; exact same (h.trans opposite.symm))]
    rfl

theorem mem_queue : r ∈ b.queue side p ↔ b.Holds side p r := by
  rw [queue, Holds]
  cases (b.side side).get? p <;> simp

/-- The resting orders outside one queue. -/
def restingElsewhere (b : Book) (side : Side) (p : Price) : List Resting :=
  flatten ((b.side side).erase p) ++ flatten (b.side side.opposite)

theorem resting_perm (b : Book) (side : Side) (p : Price) :
    b.resting.Perm (b.queue side p ++ b.restingElsewhere side p) := by
  rw [restingElsewhere, ← List.append_assoc]
  cases side with
  | bid => exact (flatten_perm b.bids p).append_right _
  | ask => exact List.perm_append_comm.trans ((flatten_perm b.asks p).append_right _)

theorem resting_put_perm (b : Book) (side : Side) (p : Price) (q : List Resting) :
    (b.put side p q).resting.Perm (q ++ b.restingElsewhere side p) := by
  rw [restingElsewhere, ← List.append_assoc]
  cases side with
  | bid => exact (flatten_putQueue_perm b.bids p q).append_right _
  | ask => exact List.perm_append_comm.trans ((flatten_putQueue_perm b.asks p q).append_right _)

theorem count_eq (b : Book) : b.count = b.resting.length := by
  rw [count, resting, List.length_append]

theorem DistinctIds.put (distinct : b.DistinctIds)
    (ids : (q.map Resting.orderId).Sublist ((b.queue side p).map Resting.orderId)) :
    (b.put side p q).DistinctIds := by
  rw [DistinctIds, ((resting_perm b side p).map _).nodup_iff, List.map_append] at distinct
  rw [DistinctIds, ((resting_put_perm b side p q).map _).nodup_iff, List.map_append]
  exact distinct.sublist (ids.append (List.Sublist.refl _))

theorem count_put_le (h : q.length ≤ (b.queue side p).length) :
    (b.put side p q).count ≤ b.count := by
  rw [count_eq, count_eq, (resting_perm b side p).length_eq,
    (resting_put_perm b side p q).length_eq, List.length_append, List.length_append]
  omega

/-! ## Lookups after a write -/

theorem queue_of_stored (stored : (b.side side).get? p = some q) : b.queue side p = q := by
  rw [queue, stored, getD_some]

/-- An id rests in one place only. -/
theorem holds_unique (distinct : b.DistinctIds) (held : b.Holds side p r)
    (held' : b.Holds side' p' r') (same : r.orderId = r'.orderId) :
    side = side' ∧ p = p' ∧ r = r' := by
  have first := (find_eq_some distinct).2 ⟨held, same⟩
  have second := (find_eq_some distinct).2 ⟨held', rfl⟩
  rw [first] at second
  simpa using second

theorem queue_ids_nodup (distinct : b.DistinctIds) (side : Side) (p : Price) :
    ((b.queue side p).map Resting.orderId).Nodup := by
  rw [DistinctIds, ((resting_perm b side p).map _).nodup_iff, List.map_append] at distinct
  exact (List.nodup_append.1 distinct).1

section Write

variable {l l' : List Resting}

variable (distinct : b.DistinctIds)
include distinct

theorem lookup_put {id : OrderId} (distinct' : (b.put side p q).DistinctIds)
    (others : ∀ r, r.orderId ≠ id → (r ∈ q ↔ r ∈ b.queue side p)) :
    (b.put side p q).lookup = update b.lookup id ((b.put side p q).lookup id) := by
  refine lookup_eq_update distinct distinct' fun side₁ p₁ r₁ other => ?_
  rw [holds_put]
  split_ifs with here
  · obtain ⟨rfl, rfl⟩ := here
    rw [others r₁ other, mem_queue]
  · rfl

theorem lookup_drop (stored : (b.side side).get? p = some (l ++ r :: l')) :
    (b.put side p (l ++ l')).lookup = update b.lookup r.orderId none := by
  have queued := queue_of_stored stored
  have held : b.Holds side p r := ⟨_, stored, by simp⟩
  have ids := queue_ids_nodup distinct side p
  rw [queued] at ids
  have distinct' : (b.put side p (l ++ l')).DistinctIds := by
    apply distinct.put
    rw [queued]
    exact ((List.Sublist.refl l).append (List.sublist_cons_self r l')).map _
  have absent : (b.put side p (l ++ l')).lookup r.orderId = none := by
    refine lookup_eq_none.2 fun side₁ p₁ r₁ held₁ same => ?_
    rw [holds_put] at held₁
    split_ifs at held₁ with here
    · have notin : r.orderId ∉ (l ++ l').map Resting.orderId := by
        rw [List.map_append, List.map_cons, List.nodup_middle, List.nodup_cons,
          ← List.map_append] at ids
        exact ids.1
      exact notin (List.mem_map.2 ⟨r₁, held₁, same⟩)
    · obtain ⟨rfl, rfl, -⟩ := holds_unique distinct held₁ held same
      exact here ⟨rfl, rfl⟩
  rw [lookup_put distinct distinct', absent]
  intro r₁ other
  have apart : r₁ ≠ r := fun same => other (congrArg _ same)
  simp [queued, apart]

theorem lookup_change
    (stored : (b.side side).get? p = some (l ++ r :: l')) (same : r'.orderId = r.orderId) :
    (b.put side p (l ++ r' :: l')).lookup = update b.lookup r.orderId (some (r'.at side p)) := by
  have queued := queue_of_stored stored
  have distinct' : (b.put side p (l ++ r' :: l')).DistinctIds := by
    apply distinct.put
    rw [queued]
    simp [same]
  have found : (b.put side p (l ++ r' :: l')).lookup r.orderId = some (r'.at side p) := by
    rw [← same]
    apply lookup_of_holds distinct'
    rw [holds_put]
    simp
  rw [lookup_put distinct distinct', found]
  intro r₁ other
  have apart : r₁ ≠ r := fun same => other (congrArg _ same)
  have apart' : r₁ ≠ r' := fun eq => other ((congrArg _ eq).trans same)
  simp [queued, apart, apart']

theorem DistinctIds.append (fresh : b.lookup r.orderId = none) :
    (b.put side p (b.queue side p ++ [r])).DistinctIds := by
  have absent : r.orderId ∉ b.resting.map Resting.orderId := by
    intro listed
    obtain ⟨r', hr', same⟩ := List.mem_map.1 listed
    obtain ⟨side', p', held⟩ := mem_resting.1 hr'
    exact lookup_eq_none.1 fresh side' p' r' held same
  have perm : (b.put side p (b.queue side p ++ [r])).resting.Perm (r :: b.resting) := by
    refine (resting_put_perm b side p _).trans ?_
    rw [List.append_assoc]
    exact List.perm_middle.trans (List.Perm.cons r (resting_perm b side p).symm)
  rw [DistinctIds, (perm.map _).nodup_iff, List.map_cons, List.nodup_cons]
  exact ⟨absent, distinct⟩

theorem lookup_append (fresh : b.lookup r.orderId = none) :
    (b.put side p (b.queue side p ++ [r])).lookup =
      update b.lookup r.orderId (some (r.at side p)) := by
  have distinct' : (b.put side p (b.queue side p ++ [r])).DistinctIds := distinct.append fresh
  have found : (b.put side p (b.queue side p ++ [r])).lookup r.orderId = some (r.at side p) := by
    apply lookup_of_holds distinct'
    rw [holds_put]
    simp
  rw [lookup_put distinct distinct', found]
  intro r₁ other
  have apart : r₁ ≠ r := fun same => other (congrArg _ same)
  rw [List.mem_append, List.mem_singleton, or_iff_left apart]

omit distinct

theorem count_append : (b.put side p (b.queue side p ++ [r])).count = b.count + 1 := by
  rw [count_eq, count_eq, (resting_perm b side p).length_eq,
    (resting_put_perm b side p _).length_eq]
  simp only [List.length_append, List.length_singleton]
  omega

theorem count_insert : (b.setSide side ((b.side side).insert p (b.queue side p ++ [r]))).count =
    b.count + 1 := by
  have append := @count_append b side p r
  rwa [put, putQueue, if_neg (by simp)] at append

end Write

/-! ## Removing by a predicate -/

theorem side_without (b : Book) (gone : Resting → Bool) (side : Side) :
    (b.without gone).side side = keep (fun r => !gone r) (b.side side) := by
  cases side <;> rfl

theorem holds_without {gone : Resting → Bool} :
    (b.without gone).Holds side p r ↔ b.Holds side p r ∧ gone r = false := by
  rw [Holds, side_without, get?_keep, Holds]
  cases (b.side side).get? p with
  | none => simp
  | some q =>
    simp only [map_some, filter_eq_some_iff, some.injEq]
    constructor
    · rintro ⟨q', ⟨rfl, -⟩, member⟩
      obtain ⟨member, kept⟩ := List.mem_filter.1 member
      exact ⟨⟨q, rfl, member⟩, by simpa using kept⟩
    · rintro ⟨⟨q', rfl, member⟩, kept⟩
      have kept' : r ∈ q.filter fun r => !gone r := List.mem_filter.2 ⟨member, by simp [kept]⟩
      refine ⟨_, ⟨rfl, ?_⟩, kept'⟩
      cases filtered : q.filter fun r => !gone r with
      | nil => simp [filtered] at kept'
      | cons => rfl

theorem flatten_keep (keeps : Resting → Bool) (m : Ladder) :
    flatten (keep keeps m) = (flatten m).filter keeps := by
  rw [flatten, flatten, keep, List.filter_flatMap]
  simp only [OrdMap.filter, OrdMap.mapValues]
  induction m.entries with
  | nil => rfl
  | cons e rest ih =>
    rw [List.map_cons, List.flatMap_cons, ← ih]
    cases filtered : e.2.filter keeps with
    | nil => simp
    | cons => simp

theorem resting_without (b : Book) (gone : Resting → Bool) :
    (b.without gone).resting = b.resting.filter fun r => !gone r := by
  rw [resting, resting, List.filter_append, ← flatten_keep, ← flatten_keep]
  rfl

theorem DistinctIds.without (distinct : b.DistinctIds) (gone : Resting → Bool) :
    (b.without gone).DistinctIds := by
  rw [DistinctIds, resting_without]
  exact distinct.sublist (List.filter_sublist.map _)

theorem lookup_without (distinct : b.DistinctIds) (gone : Resting → Bool) (id : OrderId) :
    (b.without gone).lookup id =
      (b.lookup id).filter fun o => !gone ⟨o.orderId, o.account, o.remaining, o.clientId⟩ := by
  apply ext
  intro o
  rw [lookup_eq_some (distinct.without gone), holds_without, filter_eq_some_iff,
    lookup_eq_some distinct, Bool.not_eq_true']
  tauto

theorem without_congr {gone gone' : Resting → Bool}
    (agree : ∀ side p r, b.Holds side p r → gone r = gone' r) :
    b.without gone = b.without gone' := by
  have same : ∀ side, (b.without gone).side side = (b.without gone').side side := by
    intro side
    ext1 p
    rw [side_without, side_without, get?_keep, get?_keep]
    cases stored : (b.side side).get? p with
    | none => rfl
    | some q =>
      have filtered : q.filter (fun r => !gone r) = q.filter fun r => !gone' r := by
        apply List.filter_congr
        intro r hr
        rw [agree side p r ⟨q, stored, hr⟩]
      rw [map_some, map_some, filtered]
  have bids := same .bid
  have asks := same .ask
  simp only [Book.side, without] at bids asks
  rw [without, without, bids, asks]

theorem without_of_none {gone : Resting → Bool} (stocked : ∀ side, Stocked (b.side side))
    (none : ∀ side p r, b.Holds side p r → gone r = false) : b.without gone = b := by
  have same : ∀ side, (b.without gone).side side = b.side side := by
    intro side
    ext1 p
    rw [side_without, get?_keep]
    cases stored : (b.side side).get? p with
    | none => rfl
    | some q =>
      have filtered : q.filter (fun r => !gone r) = q := by
        apply List.filter_eq_self.2
        intro r hr
        rw [none side p r ⟨q, stored, hr⟩]
        rfl
      have nonempty := stocked side p q stored
      rw [map_some, filtered]
      simp [nonempty]
  have bids := same .bid
  have asks := same .ask
  simp only [Book.side, without] at bids asks
  rw [without, bids, asks]

theorem keep_keep (keeps keeps' : Resting → Bool) (m : Ladder) :
    keep keeps (keep keeps' m) = keep (fun r => keeps' r && keeps r) m := by
  ext1 p
  rw [get?_keep, get?_keep, get?_keep]
  cases m.get? p with
  | none => rfl
  | some q =>
    have twice : q.filter (fun r => keeps' r && keeps r) = (q.filter keeps').filter keeps := by
      rw [List.filter_filter]
      apply List.filter_congr
      intro r _
      exact Bool.and_comm _ _
    rw [map_some, map_some, twice]
    cases q.filter keeps' <;> rfl

theorem without_without (b : Book) (gone gone' : Resting → Bool) :
    (b.without gone).without gone' = b.without fun r => gone r || gone' r := by
  simp only [without, keep_keep, ← Bool.not_or]

theorem lookup_without_id (distinct : b.DistinctIds) (id : OrderId) :
    (b.without fun r => r.orderId = id).lookup = update b.lookup id none := by
  funext id'
  rw [lookup_without distinct]
  by_cases here : id' = id
  · subst here
    rw [update_self, filter_eq_none_iff]
    intro o found
    have same := ((lookup_eq_some distinct).1 found).2
    simp [same]
  · rw [update_of_ne here]
    cases found : b.lookup id' with
    | none => rfl
    | some o =>
      have same := ((lookup_eq_some distinct).1 found).2
      simp [same, here]

end Book

end Dexos.Clob.PriceTime
