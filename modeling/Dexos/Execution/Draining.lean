import Dexos.Execution.CompleteSets

/-!
# Draining a market

Resolution and settlement begin by removing every resting order of a market. What goes with the
orders is released to their owners, and the owners whose leaves change are listed.
-/

namespace Dexos.Execution

open Foundations Clob Risk List OrdMap

namespace Engine

variable {sha256 : Sha256} {e e' : Engine sha256} {kind : ReceiptKind} {m : MarketId}
  {touched : AccountSet}
  {k : OrderKey}
  {s s' : Engine sha256 × AccountSet}

/-! ## Releases -/

/-- A release keeps the sidecars of the other markets and lists whom it touched. -/
structure Released (m : MarketId) (s s' : Engine sha256 × AccountSet) : Prop where
  step : Step (· ∈ s'.2.keys) s.1 s'.1
  grows : ∀ a ∈ s.2.keys, a ∈ s'.2.keys
  reserves : ∀ k : OrderKey, k.market ≠ m → s'.1.orderReserves.get? k = s.1.orderReserves.get? k
  records : ∀ k : OrderKey, k.market ≠ m → s'.1.claimEscrows.get? k = s.1.claimEscrows.get? k

theorem Released.refl (m : MarketId) (s : Engine sha256 × AccountSet) : Released m s s :=
  ⟨Step.refl _ _, fun _ h => h, fun _ _ => rfl, fun _ _ => rfl⟩

theorem Released.trans {s s' s'' : Engine sha256 × AccountSet} (first : Released m s s')
    (second : Released m s' s'') : Released m s s'' where
  step := (first.step.mono second.grows).append second.step
  grows a h := second.grows a (first.grows a h)
  reserves k other := (second.reserves k other).trans (first.reserves k other)
  records k other := (second.records k other).trans (first.records k other)

theorem drainReserve_ok (here : k.market = m) (done : drainReserve s k = .ok s') :
    Released m s s' := by
  simp only [drainReserve, ok_iff] at done
  obtain ⟨r, found, e₁, released, rfl⟩ := done
  rw [releaseOrderReserve, found] at released
  simp only [ok_iff, liftRisk_eq_ok, true_and, exists_const] at released
  obtain ⟨risk, released, rfl⟩ := released
  refine ⟨(eraseReserve_step found released).mono fun a h => ?_, fun a h => ?_, fun j other => ?_,
    fun j _ => rfl⟩
  · rw [if_neg h.2, mem_insert_keys]
    exact .inl h.1
  · split_ifs
    · exact h
    · exact mem_insert_keys.2 (.inr h)
  · refine (get?_erase _ _ _).trans (if_neg ?_)
    rintro rfl
    exact other here

theorem drainEscrow_ok (here : k.market = m) (done : drainEscrow s k = .ok s') :
    Released m s s' := by
  simp only [drainEscrow, ok_iff] at done
  obtain ⟨r, found, ⟨e₁, owner⟩, released, -, -, rfl⟩ := done
  obtain ⟨step, records, reserves, -, -⟩ := releaseClaimEscrow_ok released
  refine ⟨step.mono fun a h => ?_, fun a h => ?_, fun j _ => by rw [reserves], fun j other => ?_⟩
  · obtain ⟨r', found', same, some_left⟩ := h
    rw [found] at found'
    cases found'
    rw [if_neg some_left, mem_insert_keys]
    exact .inl same
  · split_ifs
    · exact h
    · exact mem_insert_keys.2 (.inr h)
  · rw [records]
    refine (get?_erase _ _ _).trans (if_neg ?_)
    rintro rfl
    exact other here

/-! ## Books -/

/-- A change of the books of one market that keeps which books there are. -/
structure Rebooks (m : MarketId) (e e' : Engine sha256) : Prop where
  same : ∃ books, e' = { e with books := books }
  shape : ∀ k, (e'.books.get? k).isSome = (e.books.get? k).isSome
  others : ∀ k : BookKey, k.market ≠ m → e'.books.get? k = e.books.get? k

theorem Rebooks.refl (m : MarketId) (e : Engine sha256) : Rebooks m e e :=
  ⟨⟨e.books, rfl⟩, fun _ => rfl, fun _ _ => rfl⟩

theorem Rebooks.trans {e'' : Engine sha256} (first : Rebooks m e e') (second : Rebooks m e' e'') :
    Rebooks m e e'' := by
  obtain ⟨books, rfl⟩ := first.same
  obtain ⟨books', rfl⟩ := second.same
  exact ⟨⟨books', rfl⟩, fun k => (second.shape k).trans (first.shape k),
    fun k other => (second.others k other).trans (first.others k other)⟩

theorem Rebooks.ofInsert {k : BookKey} {book : LogicalBook} (stored : e.books.get? k = some book)
    (book' : LogicalBook) : Rebooks k.market e { e with books := e.books.insert k book' } := by
  refine ⟨⟨_, rfl⟩, isSome_insert_book stored book', fun j other => get?_insert_ne _ _ ?_⟩
  rintro rfl
  exact other rfl

theorem collectResting_market {n : U16} {found : OrdMap OrderKey Order}
    (done : e.collectResting m n = .ok found) : ∀ k o, found.get? k = some o → k.market = m := by
  refine foldlM_keeps (P := fun found : OrdMap OrderKey Order =>
    ∀ k o, found.get? k = some o → k.market = m) (by rintro k o ⟨⟩) ?_ done
  intro i _ found found' held step
  simp only [collectBook, ok_iff] at step
  obtain ⟨book, -, -, -, loop⟩ := step
  refine foldlM_keeps (P := fun found : OrdMap OrderKey Order =>
    ∀ k o, found.get? k = some o → k.market = m) held ?_ loop
  intro o _ found found' held step k o' stored
  simp only [ok_iff] at step
  obtain ⟨-, -, rfl⟩ := step
  rw [get?_insert] at stored
  split_ifs at stored with same
  · rw [same]
  · exact held k o' stored

theorem drainOrders_ok {resting : OrdMap OrderKey Order}
    (listed : ∀ k o, resting.get? k = some o → k.market = m)
    (done : resting.entries.foldlM drainOrder e = .ok e') : Rebooks m e e' := by
  refine foldlM_keeps (P := fun s => Rebooks m e s) (Rebooks.refl m e) ?_ done
  rintro ⟨k, o⟩ there s s' so_far step
  obtain ⟨book, book', stored, rfl, -⟩ := cancelIn_ok step
  have here : k.market = m := listed k o (mem_entries.1 there)
  exact so_far.trans (here ▸ Rebooks.ofInsert stored book')

/-- After the last loop every book of the market is new. -/
theorem resetBooks_ok {n : U16} (done : (instruments n).foldlM (resetBook m) e = .ok e') :
    Rebooks m e e' ∧ ∀ i, i < n → e'.books.get? ⟨m, i⟩ = some .new := by
  have loop : Rebooks m e e' ∧ ∀ i ∈ instruments n, e'.books.get? ⟨m, i⟩ = some .new := by
    refine foldlM_induction (P := fun seen s => Rebooks m e s ∧
      ∀ i ∈ seen, s.books.get? ⟨m, i⟩ = some .new)
      ⟨Rebooks.refl m e, fun i there => absurd there not_mem_nil⟩ ?_ done
    rintro seen i rest s s' - ⟨so_far, fresh⟩ step
    simp only [resetBook, ok_iff] at step
    obtain ⟨book, stored, -, -, rfl⟩ := step
    refine ⟨so_far.trans (Rebooks.ofInsert stored _), fun j there => ?_⟩
    rw [get?_insert]
    split_ifs with same
    · rfl
    · refine fresh j ((mem_append.1 there).resolve_right fun last => same ?_)
      rw [mem_singleton.1 last]
  exact ⟨loop.1, fun i below => loop.2 i (mem_instruments.2 below)⟩

/-! ## The whole drain -/

/-- What a drain leaves: no order and no sidecar of the market. -/
structure Drained (m : MarketId) (e e' : Engine sha256) (touched : AccountSet) : Prop where
  step : ∃ e₁, Step (· ∈ touched.keys) e e₁ ∧ ∃ books, e' = { e₁ with books := books }
  shape : ∀ k, (e'.books.get? k).isSome = (e.books.get? k).isSome
  others : ∀ k : BookKey, k.market ≠ m → e'.books.get? k = e.books.get? k
  rests : ∀ k, e'.resting k = if k.market = m then none else e.resting k
  backed : Backed e'.resting e'
  premiums : ∀ k x, e'.bidPremiumEscrow.get? k = some x → k.market ≠ m
  asked : ∀ k x, e'.askClaimsEscrow.get? k = some x → k.market ≠ m

theorem drainMarketRestingState_ok (healthy : Healthy e)
    (done : e.drainMarketRestingState m = .ok (e', touched)) : Drained m e e' touched := by
  simp only [drainMarketRestingState, reconcile, ok_iff] at done
  obtain ⟨info, market, resting, ⟨-, shape, resting', collected, -, -, -, -, -, -, -, -, rfl⟩, s,
    reserves, s', escrows, e₂, orders, -, ⟨noReserve, noRecord, noPremium, noAsk⟩, e₃, reset, rfl,
    rfl⟩ := done
  have first : Released m (e, ∅) s := by
    refine foldlM_keeps (P := fun s => Released m (e, ∅) s) (Released.refl m _) ?_ reserves
    intro k listed s s' so_far step
    have here : k.market = m := by simpa using (mem_filter.1 listed).2
    exact so_far.trans (drainReserve_ok here step)
  have released : Released m (e, ∅) s' := by
    refine foldlM_keeps (P := fun s => Released m (e, ∅) s) first ?_ escrows
    intro k listed s s' so_far step
    have here : k.market = m := by simpa using (mem_filter.1 listed).2
    exact so_far.trans (drainEscrow_ok here step)
  obtain ⟨last, fresh⟩ := resetBooks_ok reset
  have cancelled := drainOrders_ok (collectResting_market collected) orders
  have books := cancelled.trans last
  have touched := released.step.touches
  have shape : ∀ k, (e₃.books.get? k).isSome = (e.books.get? k).isSome := fun k => by
    rw [books.shape, touched.books]
  have others : ∀ k : BookKey, k.market ≠ m → e₃.books.get? k = e.books.get? k := fun k other => by
    rw [books.others k other, touched.books]
  have rests : ∀ k, e₃.resting k = if k.market = m then none else e.resting k := by
    intro k
    rw [Engine.resting]
    split_ifs with here
    · by_cases below : k.instrument < info.count
      · have new : e₃.books.get? k.book = some .new := by
          have stored := fresh k.instrument below
          rwa [← here] at stored
        rw [new]
        rfl
      · have absent : e₃.books.get? k.book = none := by
          rw [← Option.not_isSome_iff_eq_none, shape, healthy.shaped.books]
          rintro ⟨info', market', inside⟩
          rw [show k.book.market = m from here, market] at market'
          cases market'
          exact below inside
        rw [absent]
        rfl
    · rw [others k.book here, Engine.resting]
  have same := books.same
  obtain ⟨B', rfl⟩ := cancelled.same
  obtain ⟨B, rfl⟩ := last.same
  refine ⟨⟨s'.1, released.step, same⟩, shape, others, rests, fun k => ?_, fun k x stored => ?_,
    fun k x stored => ?_⟩
  · rw [rests]
    split_ifs with here
    · refine ⟨?_, ?_⟩
      · refine Option.eq_none_iff_forall_ne_some.2 fun r found => ?_
        have listed : k ∈ s'.1.reserveKeys m :=
          mem_filter.2 ⟨mem_keys.2 ⟨r, found⟩, decide_eq_true here⟩
        exact not_mem_nil (noReserve ▸ listed)
      · refine Option.eq_none_iff_forall_ne_some.2 fun r found => ?_
        have listed : k ∈ s'.1.claimKeys m :=
          mem_filter.2 ⟨mem_keys.2 ⟨r, found⟩, decide_eq_true here⟩
        exact not_mem_nil (noRecord ▸ listed)
    · have backing := healthy.backed k
      have market : s'.1.markets.get? k.market = e.markets.get? k.market := by rw [touched.markets]
      rwa [market, released.reserves k here, released.records k here]
  · exact noPremium k (mem_keys.2 ⟨x, stored⟩)
  · exact noAsk k (mem_keys.2 ⟨x, stored⟩)

/-- A drain of a market without sidecars replaces books and nothing else. -/
theorem drainMarketRestingState_quiet
    (none : ∀ k : OrderKey, k.market = m →
      e.orderReserves.get? k = none ∧ e.claimEscrows.get? k = none)
    (done : e.drainMarketRestingState m = .ok (e', touched)) :
    (∃ books, e' = { e with books := books }) ∧ touched = ∅ := by
  have noReserves : e.reserveKeys m = [] := by
    refine filter_eq_nil_iff.2 fun k listed here => ?_
    obtain ⟨r, found⟩ := mem_keys.1 listed
    simp [(none k (of_decide_eq_true here)).1] at found
  have noEscrows : e.claimKeys m = [] := by
    refine filter_eq_nil_iff.2 fun k listed here => ?_
    obtain ⟨r, found⟩ := mem_keys.1 listed
    simp [(none k (of_decide_eq_true here)).2] at found
  simp only [drainMarketRestingState, reconcile, ok_iff, noReserves, noEscrows, foldlM_nil] at done
  obtain ⟨info, -, resting, ⟨-, -, resting', collected, -, -, -, -, -, -, -, -, rfl⟩, s, rfl, s',
    rfl, e₂, orders, -, -, e₃, reset, rfl, rfl⟩ := done
  have rebooked :=
      (drainOrders_ok (collectResting_market collected) orders).trans (resetBooks_ok reset).1
  exact ⟨rebooked.same, rfl⟩

end Engine

end Dexos.Execution
