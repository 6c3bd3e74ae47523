import Dexos.Clob.LogicalBook

/-!
# The stages of a placement

A settlement that reads a report releases the cancelled orders first, then the fills one by
one, then what the taker left. No maker is filled twice and no cancelled order is a maker, so
the stages can be read off the book before the placement.
-/

namespace Dexos.Clob.PriceTime.Book

open Foundations List Function

variable {o : NewOrder} {b b' : Book} {report : MatchReport} {l : Lookup} {fills : List Fill}
  {f : Fill} {remaining : Quantity} {quantity : Quantity} {seen rest : List Fill} {id : OrderId}

theorem afterFills_of_notMem (other : id ∉ fills.map Fill.makerOrder) :
    afterFills l fills id = l id := by
  induction fills generalizing l with
  | nil => rfl
  | cons f rest ih =>
    rw [map_cons, mem_cons, not_or] at other
    calc afterFills (drawn f l) rest id = drawn f l id := ih other.2
      _ = l id := drawn_of_ne l other.1

/-- When no maker is filled twice, a maker is drawn by its own fill alone. -/
theorem afterFills_maker (once : ((seen ++ f :: rest).map Fill.makerOrder).Nodup) :
    afterFills l seen f.makerOrder = l f.makerOrder ∧
      afterFills l (seen ++ f :: rest) f.makerOrder = drawn f l f.makerOrder := by
  rw [map_append, nodup_append] at once
  obtain ⟨-, tail, apart⟩ := once
  have early : f.makerOrder ∉ seen.map Fill.makerOrder := fun listed =>
    apart _ listed _ mem_cons_self rfl
  have late : f.makerOrder ∉ rest.map Fill.makerOrder := (nodup_cons.1 tail).1
  have before : afterFills l seen f.makerOrder = l f.makerOrder := afterFills_of_notMem early
  refine ⟨before, ?_⟩
  calc afterFills l (seen ++ f :: rest) f.makerOrder
      = afterFills (drawn f (afterFills l seen)) rest f.makerOrder := by simp [afterFills]
    _ = drawn f (afterFills l seen) f.makerOrder := afterFills_of_notMem late
    _ = drawn f l f.makerOrder := by rw [drawn, drawn, update_self, update_self, before]

theorem Covered.at (covered : Covered l (seen ++ f :: rest)) :
    ∃ m, Covers (afterFills l seen) f m := by
  induction seen generalizing l with
  | nil => exact covered.1
  | cons g seen ih => exact ih covered.2

namespace Placed

variable (placed : Placed o b report b')
include placed

/-- Every maker rests in the book before the placement. -/
theorem covers (listed : f ∈ report.result.fills) : ∃ m, Covers b.lookup f m := by
  obtain ⟨seen, rest, split⟩ := append_of_mem listed
  have covered := placed.covered
  have once := placed.fills.makers
  rw [split] at covered once
  obtain ⟨m, covers⟩ := covered.at
  have same : b.lookup f.makerOrder = some m := (afterFills_maker once).1.symm.trans covers.found
  exact ⟨m, { covers with found := same }⟩

/-- A cancelled order is not a maker. -/
theorem cancelled_notMem {c : StpCancellation} (listed : c ∈ report.stpCancelled) :
    c.orderId ∉ report.result.fills.map Fill.makerOrder := by
  intro maker
  obtain ⟨f, filled, same⟩ := mem_map.1 maker
  obtain ⟨m', covers⟩ := placed.covers filled
  obtain ⟨mine, -, m, left, shape⟩ := placed.own c listed
  have account : m.account = o.account := by rw [← mine, ← shape, OrderBook.stpCancellation]
  obtain ⟨seen, rest, split⟩ := append_of_mem filled
  have once := placed.fills.makers
  rw [split] at once left
  rw [← same, (afterFills_maker once).2, drawn, update_self, covers.found, Option.bind_some] at left
  -- Drawing a maker does not change its account, which is not the taker's.
  have other := (placed.fills.proper f filled).2.2.2
  dsimp only at left
  split_ifs at left
  cases left
  exact other (covers.account.symm.trans account)

theorem maker_notMem (listed : f ∈ report.result.fills) :
    f.makerOrder ∉ report.stpCancelled.map StpCancellation.orderId := by
  intro cancelled
  obtain ⟨c, gone, same⟩ := mem_map.1 cancelled
  exact placed.cancelled_notMem gone (same ▸ mem_map_of_mem listed)

theorem covers_withdrawn (listed : f ∈ report.result.fills) :
    ∃ m, Covers (withdrawn report.stpCancelled b.lookup) f m := by
  obtain ⟨m, covers⟩ := placed.covers listed
  exact ⟨m, { covers with found := (if_neg (placed.maker_notMem listed)).trans covers.found }⟩

/-- Cancelling before the fills gives the same orders. -/
theorem lookup_stages : b'.lookup = withTaker o report.result.outcome
      (afterFills (withdrawn report.stpCancelled b.lookup) report.result.fills) := by
  have swap : ∀ (fills : List Fill) (l : Lookup),
      (∀ f ∈ fills, f.makerOrder ∉ report.stpCancelled.map StpCancellation.orderId) →
      afterFills (withdrawn report.stpCancelled l) fills =
        withdrawn report.stpCancelled (afterFills l fills) := by
    intro fills
    induction fills with
    | nil => exact fun _ _ => rfl
    | cons f rest ih =>
      intro l kept
      calc afterFills (drawn f (withdrawn report.stpCancelled l)) rest
          = afterFills (withdrawn report.stpCancelled (drawn f l)) rest := by
            rw [drawn_withdrawn (kept f mem_cons_self)]
        _ = withdrawn report.stpCancelled (afterFills (drawn f l) rest) :=
            ih _ fun g listed => kept g (mem_cons_of_mem f listed)
  rw [placed.lookup, settled, swap _ _ fun f listed => placed.maker_notMem listed]

/-- What is left of a maker is what its own fill left. -/
theorem lookup_maker (listed : f ∈ report.result.fills) : b'.lookup f.makerOrder =
      drawn f (withdrawn report.stpCancelled b.lookup) f.makerOrder := by
  obtain ⟨seen, rest, split⟩ := append_of_mem listed
  have once := placed.fills.makers
  have stages := congrFun placed.lookup_stages f.makerOrder
  have other : f.makerOrder ≠ o.orderId := (placed.fills.proper f listed).2.2.1
  have taker : ∀ l : Lookup, withTaker o report.result.outcome l f.makerOrder = l f.makerOrder := by
    intro l
    rw [withTaker]
    cases restedBy report.result.outcome with
    | none => rfl
    | some remaining => exact update_of_ne other _ _
  rw [stages, taker]
  rw [split] at once ⊢
  exact (afterFills_maker once).2

end Placed

/-! ## Exact remainders -/

/-- What a taker leaves resting after matching is what matching left. -/
theorem dispose_rests {s : Progress} {isMarket : Bool}
    (ok : dispose o isMarket quantity s = (.ok report, b'))
    (rests : restedBy report.result.outcome = some remaining) :
    report.result.fills = s.fills ∧ remaining = s.remaining := by
  obtain ⟨outcome, none, same⟩ | ⟨outcome, book, left, -, -, -, -, same⟩ | ⟨e, -, -, same⟩ :=
    dispose_cases o isMarket quantity s
  · cases same.symm.trans ok
    simp [none] at rests
  · cases same.symm.trans ok
    exact ⟨rfl, Option.some.inj (rests.symm.trans left)⟩
  · cases same.symm.trans ok

/-- A limit order that is not reduce-only rests with exactly what was not filled. -/
theorem place_exact (h : b.Proper) (plain : o.reduceOnly = false) (limit : o.orderType = .limit)
    (ok : b.place o = (.ok report, b')) (rests : restedBy report.result.outcome = some remaining) :
    filledBy report.result.fills + remaining.val = o.quantity.val := by
  have whole : b.executable o = some o.quantity := by simp [executable, plain, limit]
  obtain ⟨e', same⟩ | ⟨positive, -, fresh, same | ⟨quantity, allowed, post | sweep⟩⟩ :=
    place_cases b o
  · cases same.symm.trans ok
  · cases same.symm.trans ok
    cases rests
  · exact absurd (limit.symm.trans post.1) (by decide)
  · rw [sweep.2] at ok
    obtain rfl := Option.some.inj (whole.symm.trans allowed)
    have fair : Fair o o.quantity (b.sweep o (decide (o.orderType = .market)) o.quantity) :=
      (h.fair fresh positive).matched
    obtain ⟨fills, left⟩ := dispose_rests ok rests
    rw [fills, left]
    exact fair.total

theorem replace_exact {price : Price} (h : b.Proper)
    (ok : b.replace id price quantity = (.ok report, b'))
    (rests : restedBy report.result.outcome = some remaining) :
    filledBy report.result.fills + remaining.val = quantity.val := by
  obtain ⟨m, -, placed⟩ := replace_cases ok
  exact place_exact (h.without _) rfl rfl placed rests

end Dexos.Clob.PriceTime.Book
