import Dexos.Clob.LogicalBook
import Dexos.Clob.Refinement

/-!
# Runs of linked books

The engine's model of a book is the logical one. After any calls a linked book stands for one.
What a placement does is told by its report.
-/

namespace Dexos.Clob

open Foundations PriceTime.Book Stands

variable {sha256 : Sha256} {config : BookConfig} {ob : OrderBook}

/-- Whatever calls a linked book took, it answers every further call as one logical book does, keeps
standing for it, and every accessor reads that book. -/
theorem linked_runs_logical (reached : Reachable sha256 .default ob) : ∃ b, Stands sha256 ob b ∧
    ((∀ o, Follows sha256 (ob.placeWithReport sha256 o) (b.placeWithReport o)) ∧
      (∀ id, Follows sha256 (ob.cancel sha256 id) (b.cancel id)) ∧
      (∀ account, Follows sha256 (ob.cancelAll sha256 account) (b.cancelAll account)) ∧
      ∀ id price quantity, Follows sha256
        (ob.replaceWithReport sha256 id price quantity) (b.replaceWithReport id price quantity)) ∧
    ob.contains = b.contains ∧ ob.owner = b.owner ∧ ob.restingOrders = b.restingOrders ∧
      ob.restingLen = b.restingLen ∧ ob.canRestWithoutMatch = b.canRestWithoutMatch ∧
      (∀ o, ob.planMatchSummary o = some (b.planMatchSummary o)) ∧
      ob.stateRoot sha256 = b.stateRoot sha256 := by
  obtain ⟨sound, same⟩ := reached.sound (by decide)
  have stands : Stands sha256 ob ⟨ob.view, sound.proper, same⟩ := ⟨sound, rfl⟩
  exact ⟨_, stands,
    ⟨stands.placeWithReport, stands.cancel, stands.cancelAll, stands.replaceWithReport⟩,
    stands.readouts⟩

def atTen (id : OrderId) (account : AccountId) (side : Side) (quantity : Int) : NewOrder :=
  ⟨id, account, side, .limit, .gtc, units 10, units quantity, 0, false⟩

/-- Five units of account 0 meet an ask of account 1 and an ask of its own. -/
def crossingReport : MatchReport :=
  ⟨⟨[⟨1, 3, 1, 0, units 10, units 1, .bid⟩], .partiallyFilledResting (units 4)⟩,
    [⟨2, 0, .ask, units 10, units 1⟩]⟩

/-- The crossing bid is filled, cancels its account's ask and rests with what remains. -/
theorem exists_crossing : ∃ ob, Reachable (fun _ => 0) .default ob ∧ ob.restingLen = 2 ∧
    (ob.placeWithReport (fun _ => 0) (atTen 3 0 .bid 5)).map Prod.fst =
      some (.ok crossingReport) := by
  obtain ⟨ob, placed, shown⟩ := (Option.any_eq_true _ _).1 (show
    (((OrderBook.new .default).call (fun _ => 0) (.place (atTen 1 1 .ask 1))).bind
      (·.call (fun _ => 0) (.place (atTen 2 0 .ask 1)))).any (fun ob => decide (
        ob.restingLen = 2 ∧ (ob.placeWithReport (fun _ => 0) (atTen 3 0 .bid 5)).map Prod.fst =
          some (.ok crossingReport))) = true by decide +kernel)
  obtain ⟨first, before, after⟩ := Option.bind_eq_some_iff.1 placed
  exact ⟨ob, .step _ (.step _ .new before) after, of_decide_eq_true shown⟩

theorem linked_runs_logical_crossing : ∃ (ob : OrderBook) (b : LogicalBook),
    ob.restingOrders = b.restingOrders ∧ b.restingLen = 2 ∧
    (b.placeWithReport (atTen 3 0 .bid 5)).1 = .ok crossingReport ∧
    Follows (fun _ => 0) (ob.placeWithReport (fun _ => 0) (atTen 3 0 .bid 5))
      (b.placeWithReport (atTen 3 0 .bid 5)) := by
  obtain ⟨ob, reached, two, answered⟩ := exists_crossing
  obtain ⟨b, -, ⟨places, -⟩, -, -, orders, length, -⟩ := linked_runs_logical reached
  have follows := places (atTen 3 0 .bid 5)
  obtain ⟨ob', done, -⟩ := id follows
  rw [done] at answered
  exact ⟨ob, b, orders, length ▸ two, Option.some.inj answered, follows⟩

/-- A placement on a reachable book fails and changes no order, or its report tells every fill,
every cancellation and what rests. -/
theorem placement_told (addressable : (config.capacity : Nat) ≤ u32Max)
    (reached : Reachable sha256 config ob) (o : NewOrder) : ∃ answer ob',
      ob.placeWithReport sha256 o = some (answer, ob') ∧
      ((∃ err, answer = .error err ∧ ob'.view = ob.view) ∨
        ∃ report, answer = .ok report ∧ Placed o ob.view report ob'.view) := by
  obtain ⟨sound, same⟩ := reached.sound addressable
  obtain ⟨ob', done, view, -, -⟩ := (sound.placeWithReport (same ▸ addressable) o).exists_some
  refine ⟨_, ob', done, ?_⟩
  cases placed : (ob.view.place o).1 with
  | error err => exact .inl ⟨err, rfl, place_error sound.proper (Prod.ext placed view.symm)⟩
  | ok report => exact .inr ⟨report, rfl, place_ok sound.proper (Prod.ext placed view.symm)⟩

theorem placement_told_crossing : ∃ ob ob' : OrderBook, ob.restingLen = 2 ∧
    ob.placeWithReport (fun _ => 0) (atTen 3 0 .bid 5) = some (.ok crossingReport, ob') ∧
    Placed (atTen 3 0 .bid 5) ob.view crossingReport ob'.view := by
  obtain ⟨ob, reached, two, answered⟩ := exists_crossing
  obtain ⟨answer, ob', done, told⟩ := placement_told (by decide) reached (atTen 3 0 .bid 5)
  rw [done] at answered
  obtain rfl := Option.some.inj answered
  refine ⟨ob, ob', two, done, ?_⟩
  obtain ⟨err, ⟨⟩, -⟩ | ⟨report, ⟨⟩, placed⟩ := told
  exact placed

end Dexos.Clob
