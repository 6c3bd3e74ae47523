import Dexos.Clob.Stages
import Dexos.Execution.Fills

/-!
# Settling a matched order

The orders that self-trade prevention removed are released first, then the fills are settled
one by one, and last the remainder of the taker is backed. The sidecars follow the stages of
the book, so at the end they back exactly the orders that rest.
-/

namespace Dexos.Execution

open Foundations Clob Risk OrdMap Function PriceTime Option
open Clob.PriceTime.Book (Lookup)

namespace Engine

variable {sha256 : Sha256} {e e' : Engine sha256} {k : OrderKey} {fills : List Fill}
  {book : LogicalBook} {marketType : MarketType}

variable {l : OrderKey → Option Order} {info : MarketMeta} {report : MatchReport} {o : NewOrder}
  {b : BookKey} {incoming : AccountId} {market : MarketId}

theorem releaseStpCancellation_ok {instrument : U16} {c : StpCancellation} (backed : Backed l e)
    (done : releaseStpCancellation market instrument incoming marketType e c = .ok e') :
    Step (· = incoming) e e' ∧ Backed (update l ⟨market, instrument, c.orderId⟩ none) e' := by
  rw [releaseStpCancellation] at done
  split_ifs at done with claim
  · simp only [ok_iff] at done
    obtain ⟨-, -, -, bare, r, found, -, -, ⟨e₁, owner⟩, released, -, -, rfl⟩ := done
    obtain ⟨step, records, reserves, -, mine⟩ := releaseClaimEscrow_ok released
    refine ⟨step.mono ?_, backed_update backed step.touches.markets (fun j _ => by rw [reserves])
      (fun j other => by rw [records, get?_erase, if_neg other]) ⟨?_, ?_⟩⟩
    · rintro b ⟨x, there, rfl, -⟩
      exact mine x there incoming rfl
    · rw [reserves, bare]
    · rw [records, get?_erase_self]
  · simp only [ok_iff] at done
    obtain ⟨-, mine, -, bare, -, backs, done⟩ := done
    cases found : e.orderReserves.get? ⟨market, instrument, c.orderId⟩ with
    | none =>
      rw [found] at done
      cases done
      exact ⟨Step.refl _ e,
        backed_update backed rfl (fun _ _ => rfl) (fun _ _ => rfl) ⟨found, bare⟩⟩
    | some r =>
      simp only [found, ok_iff, liftRisk_eq_ok] at done
      obtain ⟨risk, released, rfl⟩ := done
      have owner : r.account = incoming := by
        obtain same | ⟨absent, -⟩ := backs
        · rw [found] at same
          cases same
          exact mine
        · simp [found] at absent
      have step := eraseReserve_step found released
      refine ⟨?_, backed_update backed rfl
        (fun j other => by rw [get?_erase, if_neg other]) (fun _ _ => rfl) ⟨?_, bare⟩⟩
      · exact ⟨{ (step.mono fun b h => h.1.trans owner).touches with }, step.matched, step.locked,
          step.trades⟩
      · exact get?_erase_self _ _

/-! ## The loops of a settlement -/

/-- A lookup with the orders of one book replaced. -/
def onBook (l : OrderKey → Option Order) (b : BookKey) (g : Lookup) : OrderKey → Option Order :=
  fun k => if k.book = b then g k.orderId else l k

section OnBook

variable {l : OrderKey → Option Order} {b : BookKey} {g : Lookup} {id : OrderId}

theorem onBook_at (l : OrderKey → Option Order) (b : BookKey) (g : Lookup) (id : OrderId) :
    onBook l b g ⟨b.market, b.instrument, id⟩ = g id :=
  if_pos rfl

theorem update_onBook (l : OrderKey → Option Order) (b : BookKey) (g : Lookup) (id : OrderId)
    (o : Option Order) : update (onBook l b g) ⟨b.market, b.instrument, id⟩ o =
      onBook l b (update g id o) := by
  funext k
  by_cases same : k = ⟨b.market, b.instrument, id⟩
  · subst same
    rw [update_self, onBook_at, update_self]
  · rw [update_of_ne same, onBook, onBook]
    by_cases here : k.book = b
    · have other : k.orderId ≠ id := by
        rintro rfl
        subst here
        exact same rfl
      rw [if_pos here, if_pos here, update_of_ne other]
    · rw [if_neg here, if_neg here]

theorem onBook_resting (stored : e.books.get? b = some book) :
    onBook e.resting b book.lookup = e.resting := by
  funext k
  rw [onBook]
  split_ifs with here
  · rw [resting, here, stored, bind_some]
  · rfl

theorem resting_insert (book : LogicalBook) :
    Engine.resting { e with books := e.books.insert b book } = onBook e.resting b book.lookup := by
  funext k
  rw [resting, onBook]
  rw [get?_insert]
  split_ifs with here
  · rw [bind_some]
  · rfl

end OnBook

theorem releaseStpCancellations_ok {g : Lookup}
    {cancelled : List StpCancellation} (backed : Backed (onBook l b g) e)
    (done : e.releaseStpCancellations b.market b.instrument incoming marketType
      cancelled = .ok e') :
    Step (· = incoming) e e' ∧ Backed (onBook l b (Book.withdrawn cancelled g)) e' := by
  refine foldlM_induction (P := fun seen s => Step (· = incoming) e s ∧
    Backed (onBook l b (Book.withdrawn seen g)) s) ⟨Step.refl _ e, ?_⟩ ?_ done
  · have same : Book.withdrawn [] g = g := funext fun _ => if_neg List.not_mem_nil
    rwa [same]
  · rintro seen c rest s s' - ⟨so_far, held⟩ step
    obtain ⟨next, after⟩ := releaseStpCancellation_ok held step
    refine ⟨so_far.append next, ?_⟩
    rwa [Book.withdrawn_append, ← update_onBook]

/-- The accounts of some fills. -/
def dealtBy (fills : List Fill) (a : AccountId) : Prop :=
  ∃ f ∈ fills, a = f.takerAccount ∨ a = f.makerAccount

/-- The fill loop draws every maker by its fill. -/
theorem applyFills_ok {g : Lookup} (matched : Matched e) (backed : Backed (onBook l b g) e)
    (stored : e.books.get? b = some book) (once : (fills.map Fill.makerOrder).Nodup)
    (covers : ∀ f ∈ fills, ∃ m, Book.Covers g f m)
    (final : ∀ f ∈ fills, book.lookup f.makerOrder = Book.drawn f g f.makerOrder)
    (done : e.applyFills b.market b.instrument fills = .ok e') :
    Step (dealtBy fills) e e' ∧ Backed (onBook l b (Book.afterFills g fills)) e' := by
  rw [applyFills, mapError_eq_ok, applyFillLegs] at done
  simp only [ok_iff, Leg.run_eq_ok] at done
  obtain ⟨info, known, done⟩ := done
  refine foldlM_induction (P := fun seen s => Step (dealtBy fills) e s ∧
    Backed (onBook l b (Book.afterFills g seen)) s) ⟨Step.refl _ e, backed⟩ ?_ done
  rintro seen f rest s s' split ⟨so_far, held⟩ step
  have listed : f ∈ fills := by simp [split]
  obtain ⟨m, covered⟩ := covers f listed
  have here : Book.afterFills g seen f.makerOrder = some m := by
    rw [split] at once
    exact (Book.afterFills_maker once).1.trans covered.found
  have drawn : Book.drawn f (Book.afterFills g seen) = update (Book.afterFills g seen) f.makerOrder
        (if (m.remaining.saturatingSub f.quantity).val = 0 then none
          else some (m.withRemaining (m.remaining.saturatingSub f.quantity))) := by
    rw [Book.drawn, here, bind_some]
  have gone : (s.resting ⟨b.market, b.instrument, f.makerOrder⟩).isNone = true ↔
      (m.remaining.saturatingSub f.quantity).val = 0 := by
    have shown : s.resting ⟨b.market, b.instrument, f.makerOrder⟩ = book.lookup f.makerOrder := by
      rw [resting, so_far.touches.books]
      change (e.books.get? b).bind _ = _
      rw [stored, bind_some]
    rw [shown, final f listed, Book.drawn, update_self, covered.found, bind_some]
    dsimp only
    split_ifs with empty
    · exact iff_of_true rfl empty
    · exact iff_of_false (by simp) empty
  obtain ⟨next, after⟩ := applyFill_ok (so_far.matched matched) held
    (by rw [so_far.touches.markets, known]) ((onBook_at l b _ _).trans here) covered.account
    covered.side covered.price covered.positive covered.enough gone step
  refine ⟨so_far.append (next.mono fun a touched => ⟨f, listed, touched⟩), ?_⟩
  rwa [Book.afterFills_append, drawn, ← update_onBook]

/-- Releasing and filling, in the order of the report. -/
theorem settleMakers_ok {left : Book} {e₁ : Engine sha256} (matched : Matched e)
    (placed : Book.Placed o left report book.book) (stored : e.books.get? b = some book)
    (backed : Backed (onBook l b left.lookup) e)
    (released : e.releaseStpCancellations b.market b.instrument o.account marketType
      report.stpCancelled = .ok e₁)
    (filled : e₁.applyFills b.market b.instrument report.result.fills = .ok e') :
    Step (fun a => a = o.account ∨ dealtBy report.result.fills a) e e' ∧
      Backed (onBook l b (Book.afterFills
        (Book.withdrawn report.stpCancelled left.lookup) report.result.fills)) e' := by
  obtain ⟨first, backed₁⟩ := releaseStpCancellations_ok backed released
  obtain ⟨second, backed₂⟩ := applyFills_ok (first.matched matched) backed₁
    (by rw [first.touches.books, stored]) placed.fills.makers
    (fun f listed => placed.covers_withdrawn listed) (fun f listed => placed.lookup_maker listed)
    filled
  refine ⟨(first.mono fun a mine => .inl mine).append (second.mono fun a dealt => .inr dealt), ?_⟩
  exact backed₂

/-! ## The remainder of the taker -/

theorem escrowTaker_ok {o : Order}
    (backed : Backed l e) (fresh : l k = none) (market : ClaimMarketOf e.markets k.market info)
    (priced : 0 < o.price.val) (positive : 0 < o.remaining.val)
    (done : e.escrowClaimResting k o.account o.side o.price o.remaining = .ok e') :
    Step (· = o.account) e e' ∧ Backed (update l k (some o)) e' := by
  have bare := backed k
  rw [fresh] at bare
  obtain ⟨step, reserves, r, backs, records⟩ := escrowClaimResting_ok bare.2 priced positive done
  refine ⟨step, backed_update backed step.touches.markets (fun j _ => by rw [reserves])
    (fun j other => by rw [records, get?_insert_ne _ _ other]) ?_⟩
  refine ⟨priced, positive, info, market.1, ?_⟩
  rw [if_pos market.2, reserves, records, get?_insert_self]
  exact ⟨bare.1, r, rfl, backs⟩

theorem reserveTaker_ok {o : Order}
    (backed : Backed l e) (fresh : l k = none) (known : e.markets.get? k.market = some info)
    (perpetual : isClaimMarket info.marketType = false) (priced : 0 < o.price.val)
    (positive : 0 < o.remaining.val)
    (done : e.reserveOrder k o.account (Price.notional o.price o.remaining) o.remaining = .ok e') :
    Step (· = o.account) e e' ∧ Backed (update l k (some o)) e' := by
  have bare := backed k
  rw [fresh] at bare
  obtain ⟨step, records, reserves⟩ := reserveOrder_ok bare.1 done
  refine ⟨step, backed_update backed step.touches.markets
    (fun j other => by rw [reserves, if_neg other]) (fun j _ => by rw [records]) ?_⟩
  refine ⟨priced, positive, info, known, ?_⟩
  rw [perpetual, records, reserves, if_pos rfl]
  refine ⟨bare.2, ?_⟩
  split_ifs with nothing
  · exact .inr ⟨rfl, Subtype.ext nothing⟩
  · exact .inl rfl

/-- Nothing rests under the taker's identifier until the taker does. -/
theorem taker_absent {b b' : Book} (placed : Book.Placed o b report b') :
    Book.afterFills (Book.withdrawn report.stpCancelled b.lookup)
      report.result.fills o.orderId = none := by
  apply Book.afterFills_of_none
  rw [Book.withdrawn, placed.fresh, ite_self]

/-! ## Commits -/

theorem mem_touchedBy {a : AccountId} : a ∈ (touchedBy fills).keys ↔ dealtBy fills a := by
  have grows : ∀ s : AccountSet, a ∈ (fills.foldl
      (fun s f => (s.insert f.takerAccount ()).insert f.makerAccount ()) s).keys ↔
      dealtBy fills a ∨ a ∈ s.keys := by
    induction fills with
    | nil => exact fun s => (or_iff_right fun ⟨f, listed, _⟩ => List.not_mem_nil listed).symm
    | cons f rest ih =>
      intro s
      have split : dealtBy (f :: rest) a ↔ (a = f.takerAccount ∨ a = f.makerAccount) ∨
          dealtBy rest a :=
        List.exists_mem_cons_iff ..
      rw [List.foldl_cons, ih, mem_insert_keys, mem_insert_keys]
      tauto
  exact (grows ∅).trans (or_iff_left List.not_mem_nil)

theorem commitMatched_ok {account : AccountId}
    (done : e.commitMatched fills account market = .ok e') :
    Recommits (fun a => a = account ∨ dealtBy fills a) (· = market) e e' := by
  simp only [commitMatched, bind_eq_ok] at done
  obtain ⟨e₁, dealt, e₂, taker, done⟩ := done
  refine (((commitAccounts_ok dealt).trans (Recommits.ofAccount taker)).trans
    (Recommits.ofMarket done)).mono (fun a listed => ?_) fun m same => .inr same
  exact .inl (listed.symm.imp_left fun h => mem_touchedBy.2 h)

end Engine

end Dexos.Execution
