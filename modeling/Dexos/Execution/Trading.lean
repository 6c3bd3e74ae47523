import Dexos.Execution.Governance

/-!
# Placing, cancelling and replacing one order

A trading command changes one book first and then settles the sidecars, the balances and the
positions that go with it. When it returns, the sidecars back the orders of the new book.
-/

namespace Dexos.Execution

open Foundations Clob Risk OrdMap Function PriceTime List Option
open Clob.PriceTime.Book (Placed restedBy filledBy)

namespace Engine

variable {sha256 : Sha256} {e e' : Engine sha256} {kind : ReceiptKind} {b : BookKey}
  {e₁ : Engine sha256} {fills : List Fill} {info : MarketMeta} {k : OrderKey}
  {l : OrderKey → Option Order} {c : PlaceOrder} {id : OrderId} {rests : Option Quantity}
  {o : NewOrder} {book : LogicalBook} {e₂ : Engine sha256} {notional : Amount} {market : MarketId}
  {account : AccountId}

/-! ## Shared parts -/

theorem authorize_ok {auth : Authorization}
    (done : e.authorize account market notional auth = .ok e') :
    ∃ sessions, e' = { e with sessions := sessions } := by
  cases auth with
  | master =>
    cases done
    exact ⟨e.sessions, rfl⟩
  | session key nonce now =>
    simp only [authorize, ok_iff] at done
    obtain ⟨sessions, -, rfl⟩ := done
    exact ⟨sessions, rfl⟩

/-- A command that replaces books, settles what goes with them and commits what it touched. -/
theorem Handled.ofTrade {command : Command} {S A : AccountId → Prop} {M : MarketId → Prop}
    {sessions : SessionRegistry} {books : Books}
    (step : Step S { e with sessions := sessions, books := books } e₂) (done : Recommits A M e₂ e')
    (healthy : Healthy e) (backed : Backed e₂.resting e₂)
    (shape : ∀ k, (books.get? k).isSome = (e.books.get? k).isSome)
    (quiet : ∀ (k : OrderKey) info, e.markets.get? k.market = some info →
      info.lifecycle = .resolved → e₂.resting k = none)
    (elsewhere : ∀ k : BookKey, ¬ M k.market → books.get? k = e.books.get? k)
    (covered : ∀ a, S a → A a) (bound : ∀ a, principal command = some a → A a)
    (inflow : e.inflow command = 0) (event : creditedEvent command = none) :
    Handled command e e' := by
  have touched := step.touches
  refine Handled.ofCommit (T := S) (N := M) done ⟨step.matched { healthy.matched with }, backed,
    ⟨fun k => ?_, fun m info found resolved => ?_⟩, ⟨fun a inside => ?_, fun m info found => ?_⟩⟩
    (Follows.ofTrades step.trades fun m info found => ⟨info, touched.markets ▸ found, rfl⟩)
    touched.tree touched.replay touched.lastSeq ?_ ?_ ?_ (fun a other => ?_)
      (fun m other => ?_) bound
    covered fun m h => h
  · rw [touched.books, touched.markets]
    rw [shape]
    exact healthy.shaped.books k
  · rw [touched.markets] at found
    obtain ⟨claim, winner, -⟩ := healthy.shaped.resolved m info found resolved
    exact ⟨claim, winner, fun k same => quiet k info (same ▸ found) resolved⟩
  · rw [touched.allocated] at inside
    rw [touched.tree]
    exact healthy.rooted.accounts a inside
  · rw [touched.markets] at found
    rw [touched.tree]
    exact healthy.rooted.markets m info found
  · rw [touched.supply, inflow, add_zero]
  · rw [event, touched.deposits]
    rfl
  · rw [event]
    rintro k ⟨⟩
  · exact touched.accountLeaf other
  · refine marketLeaf_congr (by rw [touched.markets]) fun i => ?_
    rw [touched.books]
    exact elsewhere ⟨m, i⟩ other

theorem isSome_insert_book (stored : e.books.get? b = some book)
    (book' : LogicalBook) (k : BookKey) :
    ((e.books.insert b book').get? k).isSome = (e.books.get? k).isSome := by
  rw [get?_insert]
  split_ifs with same
  · rw [same, stored]
    rfl
  · rfl

/-- Nothing rests in a resolved market after a change of a book elsewhere. -/
theorem quiet_of_opened (healthy : Healthy e) (market : e.markets.get? b.market = some info)
    (opened : info.lifecycle = .opened) {l : OrderId → Option Order} (k : OrderKey)
    (found : MarketMeta) (here : e.markets.get? k.market = some found)
    (resolved : found.lifecycle = .resolved) : onBook e.resting b l k = none := by
  have apart : k.book ≠ b := by
    rintro rfl
    have same : found = info := some.inj (here.symm.trans market)
    simp [same, opened] at resolved
  rw [onBook, if_neg apart]
  exact (healthy.shaped.resolved _ found here resolved).2.2 k rfl

theorem settleMatched_ok {left : Book} {report : MatchReport}
    {marketType : MarketType} (matched : Matched e)
    (placed : Placed o left report book.book) (stored : e.books.get? b = some book)
    (backed : Backed (onBook l b left.lookup) e)
    (released : e.releaseStpCancellations b.market b.instrument o.account marketType
      report.stpCancelled = .ok e₁)
    (filled : e₁.applyFills b.market b.instrument report.result.fills = .ok e₂)
    (taker : ∀ l', e₂.markets = e.markets → Backed l' e₂ →
      l' ⟨b.market, b.instrument, o.orderId⟩ = none → Step (· = o.account) e₂ e' ∧
        Backed ((restedBy report.result.outcome).elim l' fun remaining =>
          update l' ⟨b.market, b.instrument, o.orderId⟩
            (some ⟨o.orderId, o.account, o.side, o.price, remaining, o.clientId⟩)) e') :
    Step (fun a => a = o.account ∨ dealtBy report.result.fills a) e e' ∧
      Backed (onBook l b book.lookup) e' := by
  obtain ⟨first, backed₂⟩ := settleMakers_ok matched placed stored backed released filled
  have absent := (onBook_at l b (Book.afterFills (Book.withdrawn
    report.stpCancelled left.lookup) report.result.fills) o.orderId).trans (taker_absent placed)
  obtain ⟨last, backed₃⟩ := taker _ first.touches.markets backed₂ absent
  refine ⟨first.append (last.mono fun a mine => .inl mine), ?_⟩
  have stages : book.lookup = _ := placed.lookup_stages
  rw [stages, Book.withTaker]
  cases rests : restedBy report.result.outcome with
  | none => rwa [rests] at backed₃
  | some remaining => rwa [rests, elim_some, update_onBook] at backed₃

/-! ## Placement -/

/-- What an admitted placement passed. -/
structure Admitted (e : Engine sha256) (c : PlaceOrder) (info : MarketMeta) (notional : Amount) :
    Prop where
  found : e.markets.get? c.market = some info
  opened : info.lifecycle = .opened
  oracle : info.oracleHealth = .normal ∨ info.oracleHealth = .degraded
  below : c.instrument < info.count
  fresh : (e.resting c.orderKey).isSome = true ∨
    e.orderReserves.contains c.orderKey = false ∧ e.claimEscrows.contains c.orderKey = false
  priced : e.pretradeNotional c.market c.instrument c.newOrder = .ok notional
  admitted : e.admitByType info.marketType c notional = .ok ()

theorem admitOrder_ok {t : MarketType} (done : e.admitOrder c = .ok (e', t)) :
    ∃ sessions info notional, e' = { e with sessions := sessions } ∧ t = info.marketType ∧
      Admitted e c info notional := by
  simp only [admitOrder, gateNewRisk, validateInstrument, ok_iff] at done
  obtain ⟨-, ⟨info, found, -, opened, oracle⟩, info', ⟨info₁, found', -, below, same⟩, -, fresh,
    notional, priced, e₁, authorized, info'', found'', ⟨⟩, admitted, rfl, rfl⟩ := done
  obtain rfl := some.inj (found.symm.trans found')
  obtain ⟨sessions, rfl⟩ := authorize_ok authorized
  obtain rfl := some.inj (found.symm.trans found'')
  exact ⟨sessions, info, notional, rfl, rfl, found, opened, oracle, below, fresh, priced, admitted⟩

theorem lookup_clampedBook (e : Engine sha256) (c : PlaceOrder) (book : LogicalBook) :
    (e.clampedBook c book).lookup = book.lookup := by
  rw [clampedBook]
  split_ifs
  · rfl
  · rfl

theorem backResidual_ok (backed : Backed l e)
    (fresh : l c.orderKey = none) (known : e.markets.get? c.market = some info)
    (proper : ∀ remaining, rests = some remaining →
      0 < remaining.val ∧ 0 < c.price.val ∧ c.orderType ≠ .market)
    (done : e.backResidual c info.marketType rests = .ok e') :
    Step (· = c.account) e e' ∧ Backed (rests.elim l fun remaining =>
      update l c.orderKey
        (some ⟨c.orderId, c.account, c.side, c.price, remaining, c.clientId⟩)) e' := by
  cases rests with
  | none =>
    cases done
    exact ⟨Step.refl _ e, backed⟩
  | some remaining =>
    obtain ⟨positive, priced, limit⟩ := proper remaining rfl
    rw [backResidual] at done
    split_ifs at done with claim ordinary
    · exact escrowTaker_ok (o := ⟨c.orderId, c.account, c.side, c.price, remaining, c.clientId⟩)
        backed fresh ⟨known, claim⟩ priced positive done
    · exact reserveTaker_ok (o := ⟨c.orderId, c.account, c.side, c.price, remaining, c.clientId⟩)
        backed fresh known (Bool.eq_false_iff.2 claim) priced positive done
    · exact absurd ⟨limit, priced⟩ ordinary

theorem placeOrder_ok (done : e.placeOrder c = .ok (e', kind)) :
    ∃ sessions info notional book report placed, Admitted e c info notional ∧
      e.books.get? c.bookKey = some book ∧
      (e.clampedBook c book).placeWithReport c.newOrder = (.ok report, placed) ∧
      settlePlaced { e with sessions := sessions, books := e.books.insert c.bookKey placed } c
        info.marketType report = .ok (e', kind) := by
  simp only [placeOrder, ok_iff, mapError_eq_ok, liftOrder_eq_ok] at done
  obtain ⟨⟨e₀, t⟩, admitted, book, stored, report, placed, done⟩ := done
  obtain ⟨sessions, info, notional, rfl, rfl, passed⟩ := admitOrder_ok admitted
  exact ⟨sessions, info, notional, book, report, _, passed, stored, Prod.ext placed rfl, done⟩

theorem placeOrder_handled (healthy : Healthy e) (done : e.placeOrder c = .ok (e', kind)) :
    Handled (.placeOrder c) e e' := by
  obtain ⟨sessions, info, notional, book, report, placed, passed, stored, matching, done⟩ :=
    placeOrder_ok done
  simp only [settlePlaced, ok_iff] at done
  obtain ⟨e₁, released, e₂, filled, e₃, backed, e₄, committed, rfl, rfl⟩ := done
  have report_ok := LogicalBook.placeWithReport_ok matching
  have before : Backed (onBook e.resting c.bookKey (e.clampedBook c book).book.lookup) e := by
    have same : (e.clampedBook c book).book.lookup = book.lookup := lookup_clampedBook e c book
    rw [same, onBook_resting stored]
    exact healthy.backed
  obtain ⟨step, after⟩ := settleMatched_ok (l := e.resting) (b := c.bookKey)
    (e := { e with sessions := sessions, books := e.books.insert c.bookKey placed })
    { healthy.matched with } report_ok (get?_insert_self _ _ _) before released filled
    fun l markets held absent =>
      backResidual_ok held absent (by rw [markets]; exact passed.found) report_ok.rests backed
  have rests : e₃.resting = onBook e.resting c.bookKey placed.lookup := by
    rw [resting_congr step.touches.books]
    exact resting_insert (e := { e with sessions := sessions }) (b := c.bookKey) placed
  refine Handled.ofTrade step (commitMatched_ok committed) healthy (rests ▸ after)
    (isSome_insert_book stored _) (fun k found here resolved => ?_) (fun k other => ?_)
    (fun a touched => touched) ?_ rfl rfl
  · rw [rests]
    exact quiet_of_opened healthy passed.found passed.opened k found here resolved
  · refine get?_insert_ne _ _ ?_
    rintro rfl
    exact other rfl
  · rintro a ⟨⟩
    exact .inl rfl

/-! ## Cancellation -/

theorem findOrder_eq_some {n i : U16} {owner : AccountId}
    (found : e.findOrder market n id = some (i, owner)) : i < n ∧ ∃ book o,
      e.books.get? ⟨market, i⟩ = some book ∧ book.lookup id = some o ∧ o.account = owner := by
  obtain ⟨j, listed, here⟩ := exists_of_findSome?_eq_some found
  obtain ⟨book, stored, owned⟩ := bind_eq_some_iff.1 here
  obtain ⟨a, mine, equal⟩ := map_eq_some_iff.1 owned
  obtain ⟨rfl, rfl⟩ := equal
  obtain ⟨o, lookup, account⟩ := LogicalBook.owner_eq_some.1 mine
  exact ⟨mem_instruments.1 listed, book, o, stored, lookup, account⟩

theorem cancelIn_ok {absent : ExecutionError} (done : e.cancelIn b id absent = .ok e') :
    ∃ book book', e.books.get? b = some book ∧ e' = { e with books := e.books.insert b book' } ∧
      book'.lookup = update book.lookup id none ∧ ∃ o, book.lookup id = some o := by
  simp only [cancelIn, ok_iff, liftOrder_eq_ok] at done
  obtain ⟨book, stored, ⟨⟩, cancelled, rfl⟩ := done
  obtain ⟨after, found⟩ := LogicalBook.cancel_ok (Prod.ext cancelled rfl)
  exact ⟨book, _, stored, rfl, after, found⟩

/-- Both sidecars of a key, released for its owner. -/
theorem releaseSidecars_ok {owner : Option AccountId}
    (reserve : e.releaseOrderReserve k account = .ok e₁)
    (escrow : e₁.releaseClaimEscrow k (some account) = .ok (e', owner)) (backed : Backed l e) :
    Step (· = account) e e' ∧ Backed (update l k none) e' := by
  obtain ⟨first, reserves, records⟩ := releaseOrderReserve_ok reserve
  obtain ⟨second, records', reserves', -, mine⟩ := releaseClaimEscrow_ok escrow
  have step := first.append (second.mono fun b ⟨r, found, same, _⟩ =>
    same.trans (mine r found account rfl))
  refine ⟨step, backed_update backed step.touches.markets (fun j other => ?_) (fun j other => ?_)
    ⟨?_, ?_⟩⟩
  · rw [reserves', reserves, get?_erase, if_neg other]
  · rw [records', records, get?_erase, if_neg other]
  · rw [reserves', reserves, get?_erase_self]
  · rw [records', get?_erase_self]

theorem cancelOrder_handled {c : CancelOrder} (healthy : Healthy e)
    (done : e.cancelOrder c = .ok (e', kind)) : Handled (.cancelOrder c) e e' := by
  simp only [cancelOrder, ok_iff] at done
  obtain ⟨info, market, done⟩ := done
  cases found : e.findOrder c.market info.count c.orderId with
  | none =>
    simp only [found, ok_iff] at done
    obtain ⟨e₁, authorized, rfl, rfl⟩ := done
    obtain ⟨sessions, rfl⟩ := authorize_ok authorized
    exact Handled.ofSame ⟨{ healthy.matched with }, healthy.backed, { healthy.shaped with },
      { healthy.rooted with }⟩ rfl rfl rfl rfl rfl (add_zero _).symm rfl rfl (fun _ => rfl)
        (fun _ => rfl) rfl
  | some x =>
    obtain ⟨i, owner⟩ := x
    simp only [found, ok_iff] at done
    obtain ⟨-, -, e₁, authorized, e₂, cancelled, e₃, reserve, ⟨e₄, owner'⟩, escrow, e₅, account, e₆,
      committed, rfl, rfl⟩ := done
    obtain ⟨sessions, rfl⟩ := authorize_ok authorized
    obtain ⟨book, book', stored, rfl, after, o, rested⟩ := cancelIn_ok cancelled
    change e.books.get? ⟨c.market, i⟩ = some book at stored
    obtain ⟨step, backed⟩ := releaseSidecars_ok (l := e.resting) reserve escrow healthy.backed
    have rests : e₄.resting = update e.resting ⟨c.market, i, c.orderId⟩ none := by
      rw [resting_congr step.touches.books]
      calc
        Engine.resting { e with sessions := sessions, books := e.books.insert ⟨c.market, i⟩ book' }
          = onBook e.resting ⟨c.market, i⟩ book'.lookup :=
            resting_insert (e := { e with sessions := sessions }) (b := ⟨c.market, i⟩) book'
        _ = update (onBook e.resting ⟨c.market, i⟩ book.lookup) ⟨c.market, i, c.orderId⟩ none := by
            rw [after, update_onBook e.resting ⟨c.market, i⟩]
        _ = update e.resting ⟨c.market, i, c.orderId⟩ none := by rw [onBook_resting stored]
    refine Handled.ofTrade step ((Recommits.ofAccount account).trans (Recommits.ofMarket committed))
      healthy (rests ▸ backed) (isSome_insert_book stored _) (fun k info' here resolved => ?_)
      (fun k other => ?_) (fun a mine => .inl mine) (by rintro a ⟨⟩) rfl rfl
    · have empty := (healthy.shaped.resolved _ info' here resolved).2.2 k rfl
      rw [rests]
      by_cases same : k = ⟨c.market, i, c.orderId⟩
      · rw [same, update_self]
      · rw [update_of_ne same, empty]
    · refine get?_insert_ne _ _ ?_
      rintro rfl
      exact other (.inr rfl)

/-! ## Replacement -/

/-- The filled quantity of fills that fit a quantity. -/
theorem filledQuantity_val (positive : ∀ f ∈ fills, 0 < f.quantity.val)
    (fits : filledBy fills ≤ 2 ^ 63 - 1) : (filledQuantity fills).val = filledBy fills := by
  have run : ∀ (fills : List Fill) (total : Quantity), (∀ f ∈ fills, 0 < f.quantity.val) →
      0 ≤ total.val → total.val + filledBy fills ≤ 2 ^ 63 - 1 →
      (fills.foldl (fun total f => total.saturatingAdd f.quantity) total).val =
        total.val + filledBy fills := by
    intro fills
    induction fills with
    | nil => exact fun total _ _ _ => (add_zero _).symm
    | cons f rest ih =>
      intro total positive counted fits
      have first := positive f mem_cons_self
      have later : ∀ g ∈ rest, 0 < g.quantity.val := fun g listed =>
        positive g (mem_cons_of_mem f listed)
      have rests : 0 ≤ filledBy rest := sum_nonneg fun x listed => by
        obtain ⟨g, there, rfl⟩ := mem_map.1 listed
        exact (later g there).le
      have split : filledBy (f :: rest) = f.quantity.val + filledBy rest := by simp [filledBy]
      have sum : (total.saturatingAdd f.quantity).val = total.val + f.quantity.val :=
        (Bounded.saturatingAdd_val (by omega)).trans (min_eq_right (by omega))
      rw [foldl_cons, ih _ later (by omega) (by omega), sum, split, add_assoc]
  calc (filledQuantity fills).val = (I64.zero).val + filledBy fills :=
        run fills I64.zero positive le_rfl (by change 0 + _ ≤ _; omega)
    _ = filledBy fills := zero_add _

theorem Step.rebook {S : AccountId → Prop} (step : Step S e e') (books : Books) :
    Step S { e with books := books } { e' with books := books } :=
  ⟨{ step.touches with books := rfl }, fun matched => { step.matched { matched with } with },
    step.locked, step.trades⟩

/-- The old backing of an order under replacement is gone before its new terms are matched. -/
theorem readmit_ok {o : Order} {c : ReplaceOrder} {side : Option Side}
    (reserve : e.releaseOrderReserve k c.account = .ok e₁)
    (admitted : Engine.readmit e₁ info.marketType k c notional = .ok (e', side))
    (backed : Backed l e) (rests : l k = some o) (market : e.markets.get? k.market = some info) :
    Step (· = c.account) e e' ∧ Backed (update l k none) e' ∧
      side = if isClaimMarket info.marketType then some o.side else none := by
  have backing := backed k
  rw [rests] at backing
  obtain ⟨-, -, info', market', sidecar⟩ := backing
  obtain rfl := some.inj (market.symm.trans market')
  obtain ⟨first, reserves, records⟩ := releaseOrderReserve_ok reserve
  rw [ readmit] at admitted
  split_ifs at admitted sidecar ⊢ with claim
  · simp only [readmitClaim, ok_iff] at admitted
    obtain ⟨r, found, ⟨e₂, owner⟩, escrow, -, -, rfl, rfl⟩ := admitted
    obtain ⟨-, r', found', backs⟩ := sidecar
    rw [records] at found
    obtain rfl := some.inj (found.symm.trans found')
    obtain ⟨step, after⟩ := releaseSidecars_ok reserve escrow backed
    exact ⟨step, after, congrArg some backs.2.1⟩
  · simp only [ok_iff] at admitted
    obtain ⟨-, -, rfl, rfl⟩ := admitted
    refine ⟨first, backed_update backed first.touches.markets (fun j other => ?_)
      (fun j _ => by rw [records]) ⟨?_, ?_⟩, rfl⟩
    · rw [reserves, get?_erase, if_neg other]
    · rw [reserves, get?_erase_self]
    · rw [records, sidecar.1]

/-- What a replacement leaves on the book is what the fills left of the request. -/
theorem residualNotional_eq {price : Price} {requested remaining : Quantity}
    (positive : ∀ f ∈ fills, 0 < f.quantity.val) (left : 0 < remaining.val)
    (exact : filledBy fills + remaining.val = requested.val) :
    residualNotional fills price requested = (Price.notional price remaining, remaining) := by
  have filled := filledQuantity_val positive (by omega)
  have same : requested.saturatingSub (filledQuantity fills) = remaining := by
    refine Subtype.ext ?_
    rw [Bounded.saturatingSub_val (by omega) (by omega)]
    omega
  simp only [residualNotional, same]
  rw [if_neg (not_le.2 left)]

theorem backReplaced_ok {c : ReplaceOrder}
    (backed : Backed l e) (fresh : l k = none) (known : e.markets.get? k.market = some info)
    (owner : o.account = c.account) (price : o.price = c.price)
    (fills_ok : ∀ f ∈ fills, 0 < f.quantity.val)
    (proper : ∀ remaining, rests = some remaining → 0 < remaining.val ∧ 0 < o.price.val ∧
      filledBy fills + remaining.val = c.quantity.val)
    (done : e.backReplaced k c fills
      (if isClaimMarket info.marketType then some o.side else none) rests = .ok e') :
    Step (· = o.account) e e' ∧ Backed (rests.elim l fun remaining =>
      update l k (some ⟨o.orderId, o.account, o.side, o.price, remaining, o.clientId⟩)) e' := by
  cases rests with
  | none =>
    cases done
    exact ⟨Step.refl _ e, backed⟩
  | some remaining =>
    obtain ⟨positive, priced, whole⟩ := proper remaining rfl
    by_cases claim : isClaimMarket info.marketType = true
    · rw [if_pos claim, backReplaced, ← owner, ← price] at done
      exact escrowTaker_ok (o := ⟨o.orderId, o.account, o.side, o.price, remaining, o.clientId⟩)
        backed fresh ⟨known, claim⟩ priced positive done
    · rw [if_neg claim, backReplaced, residualNotional_eq fills_ok positive whole, ← owner,
        ← price] at done
      exact reserveTaker_ok (o := ⟨o.orderId, o.account, o.side, o.price, remaining, o.clientId⟩)
        backed fresh known (Bool.eq_false_iff.2 claim) priced positive done

theorem replaceOrder_handled {c : ReplaceOrder} (healthy : Healthy e)
    (done : e.replaceOrder c = .ok (e', kind)) : Handled (.replaceOrder c) e e' := by
  simp only [replaceOrder, gateNewRisk, ok_iff, liftOrder_eq_ok] at done
  obtain ⟨-, ⟨info', market', -, opened, -⟩, info, market, ⟨i, owner⟩, found, -, mine, e₁,
    authorized, e₂, reserve, ⟨e₃, side⟩, admitted, book, stored, report, matching, done⟩ := done
  obtain rfl := some.inj (market.symm.trans market')
  obtain ⟨sessions, rfl⟩ := authorize_ok authorized
  obtain ⟨-, book₀, o, stored₀, lookup₀, account⟩ := findOrder_eq_some found
  have rested : e.resting ⟨c.market, i, c.orderId⟩ = some o := by
    change (e.books.get? ⟨c.market, i⟩).bind _ = _
    rwa [stored₀]
  obtain ⟨first, backed, rfl⟩ := readmit_ok reserve admitted healthy.backed rested market
  have kept : e₃.books = e.books := first.touches.books
  obtain rfl : book₀ = book := by
    change e₃.books.get? ⟨c.market, i⟩ = some book at stored
    rw [kept, stored₀] at stored
    exact some.inj stored
  obtain ⟨after, shown⟩ : ∃ after, book₀.replaceWithReport c.orderId c.price c.quantity =
      (.ok report, after) := ⟨_, Prod.ext matching rfl⟩
  rw [shown] at done
  obtain ⟨m, left, lookup, without, placed⟩ := LogicalBook.replaceWithReport_ok shown
  obtain rfl := some.inj (lookup₀.symm.trans lookup)
  simp only [settleReplaced, ok_iff] at done
  obtain ⟨e₄, released, e₅, filled, e₆, replaced, e₇, committed, rfl, rfl⟩ := done
  have owned : o.account = c.account := account.trans mine
  have before : Backed (onBook e.resting ⟨c.market, i⟩ left.lookup) e₃ := by
    rwa [without, ← update_onBook e.resting ⟨c.market, i⟩, onBook_resting stored₀]
  obtain ⟨second, final⟩ := settleMatched_ok (l := e.resting) (b := ⟨c.market, i⟩)
    (e := { e₃ with books := e₃.books.insert ⟨c.market, i⟩ after })
    { first.matched { healthy.matched with } with } placed (get?_insert_self _ _ _) before
    (by rw [OrderBook.replacement, owned]; exact released) filled fun l markets held absent =>
      backReplaced_ok held absent (by rw [markets]; exact first.touches.markets ▸ market) owned rfl
        (fun f listed => (placed.fills.proper f listed).2.1)
        (fun remaining rests =>
          ⟨(placed.rests remaining rests).1, (placed.rests remaining rests).2.1,
            Book.replace_exact book₀.proper (Prod.ext matching rfl) rests⟩) replaced
  have step := ((first.rebook (e₃.books.insert ⟨c.market, i⟩ after)).mono (T := fun a =>
      a = c.account ∨ dealtBy report.result.fills a) fun a same => .inl same).append
    (second.mono fun a touched => touched.imp_left fun same => same.trans owned)
  have rests : e₆.resting = onBook e.resting ⟨c.market, i⟩ after.lookup := by
    rw [resting_congr second.touches.books, resting_insert, resting_congr kept]
  rw [kept] at step
  refine Handled.ofTrade step (commitMatched_ok committed) healthy (rests ▸ final)
    (isSome_insert_book stored₀ _) (fun k found' here resolved => ?_) (fun k other => ?_)
    (fun a touched => touched) (by rintro a ⟨⟩) rfl rfl
  · rw [rests]
    exact quiet_of_opened healthy market opened k found' here resolved
  · refine get?_insert_ne _ _ ?_
    rintro rfl
    exact other rfl

end Engine

end Dexos.Execution
