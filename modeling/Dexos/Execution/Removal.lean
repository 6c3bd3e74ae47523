import Dexos.Execution.Trading

/-!
# Removing the orders of an account

A mass cancellation removes the orders of an account from the books of one market, a
liquidation from all books. The sidecars that go are those of the same orders.
-/

namespace Dexos.Execution

open Foundations Clob Risk List OrdMap RiskEngine Prod

theorem filter_owned {α : Type} {x : Option α} {owner : α → AccountId} {a : AccountId}
    (mine : AccountId → Bool) (owned : ∀ r, x = some r → owner r = a) :
    x.filter (fun r => !mine (owner r)) = if mine a then none else x := by
  cases x with
  | none => rw [Option.filter_none, ite_self]
  | some r =>
    rw [Option.filter_some, owned r rfl]
    cases mine a <;> rfl

/-- Removing orders and their sidecars by the same predicate. -/
theorem Backed.filter {sha256 : Sha256} {e e' : Engine sha256}
    {l : OrderKey → Option Order} (mine : OrderKey → AccountId → Bool) (backed : Backed l e)
    (markets : e'.markets = e.markets)
    (reserves : e'.orderReserves = e.orderReserves.filter fun k r => !mine k r.account)
    (records : e'.claimEscrows = e.claimEscrows.filter fun k r => !mine k r.account) :
    Backed (fun k => (l k).filter fun o => !mine k o.account) e' := by
  intro k
  have backing := backed k
  rw [markets, reserves, records, get?_filter, get?_filter]
  dsimp only
  cases rests : l k with
  | none =>
    rw [rests] at backing
    rw [backing.1, backing.2]
    exact ⟨rfl, rfl⟩
  | some o =>
    rw [rests] at backing
    obtain ⟨priced, positive, info, market, sidecar⟩ := backing
    -- whatever backs the order belongs to its account
    have owners : (∀ r, e.orderReserves.get? k = some r → r.account = o.account) ∧
        ∀ r, e.claimEscrows.get? k = some r → r.account = o.account := by
      split_ifs at sidecar with claim
      · obtain ⟨bare, r, found, backs⟩ := sidecar
        rw [bare, found]
        exact ⟨by rintro _ ⟨⟩, by rintro _ ⟨⟩; exact backs.1⟩
      · obtain ⟨bare, same | ⟨absent, -⟩⟩ := sidecar
        · rw [bare, same]
          exact ⟨by rintro _ ⟨⟩; rfl, by rintro _ ⟨⟩⟩
        · rw [bare, absent]
          exact ⟨by rintro _ ⟨⟩, by rintro _ ⟨⟩⟩
    rw [filter_owned (mine k) owners.1, filter_owned (mine k) owners.2, Option.filter_some]
    cases mine k o.account with
    | true => exact ⟨rfl, rfl⟩
    | false => exact ⟨priced, positive, info, market, sidecar⟩

/-- What a liquidation leaves reserved: nothing for the account it closed. -/
theorem Reserved.close {reserves : OrdMap OrderKey OrderReserve} {risk mid risk' : RiskEngine}
    {account : AccountId} {K : MarketId → Prop} {S : AccountId → Prop}
    (reserved : Reserved reserves risk)
    (moved : risk.Moved K mid (fun _ => 0) S) (closed : mid.closeAccount account = .ok risk') :
    Reserved (reserves.filter fun _ r => !decide (r.account = account)) risk' := by
  obtain ⟨-, others, ⟨x, a, -, after, -, -, -, nothing⟩, -⟩ :=
    closeAccount_ok (K := K) closed
  intro b
  rw [total_filter]
  by_cases same : b = account
  · have none : risk'.reserved b = 0 := by
      rw [RiskEngine.reserved, same, after, weightOf_some, nothing]
      rfl
    rw [none, total_eq_zero]
    intro k r _
    rw [reserveAt, same]
    by_cases mine : r.account = account
    · simp [mine]
    · simp [mine]
  · have kept : risk'.reserved b = risk.reserved b := by
      rw [RiskEngine.reserved, others b same]
      exact (moved.reserved b).trans (add_zero _)
    rw [kept, reserved]
    refine total_congr fun k r _ => ?_
    rw [reserveAt]
    by_cases mine : r.account = account
    · rw [if_neg fun h => same (h.symm.trans mine), ite_self]
    · simp [mine]

namespace Engine

variable {sha256 : Sha256} {e e' : Engine sha256} {kind : ReceiptKind}
  {account : AccountId} {c : Liquidate} {p : OrderKey → AccountId → Bool} {keys : List OrderKey}
  {l : List BookKey}

/-! ## Books -/

theorem get?_cancelAllIn (account : AccountId) (books : Books) (k j : BookKey) :
    (cancelAllIn account books k).1.get? j =
      if j = k then (books.get? k).map fun b => (b.cancelAll account).2 else books.get? j := by
  rw [cancelAllIn]
  cases found : books.get? k with
  | none =>
    split_ifs with same
    · rw [same, found, Option.map_none]
    · rfl
  | some b => exact get?_insert books k j _

theorem get?_cancelAllIn_loop (account : AccountId) (nodup : l.Nodup)
    (books : Books) (j : BookKey) :
    (l.foldl (fun books k => (cancelAllIn account books k).1) books).get? j =
      if j ∈ l then (books.get? j).map fun b => (b.cancelAll account).2 else books.get? j := by
  induction l generalizing books with
  | nil => rfl
  | cons k rest ih =>
    obtain ⟨fresh, nodup⟩ := nodup_cons.1 nodup
    rw [foldl_cons, ih nodup, get?_cancelAllIn]
    by_cases same : j = k
    · subst same
      rw [if_neg fresh, if_pos rfl, if_pos mem_cons_self]
    · rw [if_neg same]
      by_cases later : j ∈ rest
      · rw [if_pos later, if_pos (mem_cons_of_mem k later)]
      · rw [if_neg later, if_neg fun h => later ((mem_cons.1 h).resolve_left same)]

/-- What rests under a key after its book was cleared of an account. -/
theorem lookup_cleared (book : Option LogicalBook) (account : AccountId) (id : OrderId) :
    ((book.map fun b => (b.cancelAll account).2).bind fun b => b.lookup id) =
      (book.bind fun b => b.lookup id).filter fun o => o.account ≠ account := by
  cases book with
  | none => rfl
  | some b => exact LogicalBook.lookup_cancelAll b account id

/-! ## Sidecars -/

theorem dropReserves_ok
    (mine : ∀ k ∈ keys, ∀ r, e.orderReserves.get? k = some r → r.account = account)
    (done : keys.foldlM dropReserve e = .ok e') :
    Step (· = account) e e' ∧ e'.claimEscrows = e.claimEscrows ∧
      ∀ j, e'.orderReserves.get? j = if j ∈ keys then none else e.orderReserves.get? j := by
  refine foldlM_induction (P := fun seen s => Step (· = account) e s ∧
    s.claimEscrows = e.claimEscrows ∧
    ∀ j, s.orderReserves.get? j = if j ∈ seen then none else e.orderReserves.get? j)
    ⟨Step.refl _ e, rfl, fun j => (if_neg not_mem_nil).symm⟩ ?_ done
  rintro seen k rest s s' split ⟨so_far, records, reserves⟩ step
  obtain ⟨next, reserves', records'⟩ := dropReserve_ok step
  refine ⟨so_far.append (next.mono ?_), records'.trans records, fun j => ?_⟩
  · rintro a ⟨r, found, rfl⟩
    rw [reserves] at found
    split_ifs at found
    exact mine k (by simp [split]) r found
  · rw [reserves', get?_erase, reserves]
    by_cases same : j = k
    · rw [if_pos same, if_pos (by simp [same])]
    · simp [same]

theorem releaseEscrows_ok (done : e.releaseEscrows account keys = .ok e') :
    Step (· = account) e e' ∧ e'.orderReserves = e.orderReserves ∧
      ∀ j, e'.claimEscrows.get? j = if j ∈ keys then none else e.claimEscrows.get? j := by
  refine foldlM_induction (P := fun seen s => Step (· = account) e s ∧
    s.orderReserves = e.orderReserves ∧
    ∀ j, s.claimEscrows.get? j = if j ∈ seen then none else e.claimEscrows.get? j)
    ⟨Step.refl _ e, rfl, fun j => (if_neg not_mem_nil).symm⟩ ?_ done
  rintro seen k rest s s' split ⟨so_far, reserves, records⟩ step
  simp only [ok_iff] at step
  obtain ⟨⟨s₁, owner⟩, released, rfl⟩ := step
  obtain ⟨next, records', reserves', -, mine⟩ := releaseClaimEscrow_ok released
  refine ⟨so_far.append (next.mono ?_), reserves'.trans reserves, fun j => ?_⟩
  · rintro a ⟨r, found, rfl, -⟩
    exact mine r found account rfl
  · rw [records', get?_erase, records]
    by_cases same : j = k
    · rw [if_pos same, if_pos (by simp [same])]
    · simp [same]

theorem mem_reservesOf {k : OrderKey} :
    k ∈ e.reservesOf p ↔ ∃ r, e.orderReserves.get? k = some r ∧ p k r.account = true :=
  mem_keys_filter (p := fun k (r : OrderReserve) => p k r.account)

theorem dropReservesOf_ok (mine : ∀ k owner, p k owner = true → owner = account)
    (done : (e.reservesOf p).foldlM dropReserve e = .ok e') :
    Step (· = account) e e' ∧ e'.claimEscrows = e.claimEscrows ∧
      e'.orderReserves = e.orderReserves.filter fun k r => !p k r.account := by
  have owners : ∀ k ∈ e.reservesOf p, ∀ r, e.orderReserves.get? k = some r →
      r.account = account := by
    intro k listed r found
    obtain ⟨r', found', owned⟩ := mem_reservesOf.1 listed
    rw [found] at found'
    cases found'
    exact mine k _ owned
  obtain ⟨step, records, reserves⟩ := dropReserves_ok owners done
  exact ⟨step, records, eq_filter_of_erased (fun k (r : OrderReserve) => p k r.account) reserves⟩

theorem releaseEscrowsOf_ok (done : e.releaseEscrows account (e.escrowsOf p) = .ok e') :
    Step (· = account) e e' ∧ e'.orderReserves = e.orderReserves ∧
      e'.claimEscrows = e.claimEscrows.filter fun k r => !p k r.account := by
  obtain ⟨step, reserves, records⟩ := releaseEscrows_ok done
  exact ⟨step, reserves,
    eq_filter_of_erased (fun k (r : ClaimOrderEscrow) => p k r.account) records⟩

/-! ## Mass cancellation -/

theorem instruments_nodup (n : U16) : (instruments n).Nodup := by
  refine nodup_range.map_on fun i below j below' same => ?_
  rw [mem_range] at below below'
  have values : i % 2 ^ 16 = j % 2 ^ 16 := congrArg Fin.val same
  rwa [Nat.mod_eq_of_lt (below.trans n.isLt), Nat.mod_eq_of_lt (below'.trans n.isLt)] at values

theorem get?_clearedMarket (account : AccountId) (market : MarketId) (n : U16) (books : Books)
    (j : BookKey) :
    ((instruments n).foldl (fun (s : Books × Nat) i =>
      let r := cancelAllIn account s.1 ⟨market, i⟩
      (r.1, min u32Max (s.2 + r.2))) (books, 0)).1.get? j =
      if j.market = market ∧ j.instrument < n then
        (books.get? j).map fun b => (b.cancelAll account).2
      else books.get? j := by
  have first :
      (instruments n).foldl (fun books i => (cancelAllIn account books ⟨market, i⟩).1) books =
      ((instruments n).foldl (fun (s : Books × Nat) i =>
        let r := cancelAllIn account s.1 ⟨market, i⟩
        (r.1, min u32Max (s.2 + r.2))) (books, 0)).1 := by
    change List.foldl _ (fst (books, 0)) _ = _
    exact foldl_hom fst fun _ _ => rfl
  have nodup : ((instruments n).map (BookKey.mk market)).Nodup :=
    (instruments_nodup n).map fun i j same => congrArg BookKey.instrument same
  have listed : j ∈ (instruments n).map (BookKey.mk market) ↔
      j.market = market ∧ j.instrument < n := by
    rw [mem_map]
    constructor
    · rintro ⟨i, below, rfl⟩
      exact ⟨rfl, mem_instruments.1 below⟩
    · rintro ⟨rfl, below⟩
      exact ⟨j.instrument, mem_instruments.2 below, rfl⟩
  have loop := get?_cancelAllIn_loop account nodup books j
  rw [foldl_map] at loop
  rw [← first]
  refine loop.trans ?_
  by_cases here : j.market = market ∧ j.instrument < n
  · rw [if_pos (listed.2 here), if_pos here]
  · rw [if_neg fun h => here (listed.1 h), if_neg here]

theorem cancelAll_handled {c : CancelAll} (healthy : Healthy e)
    (done : e.cancelAll c = .ok (e', kind)) : Handled (.cancelAll c) e e' := by
  simp only [cancelAll, ok_iff] at done
  obtain ⟨info, market, e₁, authorized, e₂, dropped, e₃, released, e₄, account, e₅, committed, rfl,
    rfl⟩ := done
  obtain ⟨sessions, rfl⟩ := authorize_ok authorized
  have cleared := get?_clearedMarket c.account c.market info.count e.books
  let mine : OrderKey → AccountId → Bool := fun k owner =>
    decide (k.market = c.market ∧ owner = c.account)
  have owned : ∀ k owner, mine k owner = true → owner = c.account := fun k owner h =>
    (of_decide_eq_true h).2
  obtain ⟨first, records, reserves⟩ := dropReservesOf_ok owned dropped
  obtain ⟨second, reserves', records'⟩ := releaseEscrowsOf_ok released
  have step := first.append second
  have kept : e₃.orderReserves = e.orderReserves.filter fun k r => !mine k r.account :=
    reserves'.trans reserves
  have kept' : e₃.claimEscrows = e.claimEscrows.filter fun k r => !mine k r.account := by
    rw [records', records]
  have rests : e₃.resting = fun k => (e.resting k).filter fun o => !mine k o.account := by
    funext k
    rw [resting_congr step.touches.books, resting]
    rw [cleared]
    by_cases here : k.market = c.market
    · by_cases below : k.instrument < info.count
      · rw [if_pos ⟨here, below⟩, lookup_cleared]
        simp [resting, mine, here]
      · -- there is no book at such a key
        have absent : e.books.get? k.book = none := by
          rw [← Option.not_isSome_iff_eq_none, healthy.shaped.books]
          rintro ⟨info', market', inside⟩
          rw [show k.book.market = c.market from here, market] at market'
          cases market'
          exact below inside
        rw [if_neg fun h => below h.2, resting, absent]
        rfl
    · rw [if_neg fun h => here h.1]
      cases found : e.resting k with
      | none => simpa [resting] using found
      | some o => rwa [Option.filter_some, if_pos (by simp [mine, here])]
  have backed := Backed.filter mine healthy.backed step.touches.markets kept kept'
  refine Handled.ofTrade step ((Recommits.ofAccount account).trans (Recommits.ofMarket committed))
    healthy (rests ▸ backed) (fun k => ?_) (fun k info' here resolved => ?_) (fun k other => ?_)
    (fun a same => .inl same) (by rintro a ⟨⟩) rfl rfl
  · rw [cleared]
    split_ifs
    · rw [Option.isSome_map]
    · rfl
  · rw [rests]
    dsimp only
    rw [(healthy.shaped.resolved _ info' here resolved).2.2 k rfl]
    rfl
  · rw [cleared, if_neg fun h => other (.inr h.1)]

/-! ## Liquidation -/

/-- One turn of the loop over all books. -/
def clearBook (account : AccountId) (s : Books × OrdMap MarketId Unit) (k : BookKey) :
    Books × OrdMap MarketId Unit :=
  ((cancelAllIn account s.1 k).1,
    if 0 < (cancelAllIn account s.1 k).2 then s.2.insert k.market () else s.2)

/-- The markets that a clearing lists are those whose books changed. -/
theorem clearBooks_touched (nodup : l.Nodup) (s : Books × OrdMap MarketId Unit) :
    (∀ m ∈ s.2.keys, m ∈ (l.foldl (clearBook account) s).2.keys) ∧
      ∀ k ∈ l, ∀ b, s.1.get? k = some b → 0 < (b.cancelAll account).1 →
        k.market ∈ (l.foldl (clearBook account) s).2.keys := by
  induction l generalizing s with
  | nil => exact ⟨fun m listed => listed, fun k listed => absurd listed not_mem_nil⟩
  | cons k rest ih =>
    obtain ⟨fresh, nodup⟩ := nodup_cons.1 nodup
    obtain ⟨kept, changed⟩ := ih nodup (clearBook account s k)
    have grows : ∀ m ∈ s.2.keys, m ∈ (clearBook account s k).2.keys := by
      intro m listed
      rw [clearBook]
      split_ifs
      · exact mem_insert_keys.2 (.inr listed)
      · exact listed
    refine ⟨fun m listed => kept m (grows m listed), fun j listed b stored removed => ?_⟩
    obtain rfl | later := mem_cons.1 listed
    · apply kept
      have count : (cancelAllIn account s.1 j).2 = (b.cancelAll account).1 := by
        rw [cancelAllIn, stored]
      rw [clearBook]
      rw [count, if_pos removed]
      exact mem_insert_keys.2 (.inl rfl)
    · refine changed j later b ?_ removed
      have other : j ≠ k := by
        rintro rfl
        exact fresh later
      rw [clearBook, get?_cancelAllIn, if_neg other, stored]

theorem cancelEverywhere_spec (e : Engine sha256) (account : AccountId) :
    (∀ k, (e.cancelEverywhere account).1.get? k =
      (e.books.get? k).map fun b => (b.cancelAll account).2) ∧
      ∀ k, k.market ∉ (e.cancelEverywhere account).2.keys →
        (e.cancelEverywhere account).1.get? k = e.books.get? k := by
  have shape : e.cancelEverywhere account = e.books.keys.foldl (clearBook account) (e.books, ∅) :=
      rfl
  have first : e.books.keys.foldl (fun books k => (cancelAllIn account books k).1) e.books =
      (e.books.keys.foldl (clearBook account) (e.books, ∅)).1 := by
    change List.foldl _ (fst (e.books, (∅ : OrdMap MarketId Unit))) _ = _
    exact foldl_hom fst fun _ _ => rfl
  have cleared : ∀ k, (e.cancelEverywhere account).1.get? k =
      (e.books.get? k).map fun b => (b.cancelAll account).2 := by
    intro k
    rw [shape, ← first, get?_cancelAllIn_loop account e.books.keys_nodup]
    split_ifs with listed
    · rfl
    · cases stored : e.books.get? k with
      | none => rfl
      | some b => exact absurd (mem_keys.2 ⟨b, stored⟩) listed
  refine ⟨cleared, fun k unlisted => ?_⟩
  rw [cleared]
  cases stored : e.books.get? k with
  | none => rfl
  | some b =>
    have nothing : (b.cancelAll account).1 = 0 := by
      by_contra some_removed
      refine unlisted ?_
      exact (clearBooks_touched e.books.keys_nodup _).2 k (mem_keys.2 ⟨b, stored⟩) b stored
        (Nat.pos_of_ne_zero some_removed)
    rw [Option.map_some, LogicalBook.cancelAll_of_zero nothing]

theorem mem_affectedBy {outcome : LiquidationOutcome} {a : AccountId}
    (listed : a = account ∨ a ∈ outcome.adlFills.map AdlFill.counterparty ∨
      a ∈ outcome.haircuts.map fst) : a ∈ (affectedBy account outcome).keys := by
  refine mem_foldl_insert.2 ?_
  rw [mem_insert_keys, mem_append]
  exact listed.elim (fun here => .inr (.inl here)) .inl

/-- A closed account's reserves are dropped without effect on the risk engine. -/
theorem forgetReserves_eq (keys : List OrderKey) {a : Account}
    (found : e.risk.slot account = some a) (closed : a.isOpen = false)
    (mine : ∀ k ∈ keys, ∀ r, e.orderReserves.get? k = some r → r.account = account) :
    ∃ reserves, keys.foldl forgetReserve e = { e with orderReserves := reserves } ∧
      ∀ j, reserves.get? j = if j ∈ keys then none else e.orderReserves.get? j := by
  induction keys generalizing e with
  | nil => exact ⟨e.orderReserves, rfl, fun j => (if_neg not_mem_nil).symm⟩
  | cons k rest ih =>
    have step : e.forgetReserve k = { e with orderReserves := e.orderReserves.erase k } := by
      rw [forgetReserve]
      cases stored : e.orderReserves.get? k with
      | none => rw [erase_of_absent stored]
      | some r =>
        dsimp only
        cases released : e.risk.releaseResting r.account r.reserved with
        | error err => rfl
        | ok risk =>
          rw [mine k mem_cons_self r stored] at released
          rw [releaseResting_closed found closed released]
    obtain ⟨reserves, loop, entries⟩ :=
      ih (e := { e with orderReserves := e.orderReserves.erase k })
      found fun j listed r stored => by
        rw [get?_erase] at stored
        split_ifs at stored
        exact mine j (mem_cons_of_mem k listed) r stored
    refine ⟨reserves, ?_, fun j => ?_⟩
    · rw [foldl_cons, step, loop]
    · rw [entries, get?_erase]
      by_cases same : j = k
      · rw [if_pos same, ite_self, if_pos (by simp [same])]
      · simp [same]

/-- The state in which the handler of a liquidation calls the risk engine: the account's orders are
gone and its escrows are released. -/
def liquidationStart (e : Engine sha256) (c : Liquidate) : Attempt (Engine sha256) :=
  let e : Engine sha256 := { e with books := (e.cancelEverywhere c.account).1 }
  e.releaseEscrows c.account (e.escrowsOf fun _ owner => owner = c.account)

/-- A liquidation: the account's orders go, its escrows come back, and the risk engine closes it. -/
theorem liquidate_ok (healthy : Healthy e) (done : e.liquidate c = .ok (e', kind)) :
    ∃ e₁ risk outcome, e.liquidationStart c = .ok e₁ ∧
      Step (· = c.account) { e with books := (e.cancelEverywhere c.account).1 } e₁ ∧
      e₁.orderReserves = e.orderReserves ∧
      e₁.claimEscrows = e.claimEscrows.filter (fun _ r => !decide (r.account = c.account)) ∧
      e₁.risk.liquidate c.account = .ok (risk, outcome) ∧
      (∃ x, risk.slot c.account = some x ∧ x.isOpen = false) ∧
      Recommits (· ∈ (affectedBy c.account outcome).keys)
        (· ∈ (e.cancelEverywhere c.account).2.keys)
        { e₁ with
          risk := risk
          orderReserves :=
            e₁.orderReserves.filter fun _ r => !decide (r.account = c.account) } e' := by
  simp only [liquidate, ok_iff, liftRisk_eq_ok] at done
  obtain ⟨-, -, distressed, -, -, -, e₁, released, ⟨risk, outcome⟩, settled, e₂, accounts, e₃,
    markets, rfl, rfl⟩ := done
  obtain ⟨step, reserves, records⟩ := releaseEscrowsOf_ok released
  have matched := step.matched { healthy.matched with }
  obtain ⟨mid, -, closed⟩ := liquidate_ok matched.aligned.sound settled
  obtain ⟨-, -, ⟨x, a, -, after, -, isClosed, -, -⟩, -⟩ :=
    closeAccount_ok (K := fun m => (e₁.markets.get? m).isSome = true) closed
  refine ⟨e₁, risk, outcome, released, step, reserves, records, settled, ⟨a, after, isClosed⟩, ?_⟩
  obtain ⟨left, forgotten, entries⟩ := forgetReserves_eq (e := { e₁ with risk := risk })
    (e₁.reservesOf fun _ owner => owner = c.account) after isClosed fun k listed r found => by
      obtain ⟨r', found', owned⟩ := mem_reservesOf.1 listed
      rw [found'] at found
      cases found
      exact of_decide_eq_true owned
  have filtered : left = e₁.orderReserves.filter fun _ r => !decide (r.account = c.account) :=
    eq_filter_of_erased (fun _ (r : OrderReserve) => decide (r.account = c.account)) entries
  rw [filtered] at forgotten
  exact ((commitAccounts_ok (forgotten ▸ accounts)).trans (commitMarkets_ok markets)).mono
    (fun _ h => .inl h) fun _ h => .inr h

theorem liquidate_closes (healthy : Healthy e) (done : e.liquidate c = .ok (e', kind)) :
    ∃ x, e'.risk.slot c.account = some x ∧ x.isOpen = false := by
  obtain ⟨e₁, risk, outcome, -, -, -, -, -, closed, commit⟩ := liquidate_ok healthy done
  obtain ⟨tree, rfl⟩ := commit.same
  exact closed

theorem liquidate_handled (healthy : Healthy e) (done : e.liquidate c = .ok (e', kind)) :
    Handled (.liquidate c) e e' := by
  obtain ⟨e₁, risk, outcome, -, step, reserves, records, settled, -, commit⟩ :=
    liquidate_ok healthy done
  obtain ⟨cleared, unchanged⟩ := cancelEverywhere_spec e c.account
  have touched := step.touches
  have matched := step.matched { healthy.matched with }
  obtain ⟨mid, moved, closed⟩ := RiskEngine.liquidate_ok matched.aligned.sound settled
  obtain ⟨size, others, -, sound⟩ :=
    RiskEngine.closeAccount_ok (K := fun m => (e₁.markets.get? m).isSome = true) closed
  have rests : e₁.resting = fun k => (e.resting k).filter fun o =>
      !decide (o.account = c.account) := by
    funext k
    rw [resting_congr touched.books, resting]
    rw [cleared, lookup_cleared]
    simp [resting]
  have backed : Backed (fun k => (e.resting k).filter fun o => !decide (o.account = c.account))
      { e₁ with
        risk := risk
        orderReserves := e₁.orderReserves.filter fun _ r => !decide (r.account = c.account) } :=
    healthy.backed.filter (fun _ owner => decide (owner = c.account)) touched.markets
      (by rw [← reserves]) records
  refine Handled.ofCommit (T := fun b => b = c.account ∨
      b ∈ outcome.adlFills.map AdlFill.counterparty ∨ b ∈ outcome.haircuts.map fst)
    (N := (· ∈ (e.cancelEverywhere c.account).2.keys)) commit ⟨?_, ?_, ⟨fun k => ?_,
      fun m info found resolved => ?_⟩, ⟨fun b inside => ?_, fun m info found => ?_⟩⟩
    ⟨fun marked => step.trades.path.trans (.single (.liquidated
      (fun x here p held => isSome_markFor matched ((Follows.ofStep step).marks marked) here held)
        settled)), fun marked m info found => ?_⟩
    touched.tree touched.replay touched.lastSeq ?_ ?_ (by rintro k ⟨⟩) (fun b other => ?_)
    (fun m other => ?_) (by rintro b ⟨⟩) (fun b listed => mem_affectedBy listed)
    fun m listed => listed
  · exact { matched with
      reserved := matched.reserved.close moved closed
      aligned := ⟨size.trans (moved.size.trans matched.aligned.size),
        sound (moved.sound matched.aligned.sound)⟩ }
  · change Backed e₁.resting _
    rwa [rests]
  · rw [touched.books, touched.markets]
    rw [cleared, Option.isSome_map]
    exact healthy.shaped.books k
  · rw [touched.markets] at found
    obtain ⟨claim, winner, empty⟩ := healthy.shaped.resolved m info found resolved
    refine ⟨claim, winner, fun k same => ?_⟩
    change e₁.resting k = none
    rw [rests]
    dsimp only
    rw [empty k same]
    rfl
  · rw [touched.allocated] at inside
    rw [touched.tree]
    exact healthy.rooted.accounts b inside
  · rw [touched.markets] at found
    rw [touched.tree]
    exact healthy.rooted.markets m info found
  · exact (RiskEngine.liquidate_markFor settled m).trans
      ((Follows.ofStep step).marks marked m info found)
  · rw [touched.supply]
    exact (add_zero _).symm
  · exact touched.deposits
  · have apart : b ≠ c.account := fun same => other (.inl same)
    refine accountLeaf_congr (touched.purse b apart) ?_ (touched.claims b apart)
      (touched.premium b apart) (touched.asks b apart) fun d => by rw [touched.replay]
    calc risk.slot b = mid.slot b := others b apart
      _ = e₁.risk.slot b := moved.others b other
      _ = e.risk.slot b := touched.slot b apart
  · refine marketLeaf_congr (by rw [touched.markets]) fun i => ?_
    rw [touched.books]
    exact unchanged ⟨m, i⟩ other

end Engine

end Dexos.Execution
