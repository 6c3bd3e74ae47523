import Dexos.Execution.Draining

/-!
# Resolution and settlement

A resolved market keeps its claims and loses its orders. Settlement moves the collateral locked
for the market into a pool and pays the pool out to the holders of the winning outcome.
-/

namespace Dexos.Execution

open Foundations Clob Risk List OrdMap RiskEngine

variable {a : AccountId}

/-! ## The entries of one market -/

section Entries

variable {V : Type} {m : MarketId} {c c' : OrdMap AccountMarket V}

/-- The entries of one market, by account. -/
abbrev ofMarket (c : OrdMap AccountMarket V) (m : MarketId) : List (AccountId × V) :=
  (c.entries.filter fun x => x.1.market = m).map fun x => (x.1.account, x.2)

theorem mem_ofMarket {x : AccountId × V} : x ∈ ofMarket c m ↔ c.get? ⟨x.1, m⟩ = some x.2 := by
  rw [mem_map]
  refine ⟨?_, fun stored => ⟨(⟨x.1, m⟩, x.2), ?_, rfl⟩⟩
  · rintro ⟨⟨k, v⟩, listed, rfl⟩
    obtain ⟨there, here⟩ := mem_filter.1 listed
    have market : k.market = m := of_decide_eq_true here
    rw [← market]
    exact mem_entries.1 there
  · exact mem_filter.2 ⟨mem_entries.2 stored, decide_eq_true rfl⟩

theorem ofMarket_nodup (c : OrdMap AccountMarket V) : ((ofMarket c m).map Prod.fst).Nodup := by
  have keys : (c.entries.filter fun x => x.1.market = m).Pairwise fun x y => x.1 ≠ y.1 :=
    (pairwise_map.1 c.keys_nodup).filter _
  rw [map_map, List.Nodup, pairwise_map]
  refine keys.imp_of_mem fun {x y} first second other same => other ?_
  have here : x.1.market = m := of_decide_eq_true (mem_filter.1 first).2
  have there : y.1.market = m := of_decide_eq_true (mem_filter.1 second).2
  have account : x.1.account = y.1.account := same
  calc x.1 = ⟨x.1.account, x.1.market⟩ := rfl
    _ = ⟨y.1.account, y.1.market⟩ := by rw [account, here, there]

theorem sum_ofMarket (c : OrdMap AccountMarket V) (w : AccountId → V → Int) :
    ((ofMarket c m).map fun x => w x.1 x.2).sum =
      c.total fun k v => if k.market = m then w k.account v else 0 := by
  rw [total, map_map]
  induction c.entries with
  | nil => rfl
  | cons x rest ih =>
    rw [map_cons, sum_cons, ← ih]
    by_cases here : x.1.market = m
    · simp [here]
    · simp [here]

/-- What one account has in a market, as a sum over the entries. -/
theorem sum_ofAccount (c : OrdMap AccountMarket V) (w : V → Int) (a : AccountId) :
    ((ofMarket c m).map fun x => if x.1 = a then w x.2 else 0).sum =
      weightOf w (c.get? ⟨a, m⟩) := by
  rw [sum_ofMarket c fun b v => if b = a then w v else 0]
  have split :=
      c.total_erase (fun k v => if k.market = m then if k.account = a then w v else 0 else 0)
    ⟨a, m⟩
  have rest : ((c.erase ⟨a, m⟩).total fun k v =>
      if k.market = m then if k.account = a then w v else 0 else 0) = 0 := by
    refine total_eq_zero fun k v stored => ?_
    rw [get?_erase] at stored
    split_ifs at stored with same
    split_ifs with market account
    · exact absurd (show k = ⟨a, m⟩ by rw [← account, ← market]) same
    · rfl
    · rfl
  rw [rest] at split
  simp only [if_true] at split
  exact sub_eq_zero.1 split.symm

theorem get?_erase_ofMarket {seen : List AccountId}
    (left : ∀ k, c'.get? k = if k.market = m ∧ k.account ∈ seen then none else c.get? k)
    (k : AccountMarket) : (c'.erase ⟨a, m⟩).get? k =
      if k.market = m ∧ k.account ∈ seen ++ [a] then none else c.get? k := by
  rw [get?_erase, left]
  by_cases here : k = ⟨a, m⟩
  · simp [here]
  · rw [if_neg here]
    refine if_congr ?_ rfl rfl
    rw [mem_append, mem_singleton]
    refine and_congr_right fun market => ⟨.inl, fun h => h.resolve_right fun same => here ?_⟩
    rw [← same, ← market]

theorem get?_emptied (left : ∀ k, c'.get? k =
      if k.market = m ∧ k.account ∈ (ofMarket c m).map Prod.fst then none else c.get? k) (k :
        AccountMarket) : c'.get? k = if k.market = m then none else c.get? k := by
  rw [left]
  by_cases here : k.market = m
  · split_ifs with listed
    · rfl
    · refine Option.eq_none_iff_forall_ne_some.2 fun x stored => listed ⟨here, ?_⟩
      refine mem_map.2 ⟨(k.account, x), mem_ofMarket.2 ?_, rfl⟩
      rw [← here]
      exact stored
  · rw [if_neg fun h => here h.1, if_neg here]

/-- Sums by market after one market has been emptied. -/
theorem total_emptied (left : ∀ k, c'.get? k = if k.market = m then none else c.get? k)
    (n : MarketId) (w : V → Int) :
    (c'.total fun k v => if k.market = n then w v else 0) =
      if n = m then 0 else c.total fun k v => if k.market = n then w v else 0 := by
  have kept : c' = c.filter fun k _ => k.market ≠ m := by
    ext1 k
    rw [left, get?_filter]
    by_cases here : k.market = m
    · cases c.get? k <;> simp [here]
    · cases c.get? k <;> simp [here, Option.filter]
  rw [kept, total_filter]
  split_ifs with same
  · refine total_eq_zero fun k v _ => ?_
    by_cases here : k.market = m
    · simp [here]
    · simp [here, same]
  · refine total_congr fun k v _ => ?_
    by_cases here : k.market = n
    · simp [here, same]
    · simp [here]

end Entries

/-- A market with no claims, no escrowed claims and no locked collateral is conserved. -/
theorem Conserved.emptied {markets : OrdMap MarketId MarketMeta}
    {claims claims' : OrdMap AccountMarket (List Amount)} {asks : OrdMap AskKey Amount}
    {locked locked' : OrdMap AccountMarket Amount} {m : MarketId}
    (conserved : Conserved noGap markets claims asks locked)
    (burned : ∀ k, claims'.get? k = if k.market = m then none else claims.get? k)
    (unlocked : ∀ k, locked'.get? k = if k.market = m then none else locked.get? k)
    (asked : ∀ k x, asks.get? k = some x → k.market ≠ m) :
    Conserved noGap markets claims' asks locked' := by
  refine ⟨fun k v stored => ?_, conserved.asked, fun k x stored => ?_,
    fun n info market i below => ?_⟩
  · rw [burned] at stored
    split_ifs at stored
    exact conserved.sets k v stored
  · rw [unlocked] at stored
    split_ifs at stored
    exact conserved.minted k x stored
  · have before := conserved.conserved n info market i below
    rw [claimSum, columnSum, columnSum] at before ⊢
    rw [total_emptied burned n (held · i), total_emptied unlocked n Subtype.val]
    split_ifs with here
    · rw [total_eq_zero fun k x stored => if_neg fun h => asked k x stored (h.1.trans here)]
      rfl
    · exact before

namespace Engine

variable {sha256 : Sha256} {e e' : Engine sha256} {kind : ReceiptKind} {m : MarketId}
  {touched : AccountSet} {s s' : Settlement sha256} {winner : U16}

/-! ## After a drain -/

variable (drained : Drained m e e' touched)
include drained

theorem Drained.healthy (healthy : Healthy e) : Healthy e' := by
  have shape := drained.shape
  have rests := drained.rests
  have backed := drained.backed
  obtain ⟨e₁, step, books, rfl⟩ := drained.step
  have matched := step.matched healthy.matched
  have rooted := healthy.rooted.touch step.touches
  refine ⟨{ matched with }, backed, ⟨fun k => ?_, fun n info found resolved => ?_⟩,
    ⟨rooted.accounts, rooted.markets⟩⟩
  · rw [shape]
    rw [step.touches.markets]
    exact healthy.shaped.books k
  · rw [step.touches.markets] at found
    obtain ⟨claim, winner, none⟩ := healthy.shaped.resolved n info found resolved
    refine ⟨claim, winner, fun k here => ?_⟩
    rw [rests]
    split_ifs
    · rfl
    · exact none k here

theorem Drained.accountLeaf (other : a ∉ touched.keys) : e'.accountLeaf a = e.accountLeaf a := by
  obtain ⟨e₁, step, books, rfl⟩ := drained.step
  exact step.touches.accountLeaf other

theorem Drained.marketLeaf {n : MarketId} (other : n ≠ m) : e'.marketLeaf n = e.marketLeaf n := by
  have others := drained.others
  obtain ⟨e₁, step, books, rfl⟩ := drained.step
  refine marketLeaf_congr ?_ fun i => others ⟨n, i⟩ other
  exact congrArg (get? · n) step.touches.markets

theorem Drained.follows : Follows e e' := by
  obtain ⟨e₁, step, books, rfl⟩ := drained.step
  exact (Follows.ofStep step).trans (Follows.ofTrades .refl fun n info found => ⟨info, found, rfl⟩)

/-- A drain keeps the markets and everything outside of accounts and books. -/
theorem Drained.frame :
    e'.markets = e.markets ∧ e'.tree = e.tree ∧ e'.replay = e.replay ∧ e'.lastSeq = e.lastSeq ∧
      e'.ledger.totalSupply = e.ledger.totalSupply ∧ e'.depositsSeen = e.depositsSeen := by
  obtain ⟨e₁, step, books, rfl⟩ := drained.step
  exact ⟨step.touches.markets, step.touches.tree, step.touches.replay, step.touches.lastSeq,
    step.touches.supply, step.touches.deposits⟩

omit drained

theorem resolveMarket_handled {c : ResolveMarket} (healthy : Healthy e)
    (done : e.resolveMarket c = .ok (e', kind)) : Handled (.resolveMarket c) e e' := by
  simp only [resolveMarket, ok_iff] at done
  obtain ⟨info, found, -, claim, -, open_, -, winner, ⟨e₁, touched⟩, drained, info', found', e₂,
    accounts, e₃, market, rfl, -⟩ := done
  have drained := drainMarketRestingState_ok healthy drained
  obtain ⟨markets, tree, replay, lastSeq, supply, deposits⟩ := drained.frame
  obtain rfl : info' = info := by
    rw [markets, found] at found'
    exact (Option.some.inj found').symm
  refine Handled.ofCommit (T := (· ∈ touched.keys)) (N := (· = c.market))
    ((commitAccounts_ok accounts).trans (Recommits.ofMarket market))
    ((drained.healthy healthy).relabel found' rfl rfl rfl rfl
      fun _ => ⟨claim, ⟨_, rfl, winner⟩, fun k here => ?_⟩)
    (drained.follows.trans (Follows.describe found' rfl)) tree replay lastSeq ?_ deposits ?_
      (fun a other => drained.accountLeaf other)
    (fun n other => ?_) ?_ (fun a there => .inl there) fun n here => .inr here
  · rw [drained.rests, if_pos here]
  · exact (congrArg Subtype.val supply).trans (add_zero _).symm
  · rintro k ⟨⟩
  · rw [← drained.marketLeaf other]
    exact marketLeaf_congr (get?_insert_ne _ _ other) fun i => rfl
  · rintro a ⟨⟩

/-! ## The pool -/

/-- The collateral that the collected entries of a market add to the pool. -/
structure Collected (m : MarketId) (seen : List (AccountId × Amount)) (s s' : Settlement sha256) :
    Prop where
  same : ∃ ledger locked, s'.engine = { s.engine with ledger := ledger, mintLocked := locked }
  moved : s.engine.ledger.Moved s'.engine.ledger
    (fun b p => if p = .locked then (columnSum s'.engine.mintLocked fun k => k.account = b) -
      columnSum s.engine.mintLocked fun k => k.account = b else 0)
    (s.pool.val - s'.pool.val) (· ∈ s'.touched.keys)
  supply : s'.engine.ledger.totalSupply = s.engine.ledger.totalSupply
  pool : s'.pool.val - s.pool.val = (columnSum s.engine.mintLocked fun k => k.market = m) -
    columnSum s'.engine.mintLocked fun k => k.market = m
  left : ∀ k, s'.engine.mintLocked.get? k =
    if k.market = m ∧ k.account ∈ seen.map Prod.fst then none else s.engine.mintLocked.get? k
  paid : s'.paid = s.paid
  grows : ∀ a ∈ s.touched.keys, a ∈ s'.touched.keys

theorem Collected.start (m : MarketId) (s : Settlement sha256) : Collected m [] s s where
  same := ⟨_, _, rfl⟩
  moved := (Ledger.Moved.refl _).restate (fun b p => by simp) (sub_self _).symm fun _ h => h.elim
  supply := rfl
  pool := by simp
  left k := by simp
  paid := rfl
  grows _ h := h

theorem collectMinter_ok {seen : List (AccountId × Amount)} {x : AccountId × Amount}
    {s₀ : Settlement sha256} (so_far : Collected m seen s₀ s)
    (stored : s₀.engine.mintLocked.get? ⟨x.1, m⟩ = some x.2) (unseen : x.1 ∉ seen.map Prod.fst)
    (done : collectMinter m s x = .ok s') : Collected m (seen ++ [x]) s₀ s' := by
  simp only [collectMinter, ok_iff, liftArith_eq_ok, Scalar.checkedAdd_eq_ok] at done
  obtain ⟨ledger, consumed, pool, sum, rfl⟩ := done
  obtain ⟨moved, supply, -⟩ := Ledger.consumeLocked_ok consumed
  have raised := raised_erase s.engine.mintLocked ⟨x.1, m⟩
  have entry : entryOf s.engine.mintLocked ⟨x.1, m⟩ = x.2.val := by
    rw [entryOf, so_far.left, if_neg fun h => unseen h.2, stored, weightOf_some]
  rw [entry] at raised
  refine ⟨?_, ?_, supply.trans so_far.supply, ?_, fun k => ?_, so_far.paid, fun a h => ?_⟩
  · obtain ⟨ledger', locked', same⟩ := so_far.same
    exact ⟨ledger, s.engine.mintLocked.erase ⟨x.1, m⟩, by rw [same]⟩
  · refine (so_far.moved.trans moved).restate (fun b p => ?_) ?_ fun a h => ?_
    · rw [raised.sum]
      simp only [Ledger.entryAt]
      by_cases locked : p = .locked
      · simp only [locked, if_true, and_true]
        by_cases same : b = x.1
        · simp only [same, if_true]
          ring
        · simp only [same, Ne.symm same, if_false]
          ring
      · simp only [locked, and_false, if_false, add_zero]
    · rw [sum]
      ring
    · exact mem_insert_keys.2 (h.symm.imp_right id)
  · have before := so_far.pool
    rw [raised.sum, if_pos rfl, sum]
    omega
  · rw [map_append]
    exact get?_erase_ofMarket so_far.left k
  · exact mem_insert_keys.2 (.inr (so_far.grows a h))

/-- The whole first loop: every entry of the market is in the pool. -/
theorem collectMinters_ok (done : (s.engine.minters m).foldlM (collectMinter m) s = .ok s') :
    Collected m (s.engine.minters m) s s' := by
  refine foldlM_induction (P := fun seen s' => Collected m seen s s') (Collected.start m s) ?_ done
  intro seen x rest s₁ s₂ whole so_far step
  have listed : x ∈ s.engine.minters m := by
    rw [whole]
    exact mem_append_right _ mem_cons_self
  have distinct := ofMarket_nodup (m := m) s.engine.mintLocked
  refine collectMinter_ok so_far (mem_ofMarket.1 listed) (fun before => ?_) step
  change ((s.engine.minters m).map Prod.fst).Nodup at distinct
  rw [whole, map_append] at distinct
  exact disjoint_of_nodup_append distinct before mem_cons_self

/-! ## The payouts -/

/-- What the holders paid so far took from the pool. -/
structure Paid (m : MarketId) (winner : U16) (seen : List (AccountId × List Amount))
    (s s' : Settlement sha256) : Prop where
  same : ∃ ledger risk claims,
    s'.engine = { s.engine with ledger := ledger, risk := risk, claims := claims }
  moved : s.engine.ledger.Moved s'.engine.ledger
    (fun b p => if p = .available then
      (seen.map fun x => if x.1 = b then held x.2 winner else 0).sum else 0)
    (seen.map fun x => held x.2 winner).sum (· ∈ s'.touched.keys)
  supply : s'.engine.ledger.totalSupply = s.engine.ledger.totalSupply
  risk : s.engine.risk.Moved s.engine.known s'.engine.risk (fun _ => 0) (· ∈ s'.touched.keys)
  pool : s'.pool.val = s.pool.val - (seen.map fun x => held x.2 winner).sum
  paid : s'.paid.val = s.paid.val + (seen.map fun x => held x.2 winner).sum
  left : ∀ k, s'.engine.claims.get? k =
    if k.market = m ∧ k.account ∈ seen.map Prod.fst then none else s.engine.claims.get? k
  grows : ∀ a ∈ s.touched.keys, a ∈ s'.touched.keys
  listed : ∀ x ∈ seen, x.1 ∈ s'.touched.keys
  trades : s.engine.risk.Trades s'.engine.risk

theorem Paid.start (m : MarketId) (winner : U16) (s : Settlement sha256) :
    Paid m winner [] s s where
  same := ⟨_, _, _, rfl⟩
  moved := (Ledger.Moved.refl _).restate (fun b p => by simp) rfl fun _ h => h.elim
  supply := rfl
  risk := (Moved.refl _).restate (fun _ => rfl) fun _ h => h.elim
  pool := (sub_zero _).symm
  paid := (add_zero _).symm
  left k := by simp
  grows _ h := h
  listed x h := absurd h not_mem_nil
  trades := .refl

/-- A payout moves the winning balance of the holder out of the pool; an empty balance moves
nothing. -/
theorem payWinner_ok {payout : Amount} (nonneg : 0 ≤ payout.val)
    (done : payWinner s a payout = .ok s') :
    (∃ ledger risk, s'.engine = { s.engine with ledger := ledger, risk := risk }) ∧
      s.engine.ledger.Moved s'.engine.ledger (Ledger.entryAt a .available payout.val) payout.val
        (· = a) ∧ s'.engine.ledger.totalSupply = s.engine.ledger.totalSupply ∧
      s.engine.risk.Moved s.engine.known s'.engine.risk (fun _ => 0) (· = a) ∧
      s'.pool.val = s.pool.val - payout.val ∧ s'.paid.val = s.paid.val + payout.val ∧
      s'.touched = s.touched ∧ s.engine.risk.Trades s'.engine.risk := by
  rw [payWinner] at done
  split_ifs at done with positive
  · simp only [ok_iff, liftArith_eq_ok, liftRisk_eq_ok, Scalar.checkedAdd_eq_ok,
      Scalar.checkedSub_eq_ok] at done
    obtain ⟨-, -, pool, difference, ledger, credited, risk, raised, paid, sum, rfl⟩ := done
    obtain ⟨moved, supply, -⟩ := Ledger.creditAvailable_ok credited
    exact ⟨⟨ledger, risk, rfl⟩, moved, supply, (creditCollateral_ok raised).1, difference, sum,
      rfl, .single (.credit raised)⟩
  · cases done
    have zero : payout.val = 0 := by omega
    rw [zero, sub_zero, add_zero]
    refine ⟨⟨_, _, rfl⟩, ?_, rfl, ?_, rfl, rfl, rfl, .refl⟩
    · exact (Ledger.Moved.refl _).restate (fun b p => by simp [Ledger.entryAt]) rfl
        fun _ h => h.elim
    · exact (Moved.refl _).restate (fun _ => rfl) fun _ h => h.elim

theorem payHolder_ok {seen : List (AccountId × List Amount)} {x : AccountId × List Amount}
    {s₀ : Settlement sha256} (so_far : Paid m winner seen s₀ s) (nonneg : 0 ≤ held x.2 winner)
    (done : payHolder m winner s x = .ok s') : Paid m winner (seen ++ [x]) s₀ s' := by
  have payout : (x.2[winner.val]?.getD I128.zero).val = held x.2 winner := getD_val _
  simp only [payHolder, ok_iff] at done
  obtain ⟨s₁, paying, rfl⟩ := done
  obtain ⟨⟨ledger, risk, same⟩, moved, supply, risked, pool, paid, touched, trades⟩ :=
    payWinner_ok (payout ▸ nonneg) paying
  rw [payout] at moved pool paid
  have grown : ∀ b, b ∈ (s₁.touched.insert x.1 ()).keys ↔ b = x.1 ∨ b ∈ s.touched.keys := by
    intro b
    rw [mem_insert_keys, touched]
  have markets : s.engine.known = s₀.engine.known := by
    obtain ⟨l, r, c, equal⟩ := so_far.same
    rw [equal]
    rfl
  refine ⟨?_, ?_, supply.trans so_far.supply, ?_, ?_, ?_, fun k => ?_, fun a h => ?_, fun y h => ?_,
    so_far.trades.trans trades⟩
  · obtain ⟨l, r, c, equal⟩ := so_far.same
    refine ⟨ledger, risk, s.engine.claims.erase ⟨x.1, m⟩, ?_⟩
    rw [same, equal]
  · refine (so_far.moved.trans moved).restate (fun b p => ?_) ?_ fun a h => ?_
    · rw [map_append, sum_append, map_singleton, sum_singleton, Ledger.entryAt]
      by_cases available : p = .available
      · simp only [available, if_true, and_true, eq_comm]
      · simp only [available, and_false, if_false, add_zero]
    · rw [map_append, sum_append, map_singleton, sum_singleton]
    · exact (grown a).2 h.symm
  · have risked' : s.engine.risk.Moved s₀.engine.known s₁.engine.risk (fun _ => 0) (· = x.1) :=
      markets ▸ risked
    exact (so_far.risk.trans risked').restate (fun _ => rfl) fun a h => (grown a).2 h.symm
  · rw [map_append, sum_append, map_singleton, sum_singleton]
    rw [pool, so_far.pool]
    ring
  · rw [map_append, sum_append, map_singleton, sum_singleton]
    rw [paid, so_far.paid]
    ring
  · have burned : s₁.engine.claims = s.engine.claims.erase ⟨x.1, m⟩ := by rw [same]
    rw [burned, map_append]
    exact get?_erase_ofMarket so_far.left k
  · exact (grown a).2 (.inr (so_far.grows a h))
  · apply (grown y.1).2
    obtain before | last := mem_append.1 h
    · exact .inr (so_far.listed y before)
    · exact .inl (congrArg Prod.fst (mem_singleton.1 last))

/-- What a settlement did before it relabels the market: the collateral locked for the market is
what its holders were paid, and no claim is left. -/
structure Settled (m : MarketId) (winner : U16) (e : Engine sha256)
    (s : Settlement sha256) : Prop where
  healthy : Healthy s.engine
  markets : s.engine.markets = e.markets
  books : s.engine.books = e.books
  tree : s.engine.tree = e.tree
  replay : s.engine.replay = e.replay
  lastSeq : s.engine.lastSeq = e.lastSeq
  supply : s.engine.ledger.totalSupply = e.ledger.totalSupply
  deposits : s.engine.depositsSeen = e.depositsSeen
  leaves : ∀ a, a ∉ s.touched.keys → s.engine.accountLeaf a = e.accountLeaf a
  burned : ∀ k, s.engine.claims.get? k = if k.market = m then none else e.claims.get? k
  unlocked : ∀ k, s.engine.mintLocked.get? k = if k.market = m then none else e.mintLocked.get? k
  pool : s.pool.val = 0
  paid : s.paid.val = columnSum e.mintLocked fun k => k.market = m
  available : ∀ a, s.engine.ledger.balance a .available =
    e.ledger.balance a .available + weightOf (held · winner) (e.claims.get? ⟨a, m⟩)
  trades : e.risk.Trades s.engine.risk

theorem payHolders_ok (nonneg : ∀ k v, s.engine.claims.get? k = some v → 0 ≤ held v winner)
    (done : (s.engine.claimHolders m).foldlM (payHolder m winner) s = .ok s') :
    Paid m winner (s.engine.claimHolders m) s s' := by
  refine foldlM_induction (P := fun seen s' => Paid m winner seen s s')
    (Paid.start m winner s) ?_ done
  intro seen x rest s₁ s₂ whole so_far step
  have listed : x ∈ s.engine.claimHolders m := by
    rw [whole]
    exact mem_append_right _ mem_cons_self
  exact payHolder_ok so_far (nonneg _ _ (mem_ofMarket.1 listed)) step

theorem held_nonneg {v : List Amount} (nonneg : ∀ x ∈ v, 0 ≤ x.val) (i : U16) : 0 ≤ held v i := by
  rw [held]
  cases stored : v[i.val]? with
  | none => exact le_rfl
  | some x => exact nonneg x (mem_of_getElem? stored)

variable (healthy : Healthy e)
include healthy

theorem settle_ok {info : MarketMeta}
    (market : ClaimMarketOf e.markets m info) (below : winner < info.count)
    (asked : ∀ k x, e.askClaimsEscrow.get? k = some x → k.market ≠ m)
    (collected : (e.minters m).foldlM (collectMinter m) ⟨e, I128.zero, I128.zero, touched⟩ = .ok s)
    (paid : (s.engine.claimHolders m).foldlM (payHolder m winner) s = .ok s') :
    Settled m winner e s' ∧ ∀ a ∈ touched.keys, a ∈ s'.touched.keys := by
  have collected := collectMinters_ok collected
  obtain ⟨ledger', locked', same₁⟩ := collected.same
  have claims : s.engine.claims = e.claims := by rw [same₁]
  have nonneg : ∀ k v, s.engine.claims.get? k = some v → 0 ≤ held v winner := by
    intro k v stored
    rw [claims] at stored
    obtain ⟨-, -, -, nonneg⟩ := healthy.matched.conserved.sets k v stored
    exact held_nonneg nonneg winner
  have paid := payHolders_ok nonneg paid
  have unlocked := get?_emptied collected.left
  have burned : ∀ k, s'.engine.claims.get? k = if k.market = m then none else e.claims.get? k := by
    have emptied := get?_emptied paid.left
    rwa [claims] at emptied
  -- The pool holds what was locked, and that is what the holders of the winner have.
  have emptied : (columnSum s.engine.mintLocked fun k => k.market = m) = 0 :=
    (total_emptied unlocked m Subtype.val).trans (if_pos rfl)
  have pool : s.pool.val = columnSum e.mintLocked fun k => k.market = m := by
    have pool := collected.pool
    rw [emptied, sub_zero] at pool
    exact (sub_zero s.pool.val).symm.trans pool
  have total : ((s.engine.claimHolders m).map fun x => held x.2 winner).sum =
      columnSum e.mintLocked fun k => k.market = m := by
    have sum := healthy.matched.conserved.conserved m info market winner below
    have none : columnSum e.askClaimsEscrow (fun k => k.market = m ∧ k.instrument = winner) = 0 :=
      total_eq_zero fun k x stored => if_neg fun h => asked k x stored h.1
    rw [none, noGap, add_zero, add_zero, claimSum, ← sum_ofMarket _ fun _ v => held v winner] at sum
    rwa [claimHolders, claims]
  have supply : s'.engine.ledger.totalSupply = e.ledger.totalSupply :=
      paid.supply.trans collected.supply
  have moved : e.ledger.Moved s'.engine.ledger _ _ _ := collected.moved.trans paid.moved
  have within : ∀ a, a ∈ s.touched.keys ∨ a ∈ s'.touched.keys → a ∈ s'.touched.keys :=
    fun a h => h.elim (paid.grows a) id
  have funded : Funded s'.engine.ledger e.withdrawals s.engine.mintLocked e.bidPremiumEscrow := by
    refine healthy.matched.funded.move moved ?_ (fun a => ?_) (fun a => ?_) fun a => ?_
    · rw [supply, total, pool]
      change _ = _ + (0 - _ + _)
      ring
    · simp
    · rw [if_pos rfl, if_neg (by decide)]
      ring
    · simp
  have available : ∀ a, s'.engine.ledger.balance a .available =
      e.ledger.balance a .available + weightOf (held · winner) (e.claims.get? ⟨a, m⟩) := by
    intro a
    have mine := sum_ofAccount (m := m) e.claims (held · winner) a
    rw [moved.balance, claimHolders, claims, ← mine]
    simp
  have risked := paid.risk
  have trades := paid.trades
  rw [same₁] at risked trades
  have same : s'.engine = { e with
      ledger := s'.engine.ledger, risk := s'.engine.risk, claims := s'.engine.claims,
      mintLocked := s.engine.mintLocked } := by
    obtain ⟨ledger, risk, burnt, same⟩ := paid.same
    rw [same, same₁]
  have others : ∀ a, a ∉ s'.touched.keys → s'.engine.accountLeaf a = e.accountLeaf a := by
    intro a untouched
    have unlisted : ∀ n, s'.engine.claims.get? ⟨a, n⟩ = e.claims.get? ⟨a, n⟩ := by
      intro n
      rw [paid.left, claims]
      refine if_neg fun h => ?_
      obtain ⟨x, there, mine⟩ := mem_map.1 h.2
      have there := paid.listed x there
      rw [mine] at there
      exact untouched there
    rw [same]
    exact accountLeaf_congr (moved.others a fun h => untouched (within a h))
      (risked.others a untouched)
      unlisted (fun _ => rfl) (fun _ _ => rfl) fun _ => rfl
  have whole : Healthy s'.engine := by
    rw [same]
    exact ⟨{ healthy.matched with
        reserved := healthy.matched.reserved.move risked fun _ => (add_zero _).symm
        funded := funded
        conserved := healthy.matched.conserved.emptied burned unlocked asked
        aligned := (healthy.matched.aligned.moveRisk risked).moveLedger moved.size },
      healthy.backed, { healthy.shaped with },
      ⟨fun a inside => healthy.rooted.accounts a (moved.size ▸ inside), healthy.rooted.markets⟩⟩
  have payout := paid.paid
  rw [total, collected.paid] at payout
  have rest := paid.pool
  rw [total, pool, sub_self] at rest
  refine ⟨⟨whole, ?_, ?_, ?_, ?_, ?_, supply, ?_, others, burned, fun k => ?_, rest,
    payout.trans (zero_add _), available, trades⟩, fun a h => paid.grows a (collected.grows a h)⟩
  all_goals rw [same]
  exact unlocked k

/-- Nothing stands behind the orders of a resolved market, since there are none. -/
theorem Healthy.bare {info : MarketMeta} (found : e.markets.get? m = some info)
    (resolved : info.lifecycle = .resolved) (k : OrderKey) (here : k.market = m) :
    e.orderReserves.get? k = none ∧ e.claimEscrows.get? k = none := by
  have backing := healthy.backed k
  rwa [(healthy.shaped.resolved m info found resolved).2.2 k here] at backing

/-- What a settlement that returns has done. -/
theorem settleMarket_ok {c : SettleMarket} (done : e.settleMarket c = .ok (e', kind)) :
    ∃ info winner books s, e.markets.get? c.market = some info ∧
      isClaimMarket info.marketType = true ∧ info.lifecycle = .resolved ∧
      info.winningOutcome = some winner ∧ Drained c.market e { e with books := books } ∅ ∧
      Settled c.market winner { e with books := books } s ∧
      Recommits (· ∈ s.touched.keys) (· = c.market) { s.engine with
        markets := s.engine.markets.insert c.market { info with lifecycle := .settled } } e' ∧
      kind = .marketSettled c.market s.paid := by
  simp only [settleMarket, ok_iff] at done
  obtain ⟨info, found, -, claim, -, resolved, winner, won, ⟨e₁, touched⟩, drained, s, collected, s',
    paid, -, -, e₂, accounts, e₃, market, rfl, rfl⟩ := done
  obtain ⟨⟨books, rfl⟩, rfl⟩ := drainMarketRestingState_quiet (healthy.bare found resolved) drained
  have drained := drainMarketRestingState_ok healthy drained
  obtain ⟨-, ⟨winner', won', below⟩, -⟩ := healthy.shaped.resolved c.market info found resolved
  obtain rfl : winner' = winner := Option.some.inj (won'.symm.trans won)
  obtain ⟨settled, -⟩ := settle_ok (drained.healthy healthy) ⟨found, claim⟩ below drained.asked
    collected paid
  have found' : s'.engine.markets.get? c.market = some info := by rwa [settled.markets]
  rw [found'] at accounts
  refine ⟨info, winner', books, s', found, claim, resolved, won, drained, settled, ?_, rfl⟩
  exact ((commitAccounts_ok accounts).trans (Recommits.ofMarket market)).mono (fun a h => .inl h)
    fun n h => .inr h

theorem settleMarket_handled {c : SettleMarket} (done : e.settleMarket c = .ok (e', kind)) :
    Handled (.settleMarket c) e e' := by
  obtain ⟨info, winner, books, s, found, -, -, -, drained, settled, commit, -⟩ :=
    settleMarket_ok healthy done
  have found' : s.engine.markets.get? c.market = some info := by rwa [settled.markets]
  have follows : Follows e s.engine :=
    Follows.ofTrades settled.trades fun n info at_n => ⟨info, settled.markets ▸ at_n, rfl⟩
  refine Handled.ofCommit (T := (· ∈ s.touched.keys)) (N := (· = c.market)) commit
    (settled.healthy.relabel found' rfl rfl rfl rfl fun h => ?_)
    (follows.trans (Follows.describe found' rfl)) settled.tree settled.replay settled.lastSeq ?_
    settled.deposits ?_ settled.leaves (fun n other => ?_) ?_ (fun a h => h) fun n h => h
  · cases h
  · exact (congrArg Subtype.val settled.supply).trans (add_zero _).symm
  · rintro k ⟨⟩
  · rw [← drained.marketLeaf other]
    refine marketLeaf_congr ?_ fun i => congrArg (get? · _) settled.books
    rw [← settled.markets]
    exact get?_insert_ne _ _ other
  · rintro a ⟨⟩

end Engine

end Dexos.Execution
