import Dexos.Execution.Treasury

/-!
# Markets

The handlers that create markets and change their data, and the funding epochs.
-/

namespace Dexos.Execution

open Foundations Clob Risk OrdMap List RiskEngine

variable {m : MarketId} {info : MarketMeta} {markets : OrdMap MarketId MarketMeta}

theorem FreeOfCharge.insert (free : FreeOfCharge markets)
    (taker : info.takerFeeBps.val = 0) (maker : info.makerFeeBps.val = 0) :
    FreeOfCharge (markets.insert m info) := by
  intro n found at_n
  rw [get?_insert] at at_n
  split_ifs at at_n with same
  · cases at_n
    exact ⟨taker, maker⟩
  · exact free n found at_n

/-- A market that was not known has no claims, no escrow and no locked collateral. -/
theorem Conserved.insert {claims : OrdMap AccountMarket (List Amount)}
    {asks : OrdMap AskKey Amount} {locked : OrdMap AccountMarket Amount} (info : MarketMeta)
    (conserved : Conserved noGap markets claims asks locked) (absent : markets.get? m = none) :
    Conserved noGap (markets.insert m info) claims asks locked := by
  have apart : ∀ n found, ClaimMarketOf markets n found → n ≠ m := by
    rintro n found ⟨here, -⟩ rfl
    simp [absent] at here
  have kept : ∀ n found, ClaimMarketOf markets n found →
      ClaimMarketOf (markets.insert m info) n found :=
    fun n found market => ⟨(get?_insert_ne _ _ (apart n found market)).trans market.1, market.2⟩
  refine ⟨fun k v stored => ?_, fun k x stored => ?_, fun k x stored => ?_,
    fun n found market i below => ?_⟩
  · obtain ⟨found, market, rest⟩ := conserved.sets k v stored
    exact ⟨found, kept _ _ market, rest⟩
  · obtain ⟨found, market, rest⟩ := conserved.asked k x stored
    exact ⟨found, kept _ _ market, rest⟩
  · obtain ⟨nonneg, found, market⟩ := conserved.minted k x stored
    exact ⟨nonneg, found, kept _ _ market⟩
  · by_cases same : n = m
    · subst same
      have noClaims : claimSum claims n i = 0 := total_eq_zero fun k v stored => by
        obtain ⟨found, market, -⟩ := conserved.sets k v stored
        exact if_neg (apart _ _ market)
      have noAsks : columnSum asks (fun k => k.market = n ∧ k.instrument = i) = 0 :=
        total_eq_zero fun k x stored => by
          obtain ⟨found, market, -⟩ := conserved.asked k x stored
          exact if_neg fun h => apart _ _ market h.1
      have noLocks : (columnSum locked fun k => k.market = n) = 0 :=
        total_eq_zero fun k x stored => by
          obtain ⟨-, found, market⟩ := conserved.minted k x stored
          exact if_neg (apart _ _ market)
      rw [noClaims, noAsks, noLocks]
      rfl
    · refine conserved.conserved n found ⟨?_, market.2⟩ i below
      rw [← market.1, get?_insert_ne _ _ same]

namespace Engine

variable {sha256 : Sha256} {e e' : Engine sha256} {kind : ReceiptKind}
  {info' : MarketMeta}

/-! ## Changes of one market's data -/

/-- New data of a market that keep its kind, its fees and its resolution. -/
structure Redescribes (info info' : MarketMeta) : Prop where
  kind : info'.marketType = info.marketType
  outcomes : info'.outcomes = info.outcomes
  taker : info'.takerFeeBps = info.takerFeeBps
  maker : info'.makerFeeBps = info.makerFeeBps
  resolved : info'.lifecycle = .resolved →
    info.lifecycle = .resolved ∧ info'.winningOutcome = info.winningOutcome

theorem Redescribes.count (same : Redescribes info info') : info'.count = info.count := by
  rw [MarketMeta.count, MarketMeta.count, same.kind, same.outcomes]

/-- New data of a market that keep its kind and its fees, and say a winner once it is resolved. -/
theorem Healthy.relabel (healthy : Healthy e) (found : e.markets.get? m = some info)
    (kind : info'.marketType = info.marketType) (outcomes : info'.outcomes = info.outcomes)
    (taker : info'.takerFeeBps = info.takerFeeBps) (maker : info'.makerFeeBps = info.makerFeeBps)
    (resolution : info'.lifecycle = .resolved → isClaimMarket info'.marketType = true ∧
      (∃ winner, info'.winningOutcome = some winner ∧ winner < info'.count) ∧
      ∀ k, k.market = m → e.resting k = none) :
    Healthy { e with markets := e.markets.insert m info' } := by
  have kinds := SameKinds.of_insert found kind outcomes
  have fees := healthy.matched.free m info found
  refine ⟨healthy.matched.rekind kinds (healthy.matched.free.insert ?_ ?_),
    healthy.backed.rekind kinds, ⟨fun k => ?_, fun n found' at_n resolved => ?_⟩,
    ⟨healthy.rooted.accounts, fun n found' at_n => ?_⟩⟩
  · rw [taker]
    exact fees.1
  · rw [maker]
    exact fees.2
  · refine (healthy.shaped.books k).trans ⟨?_, ?_⟩
    · rintro ⟨found', at_k, below⟩
      obtain ⟨found'', at_k', -, -, count⟩ := kinds.symm.find at_k
      exact ⟨found'', at_k', count ▸ below⟩
    · rintro ⟨found', at_k, below⟩
      obtain ⟨found'', at_k', -, -, count⟩ := kinds.find at_k
      exact ⟨found'', at_k', count ▸ below⟩
  · rw [get?_insert] at at_n
    split_ifs at at_n with here
    · cases at_n
      rw [here]
      exact resolution resolved
    · exact healthy.shaped.resolved n found' at_n resolved
  · obtain ⟨found'', at_n', -⟩ := kinds.find at_n
    exact healthy.rooted.markets n found'' at_n'

theorem Healthy.redescribe (healthy : Healthy e) (found : e.markets.get? m = some info)
    (same : Redescribes info info') : Healthy { e with markets := e.markets.insert m info' } := by
  refine healthy.relabel found same.kind same.outcomes same.taker same.maker fun resolved => ?_
  obtain ⟨before, winner⟩ := same.resolved resolved
  rw [same.kind, winner, same.count]
  exact healthy.shaped.resolved m info found before

/-- A handler that changes one market's data and nothing else. -/
theorem Handled.ofMarket {command : Command} (healthy : Healthy e)
    (done : Engine.commitMarket { e with markets := e.markets.insert m info' } m = .ok e')
    (found : e.markets.get? m = some info) (same : Redescribes info info')
    (mark : info'.markPrice = info.markPrice) (inner : e.inflow command = 0)
    (event : creditedEvent command = none) (free : principal command = none) :
    Handled command e e' := by
  exact Handled.ofCommit (T := fun _ => False) (N := (· = m)) (Recommits.ofMarket done)
    (healthy.redescribe found same) (Follows.describe found mark) rfl rfl rfl
    (by rw [inner, add_zero]) (by simp [event]) (by simp [event]) (fun _ _ => rfl)
    (fun n other => marketLeaf_congr (get?_insert_ne _ _ other) fun _ => rfl) (by simp [free])
    (fun _ h => h.elim) fun _ here => here

theorem lifecycleAllowed_resolved (current : MarketLifecycle) :
    lifecycleAllowed current .resolved = false := by
  cases current <;> rfl

theorem setMarketLifecycle_handled {c : SetMarketLifecycle} (healthy : Healthy e)
    (done : e.setMarketLifecycle c = .ok (e', kind)) : Handled (.setMarketLifecycle c) e e' := by
  simp only [setMarketLifecycle, ok_iff] at done
  obtain ⟨info, found, -, allowed, e₂, committed, rfl, rfl⟩ := done
  refine .ofMarket healthy committed found ⟨rfl, rfl, rfl, rfl, fun resolved => ?_⟩ rfl rfl rfl rfl
  -- governance cannot command a resolution
  change c.lifecycle = .resolved at resolved
  simp [resolved, lifecycleAllowed_resolved] at allowed

theorem setOracleHealth_handled {c : SetOracleHealth} (healthy : Healthy e)
    (done : e.setOracleHealth c = .ok (e', kind)) : Handled (.setOracleHealth c) e e' := by
  simp only [setOracleHealth, ok_iff] at done
  obtain ⟨info, found, e₂, committed, rfl, rfl⟩ := done
  exact .ofMarket healthy committed found
    ⟨rfl, rfl, rfl, rfl, fun resolved => ⟨resolved, rfl⟩⟩ rfl rfl
    rfl rfl

/-- Every account that the index lists is among the accounts with a position. -/
theorem mem_positionHolders {b : AccountId} (sound : e.risk.Sound e.known)
    (listed : (e.risk.holders m).get? b = some ()) : b ∈ e.positionHolders m := by
  obtain ⟨q, position, holds⟩ := sound.position listed
  obtain ⟨x, p, here, -⟩ := sound.holders m b listed
  rw [positionHolders, mem_filter, mem_filterMap]
  refine ⟨⟨b.val, mem_range.2 (sound.lt_accountCount (slot_lt here)), ?_⟩, ?_⟩
  · rw [accountOf, dif_pos b.isLt]
    rfl
  · rw [position]
    exact decide_eq_true holds

theorem setMarkPrice_handled {c : SetMarkPrice} (healthy : Healthy e)
    (done : e.setMarkPrice c = .ok (e', kind)) : Handled (.setMarkPrice c) e e' := by
  simp only [setMarkPrice, ok_iff, liftRisk_eq_ok] at done
  obtain ⟨info, found, risk, marked, e₁, holders, e₂, committed, rfl, rfl⟩ := done
  obtain ⟨moved, index⟩ := setMarkPrice_ok (K := e.known) marked
  have described := (healthy.moveRisk moved).redescribe found
    (⟨rfl, rfl, rfl, rfl, fun resolved => ⟨resolved, rfl⟩⟩ :
      Redescribes info { info with markPrice := c.price })
  refine Handled.ofCommit (T := fun b => (e.risk.holders c.market).get? b = some ())
    (N := (· = c.market))
    ((commitAccounts_ok holders).trans (Recommits.ofMarket committed)) described
    (Follows.mark e.books marked) rfl rfl rfl
    (add_zero _).symm rfl (by rintro k ⟨⟩) (fun a other => ?_) (fun m other => ?_) (by rintro a ⟨⟩)
    (fun a listed => .inl ?_) fun m same => .inr same
  · exact accountLeaf_congr rfl (moved.others a other) (fun _ => rfl) (fun _ => rfl)
      (fun _ _ => rfl)
      fun _ => rfl
  · exact marketLeaf_congr (get?_insert_ne _ _ other) fun _ => rfl
  · refine mem_positionHolders described.matched.aligned.sound ?_
    rwa [index]

/-! ## New markets -/

theorem get?_newBooks (m : MarketId) (l : List U16) (books : Books) (k : BookKey) :
    (l.foldl (fun (books : Books) i => books.insert ⟨m, i⟩ .new) books).get? k =
      if k.market = m ∧ k.instrument ∈ l then some .new else books.get? k := by
  induction l generalizing books with
  | nil => simp
  | cons i rest ih =>
    rw [foldl_cons, ih, get?_insert]
    have here : k = ⟨m, i⟩ ↔ k.market = m ∧ k.instrument = i := BookKey.ext_iff
    by_cases later : k.market = m ∧ k.instrument ∈ rest
    · rw [if_pos later, if_pos ⟨later.1, mem_cons_of_mem i later.2⟩]
    · rw [if_neg later]
      by_cases first : k = ⟨m, i⟩
      · rw [if_pos first, if_pos ⟨(here.1 first).1, mem_cons.2 (.inl (here.1 first).2)⟩]
      · rw [if_neg first, if_neg]
        rintro ⟨same, listed⟩
        obtain rfl | listed := mem_cons.1 listed
        · exact first (here.2 ⟨same, rfl⟩)
        · exact later ⟨same, listed⟩

theorem createMarket_handled {c : CreateMarket} (healthy : Healthy e)
    (done : e.createMarket c = .ok (e', kind)) : Handled (.createMarket c) e e' := by
  simp only [createMarket, ok_iff, liftRisk_eq_ok] at done
  obtain ⟨-, unknown, risk, marked, e₂, committed, rfl, rfl⟩ := done
  have absent := contains_eq_false.1 unknown
  have aligned := healthy.matched.aligned
  have bookless : ∀ k : BookKey, k.market = c.market → e.books.get? k = none := by
    intro k same
    rw [← Option.not_isSome_iff_eq_none]
    intro stored
    obtain ⟨info, found, -⟩ := (healthy.shaped.books k).1 stored
    simp [same, absent] at found
  have unheld : ∀ b, (e.risk.holders c.market).get? b ≠ some () := by
    intro b listed
    obtain ⟨x, p, here, held, same, -⟩ := aligned.sound.holders c.market b listed
    have known := aligned.sound.known b x here p held
    simp [same, absent] at known
  set listed := e.markets.insert c.market (newMarket c)
  have more : ∀ m, e.known m → (listed.get? m).isSome = true := by
    intro m known
    rw [get?_insert]
    split_ifs
    · rfl
    · exact known
  obtain ⟨moved, -⟩ := setMarkPrice_ok
    (K := fun m => (listed.get? m).isSome = true) marked
  have commit := Recommits.ofMarket committed
  have books := get?_newBooks c.market (instruments (newMarket c).count) e.books
  set opened := (instruments (newMarket c).count).foldl (fun (books : Books) i =>
    books.insert ⟨c.market, i⟩ .new) e.books
  have rests : ∀ k : OrderKey,
      ((opened.get? k.book).bind fun b => b.lookup k.orderId) = e.resting k := by
    intro k
    rw [books, resting]
    split_ifs with here
    · rw [bookless k.book here.1]
      rfl
    · rfl
  refine Handled.ofCommit (T := fun _ => False) (N := (· = c.market)) commit ⟨?_, fun k => ?_,
    ⟨fun k => ?_, fun m info found resolved => ?_⟩,
      ⟨healthy.rooted.accounts, fun m info found => ?_⟩⟩
    (Follows.mark _ marked) rfl rfl rfl (add_zero _).symm rfl (by rintro k ⟨⟩) (fun a _ => ?_)
      (fun m other => ?_)
    (by rintro a ⟨⟩) (fun a h => h.elim) fun m same => same
  · exact { healthy.matched with
      reserved := healthy.matched.reserved.move moved fun _ => (add_zero _).symm
      conserved := healthy.matched.conserved.insert _ absent
      aligned := ⟨moved.size.trans aligned.size, moved.sound (aligned.sound.mono more)⟩
      free := healthy.matched.free.insert rfl rfl }
  · have backing := healthy.backed k
    change Backing (listed.get? k.market) _ _
      ((opened.get? k.book).bind fun b => b.lookup k.orderId)
    rw [rests]
    by_cases same : k.market = c.market
    · have empty : e.resting k = none := by
        rw [resting, bookless k.book same]
        rfl
      rw [empty] at backing ⊢
      exact backing
    · rwa [get?_insert_ne _ _ same]
  · rw [books]
    by_cases same : k.market = c.market
    · rw [same, get?_insert_self, bookless k same]
      constructor
      · intro stored
        split_ifs at stored with here
        · exact ⟨_, rfl, mem_instruments.1 here.2⟩
        · cases stored
      · rintro ⟨info, ⟨⟩, below⟩
        rw [if_pos ⟨rfl, mem_instruments.2 below⟩]
        rfl
    · rw [if_neg fun h => same h.1, get?_insert_ne _ _ same]
      exact healthy.shaped.books k
  · rw [get?_insert] at found
    split_ifs at found with same
    · cases found
      cases resolved
    · obtain ⟨claim, winner, empty⟩ := healthy.shaped.resolved m info found resolved
      exact ⟨claim, winner, fun k here => (rests k).trans (empty k here)⟩
  · rw [get?_insert] at found
    split_ifs at found with same
    · exact commit.insideMarket m same
    · exact healthy.rooted.markets m info found
  · exact accountLeaf_congr rfl (moved.others a (unheld a)) (fun _ => rfl) (fun _ => rfl)
      (fun _ _ => rfl) fun _ => rfl
  · refine marketLeaf_congr (get?_insert_ne _ _ other) fun i => ?_
    rw [books, if_neg fun h => other h.1]

/-! ## Funding -/

theorem fundHolder_keeps {mark : Price} {rate : Ratio} {s s' : Funding sha256} {account : AccountId}
    (done : fundHolder m mark rate s account = .ok s') : Keeps s.engine s'.engine := by
  simp only [fundHolder, ok_iff, liftRisk_eq_ok, liftArith_eq_ok] at done
  obtain ⟨qty, -, share, -, collected, -, distributed, -, risk, paid, e₁, committed, rfl⟩ := done
  have moved := applyFunding_ok (K := s.engine.known) paid
  exact Keeps.ofStep (Step.ofRisk moved (.single (.funding paid))) rfl rfl
    (Recommits.ofAccount committed) fun a same => same

theorem fundResidual_ok {K : MarketId → Prop} {risk risk' : RiskEngine} {residual : Amount}
    (done : fundResidual risk residual = .ok risk') :
    risk.Moved K risk' (fun _ => 0) (fun _ => False) ∧ risk.Trades risk' := by
  rw [fundResidual] at done
  split_ifs at done
  · rw [liftRisk_eq_ok] at done
    exact ⟨fundInsurance_ok done, .single (.insurance done)⟩
  · cases done
    exact ⟨Moved.refl risk, .refl⟩

theorem recordEpoch_keeps (found : e.markets.get? m = some info) (epoch : U64) :
    Keeps e { e with markets := e.markets.insert m { info with lastFundingEpoch := epoch } } := by
  refine ⟨fun h => h.redescribe found ⟨rfl, rfl, rfl, rfl, fun resolved => ⟨resolved, rfl⟩⟩, rfl,
    rfl, rfl, rfl, Follows.describe found rfl,
    fun S M stale => ⟨stale.accounts, fun n other => ?_, stale.unused⟩⟩
  refine (stale.markets n other).trans (congrArg _ ?_)
  symm
  by_cases same : n = m
  · subst same
    rw [marketLeaf, marketLeaf, found, get?_insert_self]
    rfl
  · exact marketLeaf_congr (get?_insert_ne _ _ same) fun _ => rfl

theorem applyFundingEpoch_handled {c : ApplyFundingEpoch} (healthy : Healthy e)
    (done : e.applyFundingEpoch c = .ok (e', kind)) : Handled (.applyFundingEpoch c) e e' := by
  simp only [applyFundingEpoch, ok_iff, liftArith_eq_ok] at done
  obtain ⟨info, found, -, -, -, -, s, loop, residual, -, -, -, risk, funded, e₂, committed, rfl,
    rfl⟩ :=
    done
  have described := recordEpoch_keeps found c.epoch
  have turns : Keeps e s.engine := by
    refine foldlM_keeps (P := fun s => Keeps e s.engine) described ?_ loop
    exact fun account _ s s' kept step => kept.trans (fundHolder_keeps step)
  obtain ⟨moved, trades⟩ := fundResidual_ok (K := s.engine.known) funded
  have last : Keeps s.engine e₂ :=
    Keeps.ofStep (Step.ofRisk moved trades) rfl rfl (Recommits.ofMarket committed) fun a h => h.elim
  exact (turns.trans last).handled healthy rfl rfl rfl

end Engine

end Dexos.Execution
