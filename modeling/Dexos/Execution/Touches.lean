import Dexos.Risk.Index
import Dexos.Execution.Columns

/-!
# Frames and committed leaves

An operation touches the leaves of some accounts and leaves the rest of the state alone. A
leaf is stale from the time its account or market is touched until it is committed again.
-/

namespace Dexos.Execution

open Foundations Clob Risk List

namespace Engine

variable {sha256 : Sha256} {e e' e'' : Engine sha256} {a : AccountId} {m : MarketId}

/-! ## Frames -/

/-- Whether a market has been created. -/
def known (e : Engine sha256) (m : MarketId) : Prop := (e.markets.get? m).isSome = true

/-- The accounts outside a set keep everything that their leaves commit to, and nothing but
balances, positions, claims, columns and sidecars changes. -/
structure Touches (S : AccountId → Prop) (e e' : Engine sha256) : Prop where
  books : e'.books = e.books
  markets : e'.markets = e.markets
  tree : e'.tree = e.tree
  replay : e'.replay = e.replay
  lastSeq : e'.lastSeq = e.lastSeq
  withdrawals : e'.withdrawals = e.withdrawals
  deposits : e'.depositsSeen = e.depositsSeen
  supply : e'.ledger.totalSupply = e.ledger.totalSupply
  allocated : e'.ledger.accounts.length = e.ledger.accounts.length
  status : ∀ a, (e'.risk.slot a).map Account.isOpen = (e.risk.slot a).map Account.isOpen
  purse : ∀ a, ¬ S a → e'.ledger.purse a = e.ledger.purse a
  slot : ∀ a, ¬ S a → e'.risk.slot a = e.risk.slot a
  claims : ∀ a, ¬ S a → ∀ m, e'.claims.get? ⟨a, m⟩ = e.claims.get? ⟨a, m⟩
  premium : ∀ a, ¬ S a → ∀ m, e'.bidPremiumEscrow.get? ⟨a, m⟩ = e.bidPremiumEscrow.get? ⟨a, m⟩
  asks : ∀ a, ¬ S a → ∀ m i, e'.askClaimsEscrow.get? ⟨a, m, i⟩ = e.askClaimsEscrow.get? ⟨a, m, i⟩

namespace Touches

variable {S T : AccountId → Prop}

theorem refl (S : AccountId → Prop) (e : Engine sha256) : Touches S e e := by
  constructor <;> intros <;> rfl

theorem trans (first : Touches S e e') (second : Touches T e' e'') :
    Touches (fun a => S a ∨ T a) e e'' where
  books := second.books.trans first.books
  markets := second.markets.trans first.markets
  tree := second.tree.trans first.tree
  replay := second.replay.trans first.replay
  lastSeq := second.lastSeq.trans first.lastSeq
  withdrawals := second.withdrawals.trans first.withdrawals
  deposits := second.deposits.trans first.deposits
  supply := second.supply.trans first.supply
  allocated := second.allocated.trans first.allocated
  status a := (second.status a).trans (first.status a)
  purse a other := (second.purse a fun h => other (.inr h)).trans
    (first.purse a fun h => other (.inl h))
  slot a other := (second.slot a fun h => other (.inr h)).trans
    (first.slot a fun h => other (.inl h))
  claims a other m := (second.claims a (fun h => other (.inr h)) m).trans
    (first.claims a (fun h => other (.inl h)) m)
  premium a other m := (second.premium a (fun h => other (.inr h)) m).trans
    (first.premium a (fun h => other (.inl h)) m)
  asks a other m i := (second.asks a (fun h => other (.inr h)) m i).trans
    (first.asks a (fun h => other (.inl h)) m i)

theorem mono (touched : Touches S e e') (more : ∀ a, S a → T a) : Touches T e e' where
  __ := touched
  purse a other := touched.purse a fun h => other (more a h)
  slot a other := touched.slot a fun h => other (more a h)
  claims a other := touched.claims a fun h => other (more a h)
  premium a other := touched.premium a fun h => other (more a h)
  asks a other := touched.asks a fun h => other (more a h)

theorem append (first : Touches S e e') (second : Touches S e' e'') : Touches S e e'' :=
  (first.trans second).mono fun _ h => or_self_iff.1 h

theorem ofRisk {K : MarketId → Prop} {risk : RiskEngine} {delta : AccountId → Int}
    (moved : e.risk.Moved K risk delta S) : Touches S e { e with risk := risk } :=
  { refl S e with
    slot := moved.others
    status := moved.status }

end Touches

/-! ## Leaves -/

/-- The entries of one account depend on nothing but those entries. -/
theorem filter_owned {K V : Type} [LinearOrder K] {m m' : OrdMap K V} (owner : K → AccountId)
    (a : AccountId) (q : V → Bool) (same : ∀ k, owner k = a → m'.get? k = m.get? k) :
    (m'.filter fun k v => owner k = a && q v) = m.filter fun k v => owner k = a && q v := by
  ext1 k
  rw [OrdMap.get?_filter, OrdMap.get?_filter]
  by_cases mine : owner k = a
  · rw [same k mine]
  · cases m.get? k <;> cases m'.get? k <;> simp [mine]

/-- What a leaf reads of an account. -/
theorem accountLeaf_congr (purse : e'.ledger.purse a = e.ledger.purse a)
    (slot : e'.risk.slot a = e.risk.slot a)
    (claims : ∀ m, e'.claims.get? ⟨a, m⟩ = e.claims.get? ⟨a, m⟩)
    (premium : ∀ m, e'.bidPremiumEscrow.get? ⟨a, m⟩ = e.bidPremiumEscrow.get? ⟨a, m⟩)
    (asks : ∀ m i, e'.askClaimsEscrow.get? ⟨a, m, i⟩ = e.askClaimsEscrow.get? ⟨a, m, i⟩)
    (mark : ∀ d, e'.replay.mark a d = e.replay.mark a d) : e'.accountLeaf a = e.accountLeaf a := by
  have sets : e'.claimSets a = e.claimSets a := by
    have mine : ∀ k, AccountMarket.account k = a → e'.claims.get? k = e.claims.get? k := by
      rintro k rfl
      exact claims k.market
    exact congrArg (fun m => m.entries.map fun x => (x.1.market, x.2))
      (filter_owned AccountMarket.account a (fun v => v.any fun x => x.val ≠ 0) mine)
  have columns : e'.premiumColumn a = e.premiumColumn a := by
    have mine : ∀ k, AccountMarket.account k = a →
        e'.bidPremiumEscrow.get? k = e.bidPremiumEscrow.get? k := by
      rintro k rfl
      exact premium k.market
    exact congrArg (fun m => m.entries.map fun x => (x.1.market, x.2))
      (filter_owned AccountMarket.account a (fun v => v.val ≠ 0) mine)
  have asked : e'.askColumn a = e.askColumn a := by
    have mine : ∀ k, AskKey.account k = a →
        e'.askClaimsEscrow.get? k = e.askClaimsEscrow.get? k := by
      rintro k rfl
      exact asks k.market k.instrument
    exact congrArg (fun m => m.entries.map fun x => (x.1.market, x.1.instrument, x.2))
      (filter_owned AskKey.account a (fun v => v.val ≠ 0) mine)
  rw [accountLeaf, accountLeaf, Ledger.idx, Ledger.idx, purse, RiskEngine.read, RiskEngine.read,
    slot, sets, columns, asked, mark, mark]

theorem Touches.accountLeaf {S : AccountId → Prop} (touched : Touches S e e') (other : ¬ S a) :
    e'.accountLeaf a = e.accountLeaf a :=
  accountLeaf_congr (touched.purse a other) (touched.slot a other) (touched.claims a other)
    (touched.premium a other) (touched.asks a other) fun d => by rw [touched.replay]

/-- What a leaf reads of a market. -/
theorem marketLeaf_congr (info : e'.markets.get? m = e.markets.get? m)
    (books : ∀ i, e'.books.get? ⟨m, i⟩ = e.books.get? ⟨m, i⟩) :
    e'.marketLeaf m = e.marketLeaf m := by
  have roots : e'.bookRoot m = e.bookRoot m := by
    funext i
    rw [bookRoot, bookRoot, books]
  rw [marketLeaf, marketLeaf, info, roots]

/-! ## Staleness -/

/-- The digest that a tree holds for a leaf, zero when there is none. -/
def committed (hash : List UInt8 → Digest) : Attempt (List UInt8) → Digest
  | .ok leaf => hash leaf
  | .error _ => 0

/-- The leaves outside two sets are committed. -/
structure Stale (S : AccountId → Prop) (M : MarketId → Prop) (e : Engine sha256) : Prop where
  accounts : ∀ a, ¬ S a →
    e.tree.accounts.leaf a.val = committed (hashAccountLeaf sha256) (e.accountLeaf a)
  markets : ∀ m, ¬ M m →
    e.tree.markets.leaf m.val = committed (hashMarketLeaf sha256) (e.marketLeaf m)
  unused : ∀ i, 2 ^ 32 ≤ i → e.tree.accounts.leaf i = 0 ∧ e.tree.markets.leaf i = 0

namespace Stale

variable {S T : AccountId → Prop} {M N : MarketId → Prop}

theorem mono (stale : Stale S M e) (more : ∀ a, S a → T a) (moreMarkets : ∀ m, M m → N m) :
    Stale T N e where
  accounts a other := stale.accounts a fun h => other (more a h)
  markets m other := stale.markets m fun h => other (moreMarkets m h)
  unused := stale.unused

theorem change (stale : Stale S M e) (tree : e'.tree = e.tree)
    (accounts : ∀ a, ¬ S a → ¬ T a → e'.accountLeaf a = e.accountLeaf a)
    (markets : ∀ m, ¬ M m → ¬ N m → e'.marketLeaf m = e.marketLeaf m) :
    Stale (fun a => S a ∨ T a) (fun m => M m ∨ N m) e' where
  accounts a other := by
    rw [tree, accounts a (fun h => other (.inl h)) fun h => other (.inr h)]
    exact stale.accounts a fun h => other (.inl h)
  markets m other := by
    rw [tree, markets m (fun h => other (.inl h)) fun h => other (.inr h)]
    exact stale.markets m fun h => other (.inl h)
  unused := tree ▸ stale.unused

theorem touch (stale : Stale S M e) (touched : Touches T e e') :
    Stale (fun a => S a ∨ T a) M e' := by
  refine (stale.change (T := T) (N := fun _ => False) touched.tree
    (fun a _ other => touched.accountLeaf other) fun m _ _ => ?_).mono (fun _ h => h)
    fun _ h => h.resolve_right id
  exact marketLeaf_congr (by rw [touched.markets]) fun i => by rw [touched.books]

end Stale

/-! ## Commits -/

/-- A commit changes the tree alone, and in it one leaf. -/
theorem commitAccount_ok (done : e.commitAccount a = .ok e') :
    ∃ tree leaf, e' = { e with tree := tree } ∧ e.accountLeaf a = .ok leaf ∧
      a.val < e.tree.accounts.capacity ∧ tree.accounts.depth = e.tree.accounts.depth ∧
      tree.markets = e.tree.markets ∧ ∀ i, tree.accounts.leaf i =
        if i = a.val then hashAccountLeaf sha256 leaf else e.tree.accounts.leaf i := by
  simp only [commitAccount, liftState, ok_iff, mapError_eq_ok] at done
  obtain ⟨leaf, shown, tree, stored, rfl⟩ := done
  obtain ⟨inside, depth, markets, leaves⟩ := StateTree.update_ok stored
  exact ⟨tree, leaf, rfl, shown, inside, depth, markets, leaves⟩

theorem commitMarket_ok (done : e.commitMarket m = .ok e') :
    ∃ tree leaf, e' = { e with tree := tree } ∧ e.marketLeaf m = .ok leaf ∧
      m.val < e.tree.markets.capacity ∧ tree.markets.depth = e.tree.markets.depth ∧
      tree.accounts = e.tree.accounts ∧ ∀ i, tree.markets.leaf i =
        if i = m.val then hashMarketLeaf sha256 leaf else e.tree.markets.leaf i := by
  simp only [commitMarket, liftState, ok_iff, mapError_eq_ok] at done
  obtain ⟨leaf, shown, tree, stored, rfl⟩ := done
  obtain ⟨inside, depth, accounts, leaves⟩ := StateTree.update_ok stored
  exact ⟨tree, leaf, rfl, shown, inside, depth, accounts, leaves⟩

/-- A change of the tree alone that keeps its shape and freshens some leaves. -/
structure Recommits (A : AccountId → Prop) (M : MarketId → Prop) (e e' : Engine sha256) : Prop where
  same : ∃ tree, e' = { e with tree := tree }
  accountDepth : e'.tree.accounts.depth = e.tree.accounts.depth
  marketDepth : e'.tree.markets.depth = e.tree.markets.depth
  inside : ∀ a, A a → a.val < e.tree.accounts.capacity
  insideMarket : ∀ m, M m → m.val < e.tree.markets.capacity
  freshens : ∀ S T, Stale S T e → Stale (fun a => S a ∧ ¬ A a) (fun m => T m ∧ ¬ M m) e'

namespace Recommits

variable {A B : AccountId → Prop} {M N : MarketId → Prop}

theorem refl (e : Engine sha256) : Recommits (fun _ => False) (fun _ => False) e e where
  same := ⟨e.tree, rfl⟩
  accountDepth := rfl
  marketDepth := rfl
  inside _ h := h.elim
  insideMarket _ h := h.elim
  freshens _ _ stale := stale.mono (fun _ h => ⟨h, id⟩) fun _ h => ⟨h, id⟩

theorem trans (first : Recommits A M e e') (second : Recommits B N e' e'') :
    Recommits (fun a => A a ∨ B a) (fun m => M m ∨ N m) e e'' where
  same := by
    obtain ⟨t, rfl⟩ := first.same
    obtain ⟨t', rfl⟩ := second.same
    exact ⟨t', rfl⟩
  accountDepth := second.accountDepth.trans first.accountDepth
  marketDepth := second.marketDepth.trans first.marketDepth
  inside a listed := listed.elim (first.inside a) fun h => by
    have capacity : e'.tree.accounts.capacity = e.tree.accounts.capacity :=
      congrArg (2 ^ ·) first.accountDepth
    exact capacity ▸ second.inside a h
  insideMarket m listed := listed.elim (first.insideMarket m) fun h => by
    have capacity : e'.tree.markets.capacity = e.tree.markets.capacity :=
      congrArg (2 ^ ·) first.marketDepth
    exact capacity ▸ second.insideMarket m h
  freshens S T stale := by
    refine (second.freshens _ _ (first.freshens S T stale)).mono (fun a h => ?_) fun m h => ?_
    · exact ⟨h.1.1, fun listed => listed.elim h.1.2 h.2⟩
    · exact ⟨h.1.1, fun listed => listed.elim h.1.2 h.2⟩

theorem ofAccount (done : e.commitAccount a = .ok e') :
    Recommits (· = a) (fun _ => False) e e' := by
  obtain ⟨tree, leaf, rfl, shown, inside, depth, markets, leaves⟩ := commitAccount_ok done
  refine ⟨⟨tree, rfl⟩, depth, by rw [markets], fun b same => same ▸ inside, fun _ h => h.elim,
    fun S T stale => ⟨fun b kept => ?_, fun m kept => ?_, fun i beyond => ?_⟩⟩
  · change tree.accounts.leaf b.val = committed _ (e.accountLeaf b)
    rw [leaves]
    by_cases same : b = a
    · rw [if_pos (congrArg Fin.val same), same, shown, committed]
    · rw [if_neg fun h => same (Fin.ext h)]
      exact stale.accounts b fun h => kept ⟨h, same⟩
  · change tree.markets.leaf m = _
    rw [markets]
    exact stale.markets m fun h => kept ⟨h, id⟩
  · rw [leaves, if_neg (by omega), markets]
    exact stale.unused i beyond

theorem ofMarket (done : e.commitMarket m = .ok e') : Recommits (fun _ => False) (· = m) e e' := by
  obtain ⟨tree, leaf, rfl, shown, inside, depth, accounts, leaves⟩ := commitMarket_ok done
  refine ⟨⟨tree, rfl⟩, by rw [accounts], depth, fun _ h => h.elim, fun n same => same ▸ inside,
    fun S T stale => ⟨fun a kept => ?_, fun n kept => ?_, fun i beyond => ?_⟩⟩
  · change tree.accounts.leaf a = _
    rw [accounts]
    exact stale.accounts a fun h => kept ⟨h, id⟩
  · change tree.markets.leaf n.val = committed _ (e.marketLeaf n)
    rw [leaves]
    by_cases same : n = m
    · rw [if_pos (congrArg Fin.val same), same, shown, committed]
    · rw [if_neg fun h => same (Fin.ext h)]
      exact stale.markets n fun h => kept ⟨h, same⟩
  · rw [leaves, if_neg (by omega), accounts]
    exact stale.unused i beyond

theorem mono (done : Recommits A M e e') (less : ∀ a, B a → A a) (less' : ∀ m, N m → M m) :
    Recommits B N e e' where
  __ := done
  inside a h := done.inside a (less a h)
  insideMarket m h := done.insideMarket m (less' m h)
  freshens S T stale := (done.freshens S T stale).mono (fun a h => ⟨h.1, fun b => h.2 (less a b)⟩)
    fun m h => ⟨h.1, fun n => h.2 (less' m n)⟩

end Recommits

theorem commitAccounts_ok {accounts : List AccountId} (done : e.commitAccounts accounts = .ok e') :
    Recommits (· ∈ accounts) (fun _ => False) e e' := by
  refine foldlM_induction
    (P := fun seen s => Recommits (· ∈ seen) (fun _ => False) e s) ?_ ?_ done
  · exact (Recommits.refl e).mono (fun a h => absurd h not_mem_nil) fun _ h => h
  · intro seen a rest s s' _ so_far step
    refine (so_far.trans (Recommits.ofAccount step)).mono (fun b listed => ?_) fun _ h => .inl h
    exact (mem_append.1 listed).imp_right mem_singleton.1

theorem commitMarkets_ok {markets : List MarketId} (done : markets.foldlM commitMarket e = .ok e') :
    Recommits (fun _ => False) (· ∈ markets) e e' := by
  refine foldlM_induction
    (P := fun seen s => Recommits (fun _ => False) (· ∈ seen) e s) ?_ ?_ done
  · exact (Recommits.refl e).mono (fun _ h => h) fun m h => absurd h not_mem_nil
  · intro seen m rest s s' _ so_far step
    refine (so_far.trans (Recommits.ofMarket step)).mono (fun _ h => .inl h) fun n listed => ?_
    exact (mem_append.1 listed).imp_right mem_singleton.1

end Engine

end Dexos.Execution
