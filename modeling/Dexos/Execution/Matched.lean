import Dexos.Execution.Touches

/-!
# The relations between subsystems

The risk engine, the ledger, the claim sets and the sidecars of resting orders are separate
records that have to agree. Each relation is stated of the records it ties together, so that
an operation has to show only the relations of the records it changes.
-/

namespace Dexos.Execution

open Foundations Clob Risk List Option RiskEngine

/-! ## Weights -/

/-- What a reserve counts for an account. -/
def reserveAt (a : AccountId) (_ : OrderKey) (r : OrderReserve) : Int :=
  if r.account = a then r.reserved.val else 0

/-- What an escrow record counts for an entry of the premium column. -/
def premiumAt (k : AccountMarket) (order : OrderKey) (r : ClaimOrderEscrow) : Int :=
  if k = ⟨r.account, order.market⟩ then r.premium.val else 0

/-- What an escrow record counts for an entry of the claims column. -/
def claimsAt (k : AskKey) (order : OrderKey) (r : ClaimOrderEscrow) : Int :=
  if k = ⟨r.account, order.market, order.instrument⟩ then r.claims.val else 0

/-- What a withdrawal counts for an account until it is finalized. -/
def pendingAt (a : AccountId) (_ : U64) (w : Withdrawal) : Int :=
  if w.account = a ∧ w.finalized = false then w.amount.val else 0

/-- A record holds premium or claims, by its side, and never a negative amount. -/
structure ClaimOrderEscrow.WellFormed (r : ClaimOrderEscrow) : Prop where
  premium : 0 ≤ r.premium.val
  claims : 0 ≤ r.claims.val
  bid : r.side = .bid → r.claims.val = 0
  ask : r.side = .ask → r.premium.val = 0

/-! ## Relations -/

/-- The resting reservation of every account is the sum of its reserves. -/
def Reserved (reserves : OrdMap OrderKey OrderReserve) (risk : RiskEngine) : Prop :=
  ∀ a, risk.reserved a = reserves.total (reserveAt a)

/-- The committed columns are the sums of the escrow records, with no entry at zero. -/
structure Columned (records : OrdMap OrderKey ClaimOrderEscrow)
    (premium : OrdMap AccountMarket Amount) (asks : OrdMap AskKey Amount) : Prop where
  premiums : ∀ k, entryOf premium k = records.total (premiumAt k)
  asked : ∀ k, entryOf asks k = records.total (claimsAt k)
  premiumPositive : AllPositive premium
  asksPositive : AllPositive asks
  shape : ∀ k r, records.get? k = some r → r.WellFormed

/-- The partitions of the ledger are backed by withdrawals, minted sets and premiums, and the
recorded supply is what the accounts hold. -/
structure Funded (ledger : Ledger) (withdrawals : OrdMap U64 Withdrawal)
    (locked premium : OrdMap AccountMarket Amount) : Prop where
  nonneg : ledger.Nonneg
  supply : ledger.totalSupply.val = ledger.worth
  reserved : ∀ a, ledger.balance a .reserved = withdrawals.total (pendingAt a)
  locked : ∀ a, ledger.balance a .locked = columnSum locked fun k => k.account = a
  escrowed : ∀ a, ledger.balance a .escrowed = columnSum premium fun k => k.account = a

/-- A market of a record is a claim market. -/
def ClaimMarketOf (markets : OrdMap MarketId MarketMeta) (m : MarketId)
    (info : MarketMeta) : Prop :=
  markets.get? m = some info ∧ isClaimMarket info.marketType = true

/-- Claims are minted in complete sets: of every outcome there are as many, live or escrowed,
as there is collateral locked. In the middle of an operation the two differ by a gap. -/
structure Conserved (gap : MarketId → U16 → Int) (markets : OrdMap MarketId MarketMeta)
    (claims : OrdMap AccountMarket (List Amount)) (asks : OrdMap AskKey Amount)
    (locked : OrdMap AccountMarket Amount) : Prop where
  sets : ∀ k v, claims.get? k = some v → ∃ info, ClaimMarketOf markets k.market info ∧
    v.length = info.count.val ∧ ∀ x ∈ v, 0 ≤ x.val
  asked : ∀ k x, asks.get? k = some x → ∃ info, ClaimMarketOf markets k.market info ∧
    k.instrument < info.count
  minted : ∀ k x, locked.get? k = some x → 0 ≤ x.val ∧ ∃ info, ClaimMarketOf markets k.market info
  conserved : ∀ m info, ClaimMarketOf markets m info → ∀ i : U16, i < info.count →
    claimSum claims m i + columnSum asks (fun k => k.market = m ∧ k.instrument = i) =
      (columnSum locked fun k => k.market = m) + gap m i

/-- Nothing is missing. -/
def noGap : MarketId → U16 → Int := fun _ _ => 0

/-- The ledger and the risk engine have the same accounts. -/
structure Aligned (ledger : Ledger) (risk : RiskEngine) (markets : OrdMap MarketId MarketMeta) :
    Prop where
  size : risk.accounts.length = ledger.accounts.length
  sound : risk.Sound fun m => (markets.get? m).isSome = true

/-- No market charges a fee. -/
def FreeOfCharge (markets : OrdMap MarketId MarketMeta) : Prop :=
  ∀ m info, markets.get? m = some info → info.takerFeeBps.val = 0 ∧ info.makerFeeBps.val = 0

/-- All relations between the subsystems. -/
structure Matched {sha256 : Sha256} (e : Engine sha256) : Prop where
  reserved : Reserved e.orderReserves e.risk
  columns : Columned e.claimEscrows e.bidPremiumEscrow e.askClaimsEscrow
  funded : Funded e.ledger e.withdrawals e.mintLocked e.bidPremiumEscrow
  conserved : Conserved noGap e.markets e.claims e.askClaimsEscrow e.mintLocked
  aligned : Aligned e.ledger e.risk e.markets
  free : FreeOfCharge e.markets

/-- What stands behind a key: the exact backing of the order that rests there, and nothing
when none does. -/
def Backing (info : Option MarketMeta) (reserve : Option OrderReserve)
    (record : Option ClaimOrderEscrow) : Option Order → Prop
  | none => reserve = none ∧ record = none
  | some o => 0 < o.price.val ∧ 0 < o.remaining.val ∧ ∃ market, info = some market ∧
      if isClaimMarket market.marketType then
        reserve = none ∧ ∃ r, record = some r ∧ r.backs o.account o.side o.price o.remaining
      else record = none ∧ reserveBacks reserve o.account o.price o.remaining

/-- Every order of a lookup is backed exactly, and there is no other sidecar. -/
def Backed {sha256 : Sha256} (l : OrderKey → Option Order) (e : Engine sha256) : Prop :=
  ∀ k, Backing (e.markets.get? k.market) (e.orderReserves.get? k) (e.claimEscrows.get? k) (l k)

/-! ## Rules -/

section Rules

variable {reserves reserves' : OrdMap OrderKey OrderReserve} {risk risk' : RiskEngine}
  {records records' : OrdMap OrderKey ClaimOrderEscrow}
  {premium premium' locked locked' : OrdMap AccountMarket Amount}
  {asks asks' : OrdMap AskKey Amount}
  {ledger ledger' : Ledger} {withdrawals withdrawals' : OrdMap U64 Withdrawal}
  {markets markets' : OrdMap MarketId MarketMeta}
  {claims claims' : OrdMap AccountMarket (List Amount)}
  {K : MarketId → Prop} {S : AccountId → Prop} {d : AccountId → Int}
  {gap gap' : MarketId → U16 → Int} {r : ClaimOrderEscrow} {x y : Int} {m : MarketId}
  {info info' : MarketMeta} {k : OrderKey}

theorem Reserved.move (reserved : Reserved reserves risk) (moved : risk.Moved K risk' d S)
    (sum : ∀ a, reserves'.total (reserveAt a) = reserves.total (reserveAt a) + d a) :
    Reserved reserves' risk' := by
  intro a
  rw [moved.reserved, reserved, sum]

variable (aligned : Aligned ledger risk markets)
include aligned

theorem Aligned.moveRisk (moved : risk.Moved (fun m => (markets.get? m).isSome = true) risk' d S) :
    Aligned ledger risk' markets :=
  ⟨moved.size.trans aligned.size, moved.sound aligned.sound⟩

theorem Aligned.moveLedger (size : ledger'.accounts.length = ledger.accounts.length) :
    Aligned ledger' risk markets :=
  ⟨aligned.size.trans size.symm, aligned.sound⟩

theorem Aligned.purse {a : AccountId} {x : Account} (found : risk.slot a = some x) :
    ∃ q, ledger.purse a = some q := by
  have inside := slot_lt found
  rw [aligned.size] at inside
  exact ⟨_, getElem?_eq_getElem inside⟩

omit aligned

variable {delta : AccountId → Partition → Int}

/-- A move of the ledger, and what it asks of the records behind the partitions. -/
theorem Funded.move {gain : Int}
    (funded : Funded ledger withdrawals locked premium)
    (moved : ledger.Moved ledger' delta gain S)
    (supply : ledger'.totalSupply.val = ledger.totalSupply.val + gain)
    (reserved : ∀ a, withdrawals'.total (pendingAt a) =
      withdrawals.total (pendingAt a) + delta a .reserved)
    (lock : ∀ a, (columnSum locked' fun k => k.account = a) =
      (columnSum locked fun k => k.account = a) + delta a .locked)
    (escrowed : ∀ a, (columnSum premium' fun k => k.account = a) =
      (columnSum premium fun k => k.account = a) + delta a .escrowed) :
    Funded ledger' withdrawals' locked' premium' where
  nonneg := moved.nonneg funded.nonneg
  supply := by rw [supply, funded.supply, moved.worth]
  reserved a := by rw [moved.balance, funded.reserved, reserved]
  locked a := by rw [moved.balance, funded.locked, lock]
  escrowed a := by rw [moved.balance, funded.escrowed, escrowed]

/-- Cash that moves between partitions, with the minted sets and the premiums behind them. -/
theorem Funded.shift {k q : AccountMarket}
    (funded : Funded ledger withdrawals locked premium) (moved : ledger.Moved ledger' delta 0 S)
    (supply : ledger'.totalSupply = ledger.totalSupply) (minted : Raised locked locked' k x)
    (raised : Raised premium premium' q y) (reserved : ∀ a, delta a .reserved = 0)
    (lock : ∀ a, delta a .locked = if a = k.account then x else 0)
    (escrowed : ∀ a, delta a .escrowed = if a = q.account then y else 0) :
    Funded ledger' withdrawals locked' premium' := by
  refine funded.move moved (by rw [supply, add_zero]) (fun a => ?_) (fun a => ?_) fun a => ?_
  · rw [reserved, add_zero]
  · rw [minted.sum, lock]
    simp only [eq_comm]
  · rw [raised.sum, escrowed]
    simp only [eq_comm]

/-- A change of one record that the columns follow. -/
theorem Columned.change {o : Option ClaimOrderEscrow} {a : AccountId}
    (columned : Columned records premium asks) (changed : records.Changed records' k o)
    (old : ∀ r, records.get? k = some r → r.account = a)
    (new : ∀ r, o = some r → r.account = a ∧ r.WellFormed)
    (raised : Raised premium premium' ⟨a, k.market⟩ x)
    (raised' : Raised asks asks' ⟨a, k.market, k.instrument⟩ y)
    (positive : AllPositive premium → AllPositive premium')
    (positive' : AllPositive asks → AllPositive asks')
    (paid : x = weightOf (·.premium.val) o - weightOf (·.premium.val) (records.get? k))
    (given : y = weightOf (·.claims.val) o - weightOf (·.claims.val) (records.get? k)) :
    Columned records' premium' asks' where
  premiums j := by
    rw [raised.entry, columned.premiums, paid]
    refine (changed.total_at (fun _ _ => rfl) (fun r found => ?_) (fun r found => ?_) j).symm
    · rw [old r found]
    · rw [(new r found).1]
  asked j := by
    rw [raised'.entry, columned.asked, given]
    refine (changed.total_at (fun _ _ => rfl) (fun r found => ?_) (fun r found => ?_) j).symm
    · rw [old r found]
    · rw [(new r found).1]
  premiumPositive := positive columned.premiumPositive
  asksPositive := positive' columned.asksPositive
  shape j r found := by
    rw [changed] at found
    split_ifs at found
    · exact (new r found).2
    · exact columned.shape j r found

/-- A change of one reserve that the reservations follow. -/
theorem Reserved.change {o : Option OrderReserve} {a : AccountId}
    (reserved : Reserved reserves risk)
    (moved : risk.Moved K risk' (only a x) S) (changed : reserves.Changed reserves' k o)
    (old : ∀ r, reserves.get? k = some r → r.account = a) (new : ∀ r, o = some r → r.account = a)
    (amount : x = weightOf (·.reserved.val) o - weightOf (·.reserved.val) (reserves.get? k)) :
    Reserved reserves' risk' := by
  refine reserved.move moved fun b => ?_
  rw [amount]
  refine changed.total_at (fun j r => ?_) old new b
  rw [reserveAt]
  simp only [eq_comm]

/-- Nothing is raised by nothing, wherever it would be. -/
theorem Raised.zero {J : Type} [LinearOrder J] (c : OrdMap J Amount) (k : J) (none : x = 0) :
    Raised c c k x := none ▸ Raised.refl c k

/-! ### Claim sets -/

theorem ClaimMarketOf.unique (first : ClaimMarketOf markets m info)
    (second : ClaimMarketOf markets m info') : info = info' :=
  Option.some.inj (first.1.symm.trans second.1)

variable (conserved : Conserved gap markets claims asks locked)
include conserved

theorem Conserved.setClaims {a : AccountId} {v : List Amount}
    (market : ClaimMarketOf markets m info)
    (length : v.length = info.count.val) (nonneg : ∀ x ∈ v, 0 ≤ x.val)
    (change : ∀ i, i < info.count → gap' m i = gap m i +
      (held v i - weightOf (held · i) (claims.get? ⟨a, m⟩)))
    (elsewhere : ∀ n i, n ≠ m → gap' n i = gap n i) :
    Conserved gap' markets (claims.insert ⟨a, m⟩ v) asks locked where
  sets k' v' found := by
    rw [OrdMap.get?_insert] at found
    split_ifs at found with same
    · cases found
      rw [same]
      exact ⟨info, market, length, nonneg⟩
    · exact conserved.sets k' v' found
  __ := conserved
  conserved n info' market' i below := by
    have before := conserved.conserved n info' market' i below
    rw [claimSum_insert]
    by_cases same : m = n
    · subst same
      obtain rfl := market.unique market'
      have gaps := change i below
      rw [if_pos rfl]
      omega
    · rw [if_neg same, elsewhere n i fun h => same h.symm]
      omega

theorem Conserved.raiseAsks {k : AskKey} (market : ClaimMarketOf markets k.market info)
    (below : k.instrument < info.count) (raised : Raised asks asks' k y)
    (change : ∀ n i, gap' n i = gap n i + if n = k.market ∧ i = k.instrument then y else 0) :
    Conserved gap' markets claims asks' locked where
  __ := conserved
  asked k' x found := by
    by_cases same : k' = k
    · subst same
      exact ⟨info, market, below⟩
    · rw [raised.others k' same] at found
      exact conserved.asked k' x found
  conserved n info' market' i below' := by
    have before := conserved.conserved n info' market' i below'
    have gaps := change n i
    rw [raised.sum]
    split_ifs at gaps with here
    · rw [if_pos ⟨here.1.symm, here.2.symm⟩]
      omega
    · rw [if_neg fun h => here ⟨h.1.symm, h.2.symm⟩]
      omega

theorem Conserved.raiseLocked {k : AccountMarket} {z : Int}
    (market : ClaimMarketOf markets k.market info) (raised : Raised locked locked' k z)
    (nonneg : ∀ x, locked'.get? k = some x → 0 ≤ x.val)
    (change : ∀ n i, gap' n i = gap n i - if n = k.market then z else 0) :
    Conserved gap' markets claims asks locked' where
  __ := conserved
  minted k' x found := by
    by_cases same : k' = k
    · subst same
      exact ⟨nonneg x found, info, market⟩
    · rw [raised.others k' same] at found
      exact conserved.minted k' x found
  conserved n info' market' i below := by
    have before := conserved.conserved n info' market' i below
    have gaps := change n i
    rw [raised.sum]
    split_ifs at gaps with here
    · rw [if_pos here.symm]
      omega
    · rw [if_neg fun h => here h.symm]
      omega

omit conserved

/-- What the claim set of an account reads, before it is first stored as well. -/
theorem Conserved.claimEntry {sha256 : Sha256} {e : Engine sha256}
    (conserved : Conserved gap e.markets e.claims asks locked)
    (market : ClaimMarketOf e.markets m info) (a : AccountId) :
    (e.claimEntry a m info.count.val).length = info.count.val ∧
      (∀ x ∈ e.claimEntry a m info.count.val, 0 ≤ x.val) ∧
      ∀ i, weightOf (held · i) (e.claims.get? ⟨a, m⟩) =
      held (e.claimEntry a m info.count.val) i := by
  rw [Engine.claimEntry]
  cases found : e.claims.get? ⟨a, m⟩ with
  | none =>
    have padded : replicate info.count.val I128.zero ++
        replicate (info.count.val - (replicate info.count.val I128.zero).length)
          I128.zero = replicate info.count.val I128.zero := by
      rw [length_replicate, Nat.sub_self, replicate_zero, append_nil]
    simp only [getD_none, padded]
    refine ⟨length_replicate, fun x listed => ?_, fun i => ?_⟩
    · rw [eq_of_mem_replicate listed]
      exact le_rfl
    · rw [held, getElem?_replicate]
      split_ifs <;> rfl
  | some v =>
    obtain ⟨info', market', length, nonneg⟩ := conserved.sets _ v found
    obtain rfl := market.unique market'
    have padded : v ++ replicate (info.count.val - v.length) I128.zero = v := by
      rw [length, Nat.sub_self, replicate_zero, append_nil]
    simp only [getD_some, padded]
    exact ⟨length, nonneg, fun i => rfl⟩

/-- The relations read the type and the outcomes of a market, and nothing else. -/
def SameKinds (markets markets' : OrdMap MarketId MarketMeta) : Prop :=
  ∀ m, (markets'.get? m).map (fun i => (i.marketType, i.outcomes)) =
    (markets.get? m).map fun i => (i.marketType, i.outcomes)

theorem SameKinds.of_insert (found : markets.get? m = some info)
    (kind : info'.marketType = info.marketType) (outcomes : info'.outcomes = info.outcomes) :
    SameKinds markets (markets.insert m info') := by
  intro n
  rw [OrdMap.get?_insert]
  split_ifs with same
  · rw [same, found, map_some, map_some, kind, outcomes]
  · rfl

variable (same : SameKinds markets markets')
include same

theorem SameKinds.find (found : markets'.get? m = some info') : ∃ info, markets.get? m = some info ∧
      info.marketType = info'.marketType ∧ info.outcomes = info'.outcomes ∧
      info.count = info'.count := by
  have kinds := same m
  rw [found] at kinds
  obtain ⟨info, before, equal⟩ := map_eq_some_iff.1 kinds.symm
  rw [Prod.mk.injEq] at equal
  refine ⟨info, before, equal.1, equal.2, ?_⟩
  rw [MarketMeta.count, MarketMeta.count, equal.1, equal.2]

theorem SameKinds.symm : SameKinds markets' markets :=
  fun m => (same m).symm

theorem SameKinds.isSome (m : MarketId) : (markets'.get? m).isSome = (markets.get? m).isSome := by
  have kinds := congrArg Option.isSome (same m)
  rwa [isSome_map, isSome_map] at kinds

theorem SameKinds.claimMarket (market : ClaimMarketOf markets' m info') :
    ∃ info, ClaimMarketOf markets m info ∧ info.count = info'.count := by
  obtain ⟨info, found, kind, -, count⟩ := same.find market.1
  exact ⟨info, ⟨found, kind ▸ market.2⟩, count⟩

omit same

theorem Conserved.rekind (conserved : Conserved gap markets claims asks locked)
    (same : SameKinds markets markets') : Conserved gap markets' claims asks locked where
  sets k v found := by
    obtain ⟨info, market, length, nonneg⟩ := conserved.sets k v found
    obtain ⟨info', market', count⟩ := same.symm.claimMarket market
    exact ⟨info', market', count ▸ length, nonneg⟩
  asked k x found := by
    obtain ⟨info, market, below⟩ := conserved.asked k x found
    obtain ⟨info', market', count⟩ := same.symm.claimMarket market
    exact ⟨info', market', count ▸ below⟩
  minted k x found := by
    obtain ⟨nonneg, info, market⟩ := conserved.minted k x found
    obtain ⟨info', market', -⟩ := same.symm.claimMarket market
    exact ⟨nonneg, info', market'⟩
  conserved m info' market' i below := by
    obtain ⟨info, market, count⟩ := same.claimMarket market'
    exact conserved.conserved m info market i (count ▸ below)

theorem Aligned.rekind (aligned : Aligned ledger risk markets) (same : SameKinds markets markets') :
    Aligned ledger risk markets' := by
  have known : (fun m => (markets'.get? m).isSome = true) = fun m =>
      (markets.get? m).isSome = true := by
    funext m
    rw [same.isSome]
  exact ⟨aligned.size, known ▸ aligned.sound⟩

theorem Backing.rekind {info info' : Option MarketMeta} {reserve : Option OrderReserve}
    {record : Option ClaimOrderEscrow} {o : Option Order}
    (backing : Backing info reserve record o)
    (same : info'.map (fun i => (i.marketType, i.outcomes)) =
      info.map fun i => (i.marketType, i.outcomes)) : Backing info' reserve record o := by
  cases o with
  | none => exact backing
  | some o =>
    obtain ⟨priced, positive, market, rfl, sidecar⟩ := backing
    obtain ⟨market', rfl, equal⟩ := map_eq_some_iff.1 same
    rw [Prod.mk.injEq] at equal
    exact ⟨priced, positive, market', rfl, equal.1.symm ▸ sidecar⟩

end Rules

namespace Matched

variable {sha256 : Sha256} {e : Engine sha256} {S : AccountId → Prop}

theorem moveRisk (matched : Matched e) {risk : RiskEngine}
    (moved : e.risk.Moved e.known risk (fun _ => 0) S) : Matched { e with risk := risk } :=
  { matched with
    reserved := matched.reserved.move moved fun _ => (add_zero _).symm
    aligned := matched.aligned.moveRisk moved }

theorem rekind (matched : Matched e) {markets : OrdMap MarketId MarketMeta}
    (same : SameKinds e.markets markets) (free : FreeOfCharge markets) :
    Matched { e with markets := markets } :=
  { matched with
    conserved := matched.conserved.rekind same
    aligned := matched.aligned.rekind same
    free := free }

end Matched

theorem Backed.rekind {sha256 : Sha256} {e : Engine sha256}
    {l : OrderKey → Option Order} (backed : Backed l e) {markets : OrdMap MarketId MarketMeta}
    (same : SameKinds e.markets markets) : Backed l { e with markets := markets } :=
  fun k => (backed k).rekind (same k.market)

end Dexos.Execution
