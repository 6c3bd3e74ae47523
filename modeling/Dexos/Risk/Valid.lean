import Dexos.Risk.Exact
import Dexos.Risk.Operations

/-!
# Valid engines

What holds of every risk engine that public operations reach: exact caches, an exact index of
holders, normalized slots, and a liquidation queue of open accounts.
-/

namespace Dexos.Risk

open Foundations Clob List OrdMap

/-- The configurations that `RiskConfig::new` and `RiskConfig::with_capacities` accept. -/
structure RiskConfig.Valid (config : RiskConfig) : Prop where
  initial : 0 < config.initialMargin.val
  maintenance : 0 < config.maintenanceMargin.val
  leverage : 0 < config.maxLeverage.val
  ordered : config.maintenanceMargin.val ≤ config.initialMargin.val
  accounts : 0 < config.maxAccounts.val ∧ config.maxAccounts.val ≤ maxAccountCapacity
  markets : 0 < config.maxMarkets.val ∧ config.maxMarkets.val ≤ maxMarketCapacity

/-- A queue without duplicates, with the right membership. -/
structure LiquidationQueue.Valid (q : LiquidationQueue) : Prop where
  nodup : q.queue.Nodup
  present : ∀ a, q.present.get? a = some () ↔ a ∈ q.queue

variable {q : LiquidationQueue}

theorem LiquidationQueue.Valid.remove (valid : q.Valid) (account : AccountId) :
    (q.remove account).Valid ∧ ∀ b, b ∈ (q.remove account).queue ↔ b ≠ account ∧ b ∈ q.queue := by
  rw [LiquidationQueue.remove]
  split_ifs with queued
  · have left : ∀ b, b ∈ q.queue.erase account ↔ b ≠ account ∧ b ∈ q.queue := fun b =>
      valid.nodup.mem_erase_iff
    refine ⟨⟨valid.nodup.erase account, fun b => ?_⟩, left⟩
    rw [get?_erase, left, ← valid.present]
    split_ifs with same
    · simp [same]
    · simp [same]
  · have absent : account ∉ q.queue := by
      intro listed
      rw [← valid.present] at listed
      rw [OrdMap.contains, listed] at queued
      exact queued rfl
    refine ⟨valid, fun b => ⟨fun listed => ⟨?_, listed⟩, And.right⟩⟩
    rintro rfl
    exact absent listed

theorem LiquidationQueue.Valid.enqueue (valid : q.Valid) (account : AccountId) :
    (q.enqueue account).Valid ∧ ∀ b ∈ (q.enqueue account).queue, b = account ∨ b ∈ q.queue := by
  rw [LiquidationQueue.enqueue]
  split_ifs with queued
  · exact ⟨valid, fun b listed => .inr listed⟩
  · rw [Bool.not_eq_true, contains_eq_false] at queued
    have absent : account ∉ q.queue := by
      intro listed
      simp [(valid.present account).2 listed] at queued
    refine ⟨⟨?_, fun b => ?_⟩, fun b listed => ?_⟩
    · exact nodup_snoc.2 ⟨valid.nodup, absent⟩
    · rw [get?_insert, mem_append, ← valid.present]
      split_ifs with same
      · simp [same]
      · simp [same]
    · exact (mem_append.1 listed).symm.imp_left mem_singleton.1

theorem LiquidationQueue.Valid.pop (valid : q.Valid) :
    q.pop.Valid ∧ ∀ b ∈ q.pop.queue, b ∈ q.queue := by
  obtain ⟨queue, present⟩ := q
  cases queue with
  | nil => exact ⟨valid, fun b listed => listed⟩
  | cons account rest =>
    have distinct := nodup_cons.1 valid.nodup
    refine ⟨⟨distinct.2, fun b => ?_⟩, fun b listed => mem_cons_of_mem _ listed⟩
    have before := valid.present b
    change (present.erase account).get? b = some () ↔ b ∈ rest
    rw [get?_erase]
    split_ifs with same
    · simp [same, distinct.1]
    · rw [before, mem_cons]
      exact ⟨fun listed => listed.resolve_left same, .inr⟩

/-- A slot with normalized contents. -/
structure Account.Tidy (markets : Nat) (x : Account) : Prop where
  unused : x.used = false → x = Account.unused
  closed : x.isOpen = false → x.collateral = I128.zero ∧ x.perp = [] ∧ x.payout = [] ∧
    x.cached = CachedColumns.zero ∧ x.reservedResting = I128.zero
  reserved : 0 ≤ x.reservedResting.val
  listed : ∀ p ∈ x.perp, p.market.val < markets

namespace RiskEngine

variable {r r' : RiskEngine} {account b : AccountId} {a x : Account} {m : MarketId} {price : Price}

/-- Everything but the exactness of the columns. -/
structure Formed (r : RiskEngine) : Prop where
  config : r.config.Valid
  indexed : r.Indexed
  tidy : ∀ b x, r.slot b = some x → x.Tidy r.markets.length
  accountsFit : r.accounts.length ≤ r.maxAccounts
  marketsFit : r.markets.length ≤ r.maxMarkets
  capped : ∀ s ∈ r.markets, ∀ cap ∈ s.marketLimit, 0 ≤ cap.val
  portfolio : ∀ cap ∈ r.portfolioLimit, 0 ≤ cap.val
  insurance : 0 ≤ r.insurance.val
  socialized : 0 ≤ r.socializedTotal.val
  queue : r.liqQueue.Valid
  queued : ∀ b ∈ r.liqQueue.queue, r.openAt b = true

structure Valid (r : RiskEngine) : Prop where
  formed : r.Formed
  exact : r.Exact

theorem new_valid {config : RiskConfig} (valid : config.Valid) : (new config).Valid where
  exact := new_exact config
  formed := {
    config := valid
    indexed := new_indexed config
    tidy := by rintro b x ⟨⟩
    accountsFit := Nat.zero_le _
    marketsFit := Nat.zero_le _
    capped := by rintro s ⟨⟩
    portfolio := by rintro cap ⟨⟩
    insurance := le_rfl
    socialized := le_rfl
    queue := ⟨nodup_nil, fun a => ⟨by rintro ⟨⟩, by rintro ⟨⟩⟩⟩
    queued := by rintro b ⟨⟩ }

/-! ## Slots -/

theorem Formed.setSlot (formed : r.Formed) (found : r.slot account = some x)
    (isOpen : a.isOpen = x.isOpen)
    (used : a.used = x.used) (perp : a.perp = x.perp) (tidy : a.Tidy r.markets.length) :
    (r.setSlot account a).Formed := by
  have still : r.Still (r.setSlot account a) := .setSlot found perp isOpen used
  refine { formed with
    indexed := still.indexed formed.indexed
    tidy := fun b y at_b => ?_
    accountsFit := still.size ▸ formed.accountsFit
    queued := fun b listed => (still.opened b).trans (formed.queued b listed) }
  rw [slot_setSlot found] at at_b
  split_ifs at at_b with same
  · cases at_b
    exact tidy
  · exact formed.tidy b y at_b

/-- An open account is tidy when its reservation is not negative. -/
theorem tidy_of_open {n : Nat} (isOpen : a.isOpen = true) (used : a.used = true)
    (reserved : 0 ≤ a.reservedResting.val)
    (listed : ∀ p ∈ a.perp, p.market.val < n) : a.Tidy n where
  unused none := absurd (used.symm.trans none) Bool.noConfusion
  closed none := absurd (isOpen.symm.trans none) Bool.noConfusion
  reserved := reserved
  listed := listed

theorem Formed.used (formed : r.Formed) (found : r.slot account = some x)
    (isOpen : x.isOpen = true) : x.used = true := by
  rw [← usedAt_eq found]
  exact formed.indexed.used account ((openAt_eq found).trans isOpen)

theorem Quiet.formed (done : Quiet r r') (formed : r.Formed) : r'.Formed := by
  have still := done.still
  cases done with
  | none => exact formed
  | @stored _ account a x found opened perp isOpen used reserved stored =>
    obtain ⟨cached, -, rfl⟩ := store_eq_ok.1 stored
    have before := formed.tidy account x found
    refine formed.setSlot (a := { a with cached := cached }) found isOpen used perp ?_
    exact tidy_of_open (isOpen.trans opened) (used.trans (formed.used found opened))
      (reserved ▸ before.reserved) (perp ▸ before.listed)
  | @reserved account x amount found opened kept =>
    have before := formed.tidy account x found
    have used := formed.used found opened
    refine formed.setSlot (a := { x with reservedResting := amount }) found rfl rfl rfl ?_
    exact tidy_of_open opened used (kept before.reserved) before.listed
  | funded fund total =>
    exact { formed with
      indexed := still.indexed formed.indexed
      insurance := fund formed.insurance
      socialized := total formed.socialized }

/-- Recomputed columns keep a slot tidy: those of a slot without contents are zero. -/
theorem Tidy.recomputed {n : Nat} {cached : CachedColumns} (before : x.Tidy n)
    (computed : r.computeColumns x = .ok cached) :
    ({ x with cached := cached } : Account).Tidy n := by
  refine ⟨fun none => ?_, fun closed => ?_, before.reserved, before.listed⟩
  · have same := before.unused none
    rw [same, empty_columns r rfl rfl rfl] at computed
    cases computed
    rw [same]
    rfl
  · obtain ⟨collateral, perp, payout, -, reserved⟩ := before.closed closed
    rw [empty_columns r collateral perp payout] at computed
    cases computed
    exact ⟨collateral, perp, payout, rfl, reserved⟩

theorem Formed.recompute (formed : r.Formed) (done : r.recompute account = .ok r') : r'.Formed := by
  rw [RiskEngine.recompute] at done
  cases found : r.slot account with
  | none =>
    rw [found] at done
    cases done
    exact formed
  | some x =>
    rw [found] at done
    obtain ⟨cached, computed, rfl⟩ := store_eq_ok.1 done
    apply formed.setSlot (a := { x with cached := cached }) found rfl rfl rfl
    exact Tidy.recomputed (formed.tidy account x found) computed

/-! ## Markets -/

theorem growMarket_eq_ok : r.growMarket m = .ok r' ↔ m.val < r.maxMarkets ∧
    r' = { r with markets :=
      r.markets ++ List.replicate (m.val + 1 - r.markets.length) MarketSlot.unused } := by
  simp only [growMarket, ok_iff]
  constructor
  · rintro ⟨-, below, rfl⟩
    exact ⟨below, rfl⟩
  · rintro ⟨below, rfl⟩
    exact ⟨(), below, rfl⟩

theorem Formed.growMarket (formed : r.Formed) (done : r.growMarket m = .ok r') : r'.Formed := by
  obtain ⟨accounts, index, -⟩ := growMarket_ok done
  obtain ⟨below, rfl⟩ := growMarket_eq_ok.1 done
  have fits := formed.marketsFit
  refine { formed with
    indexed :=
      formed.indexed.congr formed.indexed.fits (fun _ => rfl) (congrFun index) (fun _ => id)
      formed.indexed.used
    tidy := fun b x found => ?_
    marketsFit := ?_
    capped := fun s listed => ?_ }
  · have before := formed.tidy b x found
    refine ⟨before.unused, before.closed, before.reserved, fun p held => ?_⟩
    have inside := before.listed p held
    rw [length_append]
    omega
  · change (r.markets ++ _).length ≤ r.maxMarkets
    rw [length_append, length_replicate]
    omega
  · obtain old | new := mem_append.1 listed
    · exact formed.capped s old
    · rw [(mem_replicate.1 new).2]
      rintro cap ⟨⟩

/-- What stands in a list after one entry was rewritten. -/
theorem mem_modify {α : Type} {l : List α} {i : Nat} {f : α → α} {s : α}
    (listed : s ∈ l.modify i f) : s ∈ l ∨ ∃ s' ∈ l, s = f s' := by
  obtain ⟨j, at_j⟩ := mem_iff_getElem?.1 listed
  rw [getElem?_modify, Option.map_eq_map, Option.map_eq_some_iff] at at_j
  obtain ⟨s', stored, same⟩ := at_j
  have before := mem_of_getElem? stored
  split_ifs at same
  · exact .inr ⟨s', before, same.symm⟩
  · exact .inl (same ▸ before)

theorem Formed.modifyMarket {f : MarketSlot → MarketSlot} (formed : r.Formed)
    (holders : ∀ s, (f s).holders = s.holders)
    (capped : ∀ s, (∀ cap ∈ s.marketLimit, 0 ≤ cap.val) → ∀ cap ∈ (f s).marketLimit, 0 ≤ cap.val)
    (m : MarketId) : (r.modifyMarket m f).Formed := by
  have index : ∀ n, (r.modifyMarket m f).holders n = r.holders n := by
    intro n
    simp only [RiskEngine.holders, market, RiskEngine.modifyMarket, getElem?_modify]
    cases r.markets[n.val]? with
    | none => rfl
    | some s =>
      split_ifs
      · simp [holders s]
      · rfl
  have size : (r.modifyMarket m f).markets.length = r.markets.length := length_modify ..
  refine { formed with
    indexed :=
      formed.indexed.congr formed.indexed.fits (fun _ => rfl) index (fun _ => id)
      formed.indexed.used
    tidy := fun b x found => ?_
    marketsFit := size ▸ formed.marketsFit
    capped := fun s listed => ?_ }
  · rw [size]
    exact formed.tidy b x found
  · obtain before | ⟨s', before, rfl⟩ := mem_modify listed
    · exact formed.capped s before
    · exact capped s' (formed.capped s' before)

/-! ## Fills -/

/-- The positions after a fill are the filled one and positions from before. -/
theorem of_mem_putPosition_slot {perp : List PerpPosition} {p q : PerpPosition}
    (held : q ∈ putPosition perp (positionSlot perp m).1 p) : q = p ∨ q ∈ perp := by
  obtain kept | ⟨-, dropped⟩ := putPosition_cases perp _ p (positionSlot_place perp m).le
  · exact of_mem_filledIn (kept ▸ held)
  · apply of_mem_filledIn
    rw [dropped]
    exact mem_append_left _ held

theorem Formed.fill {qty : Quantity} (formed : r.Formed) (isOpen : r.openAt account = true)
    (done : r.fillIndex account m qty price = .ok r') :
    r'.Formed ∧ ∀ b, r'.openAt b = r.openAt b := by
  obtain ⟨indexed, opened, -⟩ := formed.indexed.fill isOpen done
  refine ⟨?_, opened⟩
  obtain ⟨x, filled, collateral, synced, cached, found, applied, -, sync, -, rfl⟩ :=
    fillIndex_cases done
  simp only [syncMarketHolder, ok_iff] at sync
  obtain ⟨grown, grew, rfl⟩ := sync
  have larger := formed.growMarket grew
  have inside := (growMarket_ok grew).2.2
  have found' : (grown.modifyMarket m fun s => { s with
      holders :=
        if !filled.1.isFlat then s.holders.insert account () else s.holders.erase account }).slot
      account = some x := by
    rw [← found]
    exact congrArg (·[account.val]?) (growMarket_ok grew).1
  have size : (grown.modifyMarket m fun s => { s with
      holders := if !filled.1.isFlat then s.holders.insert account () else s.holders.erase account
      }).markets.length = grown.markets.length := length_modify ..
  refine { larger with
    indexed := indexed
    tidy := fun b y at_b => ?_
    accountsFit := length_set.trans_le larger.accountsFit
    marketsFit := size ▸ larger.marketsFit
    capped := fun s listed => ?_
    queued := fun b listed => ?_ }
  · rw [slot_setSlot found'] at at_b
    change y.Tidy (grown.modifyMarket m _).markets.length
    rw [size]
    by_cases same : b = account
    · rw [if_pos same] at at_b
      cases at_b
      have before := larger.tidy account x found'
      have open' : x.isOpen = true := (openAt_eq found).symm.trans isOpen
      have used : x.used = true := (usedAt_eq found).symm.trans (formed.indexed.used account isOpen)
      refine tidy_of_open open' used before.reserved fun p held => ?_
      obtain rfl | old := of_mem_putPosition_slot held
      · rw [PerpPosition.applyFill_market applied, (positionSlot_spec x.perp m).1]
        exact inside
      · exact before.listed p old
    · rw [if_neg same] at at_b
      exact larger.tidy b y at_b
  · obtain before | ⟨s', before, rfl⟩ := mem_modify listed
    · exact larger.capped s before
    · exact larger.capped s' before
  · rw [opened]
    obtain ⟨-, rfl⟩ := growMarket_eq_ok.1 grew
    exact formed.queued b listed

/-! ## Opening accounts and moving marks -/

theorem Formed.openAccount {collateral : Amount} (formed : r.Formed)
    (done : r.openAccount account collateral = .ok r') : r'.Formed := by
  have indexed := (openAccount_indexed formed.indexed done).1
  simp only [RiskEngine.openAccount, ok_iff] at done
  obtain ⟨-, -, grown, grew, -, unused, stored⟩ := done
  obtain ⟨below, size, slots, ⟨x, found⟩, -, -⟩ := growAccounts_ok grew
  rw [found] at unused stored
  simp only [growAccounts, ok_iff] at grew
  obtain ⟨-, -, rfl⟩ := grew
  obtain ⟨cached, -, rfl⟩ := store_eq_ok.1 stored
  have fresh : x = Account.unused := by
    obtain same | ⟨-, new⟩ := slots account
    · exact (formed.tidy account x (same.symm.trans found)).unused unused
    · exact Option.some.inj (found.symm.trans new)
  subst fresh
  have fits := formed.accountsFit
  have bound : max r.accounts.length (account.val + 1) ≤ r.maxAccounts := by omega
  refine { formed with
    indexed := indexed
    tidy := fun b y at_b => ?_
    accountsFit := length_set.trans_le (size.trans_le bound)
    queued := fun b listed => ?_ }
  · rw [slot_setSlot found] at at_b
    split_ifs at at_b with same
    · cases at_b
      exact tidy_of_open rfl rfl le_rfl fun p held => absurd held not_mem_nil
    · obtain old | ⟨-, new⟩ := slots b
      · exact formed.tidy b y (old.symm.trans at_b)
      · rw [new] at at_b
        cases at_b
        exact ⟨fun _ => rfl, fun _ => ⟨rfl, rfl, rfl, rfl, rfl⟩, le_rfl,
          fun p held => absurd held not_mem_nil⟩
  · have isOpen := formed.queued b listed
    rw [openAt, slot_setSlot found]
    split_ifs
    · rfl
    · obtain old | ⟨none, -⟩ := slots b
      · rwa [old]
      · simp [openAt, none] at isOpen

theorem Formed.setMarkPrice (formed : r.Formed)
    (done : r.setMarkPrice m price = .ok r') : r'.Formed := by
  simp only [RiskEngine.setMarkPrice, bind_eq_ok] at done
  obtain ⟨grown, grew, refreshed⟩ := done
  have marked : (grown.modifyMarket m fun s => { s with mark := some price }).Formed := by
    apply (formed.growMarket grew).modifyMarket
    · exact fun s => rfl
    · exact fun s capped => capped
  refine foldlM_keeps (P := Formed) marked ?_ refreshed
  exact fun b _ s s' so_far step => so_far.recompute step

/-! ## Liquidation -/

variable {victim : AccountId}

theorem leaveMarkets_length (r : RiskEngine) (victim : AccountId) :
    (r.leaveMarkets victim).markets.length = r.markets.length := length_map ..

theorem Formed.closeAccount (formed : r.Formed) (isOpen : r.openAt victim = true)
    (done : r.closeAccount victim = .ok r') : r'.Formed := by
  have indexed := (closeAccount_indexed formed.indexed done).1
  have used := formed.indexed.used victim isOpen
  obtain ⟨x, a, found, used', closed, perp, payout, collateral, reserved, columns, rfl⟩ :=
    closeAccount_cases done
  rw [usedAt_eq found] at used
  have found' : (r.leaveMarkets victim).slot victim = some x := found
  have normal : a.cached = CachedColumns.zero := by
    rw [empty_columns _ collateral perp payout] at columns
    exact (Except.ok.inj columns).symm
  obtain ⟨queue, left⟩ := formed.queue.remove victim
  refine { formed with
    indexed := indexed
    tidy := fun b y at_b => ?_
    accountsFit := length_set.trans_le formed.accountsFit
    marketsFit := (leaveMarkets_length r victim).trans_le formed.marketsFit
    capped := fun s listed => ?_
    queue := queue
    queued := fun b listed => ?_ }
  · change ((r.leaveMarkets victim).setSlot victim a).slot b = some y at at_b
    change y.Tidy (r.leaveMarkets victim).markets.length
    rw [slot_setSlot found'] at at_b
    rw [leaveMarkets_length]
    split_ifs at at_b with same
    · cases at_b
      refine ⟨fun none => ?_, fun _ => ⟨collateral, perp, payout, normal, reserved⟩, ?_, ?_⟩
      · simp [used', used] at none
      · rw [reserved]
        exact le_rfl
      · rw [perp]
        exact fun p held => absurd held not_mem_nil
    · exact formed.tidy b y at_b
  · obtain ⟨s', before, rfl⟩ := mem_map.1 listed
    exact formed.capped s' before
  · obtain ⟨other, before⟩ := (left b).1 listed
    change ((r.leaveMarkets victim).setSlot victim a).openAt b = true
    rw [openAt, slot_setSlot found', if_neg other]
    exact formed.queued b before

theorem Turns.formed (turns : Turns r r') (formed : r.Formed) : r'.Formed := by
  induction turns with
  | refl => exact formed
  | tail _ last ih =>
    cases last with
    | quiet done => exact done.formed ih
    | filled isOpen done => exact (ih.fill isOpen done).1

theorem Formed.liquidate {out : LiquidationOutcome} (formed : r.Formed)
    (done : r.liquidate victim = .ok (r', out)) : r'.Formed := by
  obtain ⟨mid, turns, isOpen, closed⟩ := liquidate_turns done
  exact (turns.formed formed).closeAccount isOpen closed

end RiskEngine

end Dexos.Risk
