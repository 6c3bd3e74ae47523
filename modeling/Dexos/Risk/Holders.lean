import Dexos.Risk.Accounts

/-!
# Positions and the holders index

A fill rewrites the position of one account in one market and keeps the index of the market's
holders in step. A mark move recomputes the holders it finds there.
-/

namespace Dexos.Risk

open Foundations Clob List Option

namespace RiskEngine

/-! ## Position lists -/

section Positions

variable {perp : List PerpPosition} {m : MarketId}

/-- Where a market's position is, or would go. -/
theorem positionSlot_spec (perp : List PerpPosition) (m : MarketId) :
    (positionSlot perp m).2.market = m ∧
      (perp[(positionSlot perp m).1]? = some (positionSlot perp m).2 ∨
        (positionSlot perp m).1 = perp.length ∧ ∀ p ∈ perp, p.market ≠ m) := by
  rw [positionSlot]
  cases found : perp.findIdx? fun p => p.market = m with
  | none =>
    refine ⟨rfl, .inr ⟨rfl, fun p listed same => ?_⟩⟩
    have absent := findIdx?_eq_none_iff.1 found p listed
    simp [same] at absent
  | some i =>
    obtain ⟨inside, here, -⟩ := findIdx?_eq_some_iff_getElem.1 found
    have stored : perp[i]? = some perp[i] := getElem?_eq_getElem inside
    simp only [stored, getD_some]
    exact ⟨of_decide_eq_true here, .inl trivial⟩

variable {i : Nat} {p : PerpPosition} {q : PerpPosition}

/-- The list after a fill, before a flat last position is dropped. -/
def filledIn (perp : List PerpPosition) (i : Nat) (p : PerpPosition) : List PerpPosition :=
  if i < perp.length then perp.set i p else perp ++ [p]

/-- Dropping a flat position takes it out of the end. -/
theorem putPosition_cases (perp : List PerpPosition) (i : Nat) (p : PerpPosition)
    (slot : i ≤ perp.length) :
    putPosition perp i p = filledIn perp i p ∨
      p.netQty.val = 0 ∧ filledIn perp i p = putPosition perp i p ++ [p] := by
  have unfold : putPosition perp i p =
      if p.isFlat && decide (i + 1 = (filledIn perp i p).length) then (filledIn perp i p).dropLast
      else filledIn perp i p := rfl
  rw [unfold]
  split_ifs with last
  · rw [Bool.and_eq_true, decide_eq_true_eq] at last
    refine .inr ⟨of_decide_eq_true last.1, ?_⟩
    have final : (filledIn perp i p).getLast? = some p := by
      rw [getLast?_eq_getElem?, ← last.2, Nat.add_sub_cancel, filledIn]
      split_ifs with inside
      · rw [getElem?_set_self inside]
      · obtain rfl : i = perp.length := le_antisymm slot (not_lt.1 inside)
        exact getElem?_concat_length
    exact (dropLast_append_getLast? p final).symm
  · exact .inl rfl

theorem mem_filledIn_self : p ∈ filledIn perp i p := by
  rw [filledIn]
  split_ifs with inside
  · exact mem_set inside p
  · exact mem_append_right _ mem_cons_self

/-- A position of another market stays in the list. -/
theorem mem_filledIn_of_ne (here : ∀ q, perp[i]? = some q → q.market = m)
    (listed : q ∈ perp) (other : q.market ≠ m) : q ∈ filledIn perp i p := by
  rw [filledIn]
  split_ifs with inside
  · obtain ⟨j, inside_j, rfl⟩ := getElem_of_mem listed
    have apart : i ≠ j := by
      rintro rfl
      exact other (here _ (getElem?_eq_getElem inside))
    refine mem_iff_getElem.2 ⟨j, by rwa [length_set], ?_⟩
    rw [getElem_set_ne apart]
  · exact mem_append_left _ listed

/-- The index is where a position of the market is, or would go. -/
structure PlaceFor (perp : List PerpPosition) (m : MarketId) (i : Nat) : Prop where
  le : i ≤ perp.length
  here : ∀ q, perp[i]? = some q → q.market = m
  absent : i = perp.length → ∀ q ∈ perp, q.market ≠ m

theorem positionSlot_place (perp : List PerpPosition) (m : MarketId) :
    PlaceFor perp m (positionSlot perp m).1 := by
  obtain ⟨market, stored | ⟨beyond, absent⟩⟩ := positionSlot_spec perp m
  · have inside := (List.getElem?_eq_some_iff.1 stored).1
    exact ⟨inside.le, by simp [stored, market], fun beyond => absurd beyond inside.ne⟩
  · exact ⟨beyond.le, by simp [beyond], fun _ => absent⟩

variable (market : p.market = m) (place : PlaceFor perp m i)
  (distinct : (perp.map PerpPosition.market).Nodup)
include market place distinct

theorem filledIn_markets : ((filledIn perp i p).map PerpPosition.market).Nodup := by
  rw [filledIn]
  split_ifs with inside
  · have same : (perp.set i p).map PerpPosition.market = perp.map PerpPosition.market := by
      apply ext_getElem?
      intro j
      rw [getElem?_map, getElem?_map]
      by_cases at_j : i = j
      · subst at_j
        have stored := getElem?_eq_getElem inside
        rw [getElem?_set_self inside, stored, map_some, map_some, market, place.here _ stored]
      · rw [getElem?_set_ne at_j]
    rwa [same]
  · rw [map_append, map_singleton, market]
    refine nodup_snoc.2 ⟨distinct, fun taken => ?_⟩
    obtain ⟨q, listed, same⟩ := mem_map.1 taken
    exact place.absent (le_antisymm place.le (not_lt.1 inside)) q listed same

omit market place distinct in
theorem of_mem_filledIn (listed : q ∈ filledIn perp i p) : q = p ∨ q ∈ perp := by
  rw [filledIn] at listed
  split_ifs at listed
  · exact (mem_or_eq_of_mem_set listed).symm
  · exact (mem_append.1 listed).symm.imp_left mem_singleton.1

theorem putPosition_spec : ((putPosition perp i p).map PerpPosition.market).Nodup ∧
      (p.netQty.val ≠ 0 → p ∈ putPosition perp i p) ∧
      (∀ q ∈ perp, q.market ≠ m → q ∈ putPosition perp i p) ∧
      ∀ q ∈ putPosition perp i p, q = p ∨ q ∈ perp := by
  have nodup := filledIn_markets market place distinct
  have self : p ∈ filledIn perp i p := mem_filledIn_self
  have others : ∀ q ∈ perp, q.market ≠ m → q ∈ filledIn perp i p := fun q listed other =>
    mem_filledIn_of_ne place.here listed other
  obtain kept | ⟨flat, dropped⟩ := putPosition_cases perp i p place.le
  · rw [kept]
    exact ⟨nodup, fun _ => self, others, fun q => of_mem_filledIn⟩
  · have only : ∀ q ∈ putPosition perp i p, q = p ∨ q ∈ perp := fun q listed =>
      of_mem_filledIn (dropped ▸ mem_append_left _ listed)
    rw [dropped] at nodup others
    refine ⟨?_, fun nonflat => absurd flat nonflat, fun q listed other => ?_, only⟩
    · rw [map_append] at nodup
      exact (nodup_append.1 nodup).1
    · obtain rest | last := mem_append.1 (others q listed other)
      · exact rest
      · rw [mem_singleton.1 last] at other
        exact absurd market other

end Positions

/-! ## The index -/

variable {K : MarketId → Prop} {r r' : RiskEngine} {account : AccountId} {a x : Account}
  {m : MarketId}

theorem growMarket_ok (done : r.growMarket m = .ok r') :
    r'.accounts = r.accounts ∧ r'.holders = r.holders ∧ m.val < r'.markets.length := by
  simp only [growMarket, ok_iff] at done
  obtain ⟨-, -, rfl⟩ := done
  refine ⟨rfl, ?_, ?_⟩
  · funext m'
    simp only [holders, market]
    by_cases inside : m'.val < r.markets.length
    · rw [getElem?_append_left inside]
    · rw [getElem?_append_right (not_lt.1 inside), getElem?_replicate,
        getElem?_eq_none_iff.2 (not_lt.1 inside)]
      split_ifs <;> rfl
  · simp only [length_append, length_replicate]
    omega

theorem holders_modifyMarket {f : MarketSlot → MarketSlot} (inside : m.val < r.markets.length)
    (m' : MarketId) : (r.modifyMarket m f).holders m' =
      if m' = m then ((r.market m).map fun s => (f s).holders).getD ∅ else r.holders m' := by
  simp only [holders, market, modifyMarket, getElem?_modify]
  by_cases same : m' = m
  · subst same
    simp [Option.map_map, Function.comp_def]
  · have apart : m.val ≠ m'.val := fun equal => same (Fin.ext equal.symm)
    simp only [if_neg same, if_neg apart, id_map']

theorem syncMarketHolder_ok {holds : Bool} (done : r.syncMarketHolder account m holds = .ok r') :
    r'.accounts = r.accounts ∧ ∀ m' b, (r'.holders m').get? b =
      if m' = m ∧ b = account then (if holds then some () else none)
      else (r.holders m').get? b := by
  simp only [syncMarketHolder, ok_iff] at done
  obtain ⟨grown, grew, rfl⟩ := done
  obtain ⟨accounts, index, inside⟩ := growMarket_ok grew
  refine ⟨accounts, fun m' b => ?_⟩
  rw [holders_modifyMarket inside, ← index]
  by_cases same : m' = m
  · subst same
    rw [if_pos rfl]
    have stored : grown.market m' = some grown.markets[m'.val] := getElem?_eq_getElem inside
    simp only [holders, stored, map_some, getD_some, true_and]
    cases holds with
    | true => simp only [if_true, OrdMap.get?_insert]
    | false => simp only [Bool.false_eq_true, if_false, OrdMap.get?_erase]
  · rw [if_neg same, if_neg fun both => same both.1]

variable {price : Price} {qty : Quantity} {collateral : Amount} {b : AccountId}

/-- A fill rewrites one position of one account and realizes its profit. -/
theorem fillIndex_cases (done : r.fillIndex account m qty price = .ok r') :
    ∃ a filled collateral synced cached, r.slot account = some a ∧
      (positionSlot a.perp m).2.applyFill qty price = .ok filled ∧
      collateral.val = a.collateral.val + filled.2.val ∧
      r.syncMarketHolder account m (!filled.1.isFlat) = .ok synced ∧ synced.computeColumns { a with
        collateral := collateral
        perp := putPosition a.perp (positionSlot a.perp m).1 filled.1 } = .ok cached ∧
      r' = synced.setSlot account { a with
        collateral := collateral
        perp := putPosition a.perp (positionSlot a.perp m).1 filled.1
        cached := cached } := by
  simp only [fillIndex, ok_iff, arith_eq_ok, Scalar.checkedAdd_eq_ok] at done
  obtain ⟨a, found, filled, applied, collateral, sum, synced, sync, done⟩ := done
  obtain ⟨cached, computed, rfl⟩ := store_eq_ok.1 done
  exact ⟨a, filled, collateral, synced, cached, found, applied, sum, sync, computed, rfl⟩

theorem fillIndex_slots (done : r.fillIndex account m qty price = .ok r') :
    ∃ a filled collateral cached, r.slot account = some a ∧
      (positionSlot a.perp m).2.applyFill qty price = .ok filled ∧ filled.1.market = m ∧
      r'.accounts.length = r.accounts.length ∧ (∀ b, r'.slot b = if b = account then some { a with
        collateral := collateral
        perp := putPosition a.perp (positionSlot a.perp m).1 filled.1
        cached := cached } else r.slot b) ∧
      ∀ m' b, (r'.holders m').get? b = if m' = m ∧ b = account then
        (if !filled.1.isFlat then some () else none) else (r.holders m').get? b := by
  obtain ⟨a, filled, collateral, synced, cached, found, applied, -, sync, -, rfl⟩ :=
    fillIndex_cases done
  obtain ⟨accounts, index⟩ := syncMarketHolder_ok sync
  have slots : ∀ b, synced.slot b = r.slot b := fun b => by rw [slot, slot, accounts]
  refine ⟨a, filled, collateral, cached, found, applied,
    (PerpPosition.applyFill_market applied).trans (positionSlot_spec a.perp m).1,
    length_set.trans (congrArg length accounts), fun b => ?_, index⟩
  rw [slot_setSlot ((slots account).trans found), slots]

theorem fillIndex_ok (known : K m) (done : r.fillIndex account m qty price = .ok r') :
    r.Moved K r' (fun _ => 0) (· = account) := by
  obtain ⟨a, filled, collateral, cached, found, applied, market, size, stored, index⟩ :=
    fillIndex_slots done
  refine ⟨size, fun b other => by rw [stored, if_neg other], fun b => ?_, fun b => ?_,
    fun sound => ?_⟩
  · rw [stored]
    by_cases same : b = account
    · rw [if_pos same, same, found, map_some, map_some]
    · rw [if_neg same]
  · rw [reserved, stored, add_zero, reserved]
    by_cases same : b = account
    · rw [if_pos same, same, found, weightOf_some, weightOf_some]
    · rw [if_neg same]
  · obtain ⟨nodup, self, others, all⟩ :=
      putPosition_spec market (positionSlot_place a.perp m) (sound.distinct account a found)
    refine sound.replace found stored rfl nodup (fun p listed => ?_) fun m' b held => ?_
    · obtain rfl | before := all p listed
      · rwa [market]
      · exact sound.known account a found p before
    · rw [index] at held
      rw [stored]
      by_cases same : b = account
      · subst same
        rw [if_pos rfl]
        by_cases here : m' = m
        · -- The index says that the filled position is open.
          rw [if_pos ⟨here, rfl⟩] at held
          split_ifs at held with nonflat
          have size : filled.1.netQty.val ≠ 0 := by simpa [PerpPosition.isFlat] using nonflat
          exact ⟨_, filled.1, rfl, self size, market.trans here.symm, size⟩
        · rw [if_neg fun both => here both.1] at held
          obtain ⟨y, p, at_b, listed, rfl, size⟩ := sound.holders m' b held
          rw [found] at at_b
          cases at_b
          exact ⟨_, p, rfl, others p listed here, rfl, size⟩
      · rw [if_neg fun both => same both.2] at held
        obtain ⟨y, p, at_b, rest⟩ := sound.holders m' b held
        exact ⟨y, p, by rw [if_neg same, at_b], rest⟩

theorem applyFill_ok (known : K m) (done : r.applyFill account m qty price = .ok r') :
    r.Moved K r' (fun _ => 0) (· = account) := by
  simp only [applyFill, bind_eq_ok] at done
  obtain ⟨-, -, done⟩ := done
  exact fillIndex_ok known done

/-! ## Marks -/

theorem recompute_ok (done : r.recompute account = .ok r') :
    r.Moved K r' (fun _ => 0) (· = account) ∧ r'.holders = r.holders := by
  rw [recompute] at done
  cases found : r.slot account with
  | none =>
    rw [found] at done
    cases done
    exact ⟨(Moved.refl r).restate (fun _ => rfl) fun _ h => h.elim, rfl⟩
  | some a =>
    rw [found] at done
    refine ⟨moved_store found rfl rfl rfl rfl done, ?_⟩
    obtain ⟨cached, -, rfl⟩ := store_eq_ok.1 done
    rfl

theorem recomputeHolders_ok (done : r.recomputeHolders m = .ok r') :
    (r.Moved K r' (fun _ => 0) fun b => (r.holders m).get? b = some ()) ∧
      r'.holders = r.holders := by
  refine foldlM_keeps (P := fun s => (r.Moved K s (fun _ => 0) fun b =>
    (r.holders m).get? b = some ()) ∧ s.holders = r.holders) ⟨?_, rfl⟩ ?_ done
  · exact (Moved.refl r).restate (fun _ => rfl) fun _ h => h.elim
  · rintro b listed s s' ⟨moved, kept⟩ step
    obtain ⟨⟨⟩, holds⟩ := OrdMap.mem_keys.1 listed
    obtain ⟨next, index⟩ := recompute_ok (K := K) step
    refine ⟨(moved.trans next).restate (fun _ => rfl) fun c touched => ?_, index.trans kept⟩
    obtain before | same := touched
    · exact before
    · rwa [same]

/-- A mark move touches the accounts that the index lists. -/
theorem setMarkPrice_ok (done : r.setMarkPrice m price = .ok r') :
    (r.Moved K r' (fun _ => 0) fun b => (r.holders m).get? b = some ()) ∧
      r'.holders = r.holders := by
  simp only [setMarkPrice, bind_eq_ok] at done
  obtain ⟨grown, grew, done⟩ := done
  obtain ⟨accounts, index, inside⟩ := growMarket_ok grew
  have kept : (grown.modifyMarket m fun s => { s with mark := some price }).holders =
      r.holders := by
    rw [← index]
    funext m'
    rw [holders_modifyMarket inside]
    split_ifs with same
    · rw [same]
      rfl
    · rfl
  have first : r.Moved K (grown.modifyMarket m fun s => { s with mark := some price }) (fun _ => 0)
      fun _ => False := moved_of_same accounts kept
  obtain ⟨second, same⟩ := recomputeHolders_ok (K := K) done
  rw [kept] at second same
  exact ⟨(first.trans second).restate (fun _ => rfl) fun _ touched => touched.resolve_left id, same⟩

/-- An account that the index lists has an open position. -/
theorem Sound.position (sound : r.Sound K) (listed : (r.holders m).get? b = some ()) :
    ∃ q, r.position b m = .ok q ∧ q.val ≠ 0 := by
  obtain ⟨x, p, here, held, same, open_⟩ := sound.holders m b listed
  have found : x.perp.find? (fun q => q.market = m) = some p := by
    cases lookup : x.perp.find? fun q => q.market = m with
    | none => exact absurd same (by simpa using find?_eq_none.1 lookup p held)
    | some q =>
      have market : q.market = m := by simpa using find?_some lookup
      rw [inj_on_of_nodup_map (sound.distinct b x here) (mem_of_find?_eq_some lookup) held
        (market.trans same.symm)]
  refine ⟨p.netQty, ?_, open_⟩
  rw [RiskEngine.position, read_eq_ok.2 ⟨here, sound.used b x here⟩, ok_bind, found]
  rfl

/-- Every slot up to an account's is counted. -/
theorem Sound.lt_accountCount (sound : r.Sound K) (inside : b.val < r.accounts.length) :
    b.val < r.accountCount := by
  have counted : (r.accounts.take (b.val + 1)).filter Account.used =
      r.accounts.take (b.val + 1) := by
    rw [filter_eq_self]
    intro x listed
    obtain ⟨i, below, rfl⟩ := getElem_of_mem listed
    rw [length_take] at below
    have small : i < 2 ^ 32 := by
      omega
    have stored : i < r.accounts.length := by omega
    rw [getElem_take]
    exact sound.used ⟨i, small⟩ _ (getElem?_eq_getElem stored)
  have fewer := ((take_sublist (b.val + 1) r.accounts).filter Account.used).length_le
  rw [counted, length_take] at fewer
  rw [RiskEngine.accountCount]
  omega

theorem Sound.mono {L : MarketId → Prop} (sound : r.Sound K) (more : ∀ m, K m → L m) : r.Sound L :=
  { sound with known := fun a x here p held => more _ (sound.known a x here p held) }

/-! ## Opening -/

theorem openAccount_ok (done : r.openAccount account collateral = .ok r')
    (next : account.val = r.accounts.length) :
    0 ≤ collateral.val ∧ r'.accounts.length = r.accounts.length + 1 ∧
      (∀ b, b ≠ account → r'.slot b = r.slot b) ∧
      (∃ x, r'.slot account = some x ∧ x.used = true ∧ x.isOpen = true ∧ x.perp = [] ∧
        x.reservedResting = I128.zero) ∧ r'.holders = r.holders := by
  simp only [openAccount, growAccounts, ok_iff] at done
  obtain ⟨-, positive, grown, ⟨-, -, rfl⟩, -, -, done⟩ := done
  obtain ⟨cached, -, rfl⟩ := store_eq_ok.1 done
  have one : account.val + 1 - r.accounts.length = 1 := by omega
  have size : (r.accounts ++ replicate (account.val + 1 - r.accounts.length)
      Account.unused).length = r.accounts.length + 1 := by
    rw [one, length_append, length_replicate]
  let grown : RiskEngine :=
    { r with
      accounts := r.accounts ++ replicate (account.val + 1 - r.accounts.length) Account.unused }
  have fresh : grown.slot account = some Account.unused := by
    rw [slot, next]
    change (r.accounts ++ replicate (account.val + 1 - r.accounts.length) Account.unused)[_]? = _
    rw [one]
    exact getElem?_concat_length
  have stored := slot_setSlot fresh
  refine ⟨positive, length_set.trans size, fun b other => ?_, ?_, rfl⟩
  · rw [stored, if_neg other, slot, slot]
    by_cases inside : b.val < r.accounts.length
    · rw [getElem?_append_left inside]
    · have beyond : b.val ≠ r.accounts.length := fun same => other (Fin.ext (same.trans next.symm))
      rw [getElem?_eq_none_iff.2 (not_lt.1 inside), getElem?_eq_none_iff.2]
      rw [size]
      omega
  · refine ⟨_, (stored _ account).trans (if_pos rfl), rfl, rfl, rfl, ?_⟩
    rw [fresh]
    rfl

theorem Sound.openAccount (sound : r.Sound K)
    (done : r.openAccount account collateral = .ok r') (next : account.val = r.accounts.length) :
    r'.Sound K ∧ ∀ b, r'.reserved b = r.reserved b := by
  obtain ⟨-, -, others, ⟨x, here, used, -, flat, nothing⟩, index⟩ := openAccount_ok done next
  have absent : r.slot account = none := by rw [slot, getElem?_eq_none_iff, next]
  refine ⟨⟨fun b y at_b => ?_, fun b y at_b => ?_, fun m b held => ?_, fun b y at_b => ?_⟩,
    fun b => ?_⟩
  · by_cases same : b = account
    · subst same
      rw [here] at at_b
      cases at_b
      exact used
    · exact sound.used b y (others b same ▸ at_b)
  · by_cases same : b = account
    · subst same
      rw [here] at at_b
      cases at_b
      rw [flat]
      exact nodup_nil
    · exact sound.distinct b y (others b same ▸ at_b)
  · rw [index] at held
    obtain ⟨y, p, at_b, rest⟩ := sound.holders m b held
    have other : b ≠ account := by
      rintro rfl
      simp [absent] at at_b
    exact ⟨y, p, (others b other).trans at_b, rest⟩
  · by_cases same : b = account
    · subst same
      rw [here] at at_b
      cases at_b
      rw [flat]
      exact fun p listed => absurd listed not_mem_nil
    · exact sound.known b y (others b same ▸ at_b)
  · rw [reserved, reserved]
    by_cases same : b = account
    · subst same
      rw [here, absent, weightOf_some, nothing]
      rfl
    · rw [others b same]

end RiskEngine

end Dexos.Risk
