import Mathlib.Algebra.BigOperators.Fin
import Mathlib.Algebra.Order.BigOperators.Group.Finset
import Dexos.Risk.Index

/-!
# Open interest

The holdings of a market sum to zero: fills come in opposite pairs, and a liquidation hands the
whole position of its victim to counterparties that hold the other side. Since the holdings sum
to zero and the index lists every holder, there are always enough of them.
-/

namespace Dexos.Risk

open Foundations Clob List

namespace RiskEngine

variable {r r' : RiskEngine} {m : MarketId} {victim : AccountId} {q : Int} {fills : List AdlFill}
  {mark : Price} {victimQty : Quantity} {A : Type} {f : AdlFill} {legs : List PerpPosition}
  {leg : PerpPosition} {s s' : RiskEngine × List AdlFill} {before : List AdlFill}
  {candidates : List Candidate} {b : AccountId}

/-! ## Sums over the slab -/

/-- The sum of all signed positions of a market. -/
def openInterest (r : RiskEngine) (m : MarketId) : Int :=
  (r.accounts.map fun a => holdingOf a.perp m).sum

theorem sum_map_eq_sum_range (w : A → Int) (l : List A) :
    (l.map w).sum = ∑ i ∈ Finset.range l.length, weightOf w l[i]? := by
  induction l with
  | nil => rfl
  | cons a rest ih =>
    rw [map_cons, sum_cons, ih, length_cons, Finset.sum_range_succ', add_comm]
    rfl

theorem sum_bump [Fintype A] [DecidableEq A] {f g : A → Int} {a : A}
    (changed : ∀ b, g b = f b + if b = a then q else 0) : ∑ b, g b = (∑ b, f b) + q := by
  rw [Finset.sum_congr rfl fun b _ => changed b, Finset.sum_add_distrib, Finset.sum_ite_eq',
    if_pos (Finset.mem_univ a)]

/-- When terms sum to zero, the negative ones outweigh every single one. -/
theorem le_sum_opposite [Fintype A] {f : A → Int} (zero : ∑ b, f b = 0) (a : A) :
    f a ≤ ∑ b, max 0 (-f b) := by
  calc f a ≤ max 0 (f a) := le_max_right _ _
    _ ≤ ∑ b, max 0 (f b) :=
      Finset.single_le_sum (fun b _ => le_max_left 0 (f b)) (Finset.mem_univ a)
    _ = ∑ b, (f b + max 0 (-f b)) := by
      apply Finset.sum_congr rfl
      omega
    _ = ∑ b, max 0 (-f b) := by rw [Finset.sum_add_distrib, zero, zero_add]

/-- A sum over the slab is a sum over all accounts. -/
theorem sum_slots (fits : r.accounts.length ≤ 2 ^ 32) (w : Account → Int) :
    (r.accounts.map w).sum = ∑ b : AccountId, weightOf w (r.slot b) := by
  rw [sum_map_eq_sum_range]
  refine Eq.trans ?_ (Finset.sum_range fun i => weightOf w r.accounts[i]?)
  apply Finset.sum_subset (Finset.range_mono fits)
  intro i _ beyond
  rw [Finset.mem_range, not_lt] at beyond
  rw [getElem?_eq_none beyond]
  rfl

theorem holding_eq_weightOf (b : AccountId) (m : MarketId) :
    r.holding b m = weightOf (fun a => holdingOf a.perp m) (r.slot b) := by
  rw [holding, perpOf]
  cases r.slot b <;> rfl

theorem openInterest_eq (fits : r.accounts.length ≤ 2 ^ 32) (m : MarketId) :
    r.openInterest m = ∑ b : AccountId, r.holding b m := by
  rw [openInterest, sum_slots fits]
  exact Finset.sum_congr rfl fun b _ => (holding_eq_weightOf b m).symm

/-- The holdings of every market sum to zero. -/
def Balanced (r : RiskEngine) : Prop := ∀ m, ∑ b : AccountId, r.holding b m = 0

/-- Filling one account moves the sum of its market. -/
theorem sum_holding_fill {account : AccountId} {n : MarketId}
    (moved : ∀ b k, r'.holding b k = r.holding b k + if b = account ∧ k = m then q else 0) :
    ∑ b : AccountId,
      r'.holding b n = (∑ b : AccountId, r.holding b n) + if n = m then q else 0 := by
  apply sum_bump
  intro b
  rw [moved, ite_and]

/-! ## Counterparties -/

/-- The direction of a position: one for a long, minus one for a short. -/
def direction (q : Int) : Int := if 0 < q then 1 else -1

theorem direction_mul_self (q : Int) : direction q * q = |q| := by
  rw [direction]
  split_ifs with long
  · rw [abs_of_pos long, one_mul]
  · rw [abs_of_nonpos (not_lt.1 long), neg_one_mul]

theorem direction_cases (q : Int) : (direction q = 1 ∧ 0 < q) ∨ (direction q = -1 ∧ q ≤ 0) := by
  rw [direction]
  split_ifs with long
  · exact .inl ⟨rfl, long⟩
  · exact .inr ⟨rfl, not_lt.1 long⟩

/-- What an account can take over from a position in a direction. -/
def capacity (r : RiskEngine) (m : MarketId) (d : Int) (b : AccountId) : Int :=
  max 0 (-d * r.holding b m)

/-- A holder is a candidate exactly for what it can take over. -/
theorem candidateOf_ok {y : Option Candidate} (indexed : r.Indexed)
    (whole : r.holding victim m = victimQty.val)
    (done : r.candidateOf victim victimQty m mark b = .ok y) :
    (y = none ∧ r.capacity m (direction victimQty.val) b = 0) ∨
      ∃ c, y = some c ∧ c.account = b ∧ b ≠ victim ∧ r.openAt b = true ∧
        r.holding b m = c.quantity.val ∧ direction victimQty.val * c.quantity.val ≤ 0 ∧
        |c.quantity.val| = r.capacity m (direction victimQty.val) b := by
  have nothing : 0 ≤ direction victimQty.val * r.holding b m →
      r.capacity m (direction victimQty.val) b = 0 := by
    rw [capacity, neg_mul]
    omega
  rw [candidateOf] at done
  cases found : r.slot b with
  | none =>
    rw [found] at done
    cases done
    refine .inl ⟨rfl, nothing ?_⟩
    rw [holding, perpOf, found]
    simp [holdingOf]
  | some a =>
    rw [found] at done
    dsimp only at done
    split_ifs at done with skipped
    · cases done
      refine .inl ⟨rfl, nothing ?_⟩
      obtain rfl | closed := skipped
      · rw [whole, direction_mul_self]
        exact abs_nonneg _
      · have flat : r.perpOf b = [] := by
          by_contra held
          have isOpen := indexed.opened b held
          simp [openAt_eq found, closed] at isOpen
        rw [holding, flat]
        simp [holdingOf]
    · rw [not_or, Bool.not_eq_false] at skipped
      simp only [ok_iff] at done
      obtain ⟨leg, read, rfl⟩ := done
      have isOpen := (openAt_eq found).trans skipped.2
      have held := holding_eq found m
      rw [holdingOf] at held
      rw [marketLeg] at read
      cases position : a.perp.find? fun p => p.market = m with
      | none =>
        rw [position] at read held
        cases read
        refine .inl ⟨rfl, nothing ?_⟩
        rw [held]
        simp
      | some p =>
        simp only [position, ok_iff] at read
        obtain ⟨profit, -, rfl⟩ := read
        rw [position] at held
        change r.holding b m = p.netQty.val at held
        rw [capacity, held] at nothing ⊢
        rw [Option.bind_some]
        have side := direction_cases victimQty.val
        split_ifs with same <;> dsimp only at same
        · refine .inl ⟨rfl, nothing ?_⟩
          obtain ⟨d, sign⟩ | ⟨d, sign⟩ := side <;> rw [d] <;> omega
        · refine .inr ⟨_, rfl, rfl, skipped.1, isOpen, rfl, ?_⟩
          dsimp only
          obtain ⟨d, long⟩ | ⟨d, short⟩ := side
          · rw [d, abs_of_nonpos (by omega)]
            omega
          · rw [d, abs_of_nonneg (by omega)]
            omega

/-- A candidate as the ranking of a leg finds it. -/
structure Counterparty (r : RiskEngine) (victim : AccountId) (m : MarketId) (d : Int)
    (c : Candidate) : Prop where
  other : c.account ≠ victim
  isOpen : r.openAt c.account = true
  holds : r.holding c.account m = c.quantity.val
  opposite : d * c.quantity.val ≤ 0

theorem candidates_ok {holders : List AccountId} {found : List (Option Candidate)}
    (indexed : r.Indexed) (whole : r.holding victim m = victimQty.val)
    (collected : List.Forall₂ (fun b y => r.candidateOf victim victimQty m mark b = .ok y)
      holders found) : List.Sublist ((found.filterMap id).map Candidate.account) holders ∧
      (∀ c ∈ found.filterMap id, r.Counterparty victim m (direction victimQty.val) c) ∧
      ((found.filterMap id).map fun c => |c.quantity.val|).sum =
        (holders.map (r.capacity m (direction victimQty.val))).sum := by
  induction collected with
  | nil => exact ⟨.slnil, by simp, rfl⟩
  | @cons b y holders found done rest ih =>
    obtain ⟨sub, all, sum⟩ := ih
    rw [map_cons, sum_cons, ← sum]
    obtain ⟨rfl, nothing⟩ | ⟨c, rfl, rfl, other, isOpen, holds, opposite, size⟩ :=
      candidateOf_ok indexed whole done
    · rw [nothing, zero_add]
      exact ⟨sub.cons _, all, rfl⟩
    · rw [← size]
      exact ⟨sub.cons_cons _, forall_mem_cons.2 ⟨⟨other, isOpen, holds, opposite⟩, all⟩, rfl⟩

/-- The ranking lists each counterparty once, and together they can take over all that the
holders of the other side hold. -/
theorem ranked_ok (indexed : r.Indexed) (whole : r.holding victim m = victimQty.val)
    (done : r.ranked victim victimQty m mark = .ok candidates) :
    (candidates.map Candidate.account).Nodup ∧
      (∀ c ∈ candidates, r.Counterparty victim m (direction victimQty.val) c) ∧
      (candidates.map fun c => |c.quantity.val|).sum =
        ∑ b : AccountId, r.capacity m (direction victimQty.val) b := by
  simp only [ranked, ok_iff, mapM_eq_ok] at done
  obtain ⟨found, collected, rfl⟩ := done
  have sorted := perm_insertionSort Candidate.before (found.filterMap id)
  obtain ⟨sub, all, sum⟩ := candidates_ok indexed whole collected
  refine ⟨?_, fun c listed => all c (sorted.mem_iff.1 listed), ?_⟩
  · exact (sorted.map _).nodup_iff.2 (sub.nodup (OrdMap.keys_nodup _))
  · rw [(sorted.map _).sum_eq, sum, ← sum_toFinset _ (OrdMap.keys_nodup _)]
    apply Finset.sum_subset (Finset.subset_univ _)
    intro b _ absent
    have flat : r.holding b m = 0 := by
      by_contra held
      apply absent
      rw [mem_toFinset, OrdMap.mem_keys]
      exact ⟨(), (indexed.exact m b).2 held⟩
    rw [capacity, flat]
    simp

/-- When the holdings sum to zero, the other side holds at least as much as any account. -/
theorem abs_holding_le_sum_capacity (balanced : ∑ b : AccountId, r.holding b m = 0)
    (victim : AccountId) : |r.holding victim m| ≤
      ∑ b : AccountId, r.capacity m (direction (r.holding victim m)) b := by
  rw [← direction_mul_self]
  generalize direction (r.holding victim m) = d
  have zero : ∑ b : AccountId, d * r.holding b m = 0 := by rw [← Finset.mul_sum, balanced, mul_zero]
  have enough := le_sum_opposite zero victim
  simp only [← neg_mul] at enough
  exact enough

/-! ## Transfers -/

/-- What the fills of a deleveraging hand to an account in a market. -/
def handed (fills : List AdlFill) (b : AccountId) (m : MarketId) : Int :=
  (fills.map fun f => if f.counterparty = b ∧ f.market = m then f.quantity.val else 0).sum

theorem handed_append (fills fills' : List AdlFill) (b : AccountId) (m : MarketId) :
    handed (fills ++ fills') b m = handed fills b m + handed fills' b m := by
  rw [handed, map_append, sum_append]
  rfl

/-- The transfer loop of one leg, after some of its candidates. -/
structure Transferring (r : RiskEngine) (victim : AccountId) (m : MarketId) (d : Int)
    (before : List AdlFill) (seen : List Candidate) (s : Deleveraging) : Prop where
  indexed : s.engine.Indexed
  opened : ∀ b, s.engine.openAt b = r.openAt b
  rest : s.engine.holding victim m = s.remaining
  elsewhere : ∀ b n, n ≠ m → s.engine.holding b n = r.holding b n
  sums : ∀ n, ∑ b : AccountId, s.engine.holding b n = ∑ b : AccountId, r.holding b n
  left : d * s.remaining = max 0 (|r.holding victim m| - (seen.map fun c => |c.quantity.val|).sum)
  fills : ∃ new, s.fills = before ++ new ∧
    (∀ f ∈ new, f.market = m ∧ 0 < f.quantity.val ∧ f.counterparty ≠ victim ∧
      f.counterparty ∈ seen.map Candidate.account) ∧
    (∀ b, b ≠ victim → s.engine.holding b m = r.holding b m + d * handed new b m) ∧
    (∀ b, handed new b m ≤ r.capacity m d b) ∧
    d * s.remaining + (new.map fun f => f.quantity.val).sum = |r.holding victim m|

theorem handed_of_absent (absent : b ∉ fills.map AdlFill.counterparty) (m : MarketId) :
    handed fills b m = 0 := by
  apply sum_eq_zero
  intro x listed
  obtain ⟨f, taken, rfl⟩ := mem_map.1 listed
  apply if_neg
  rintro ⟨rfl, -⟩
  exact absent (mem_map_of_mem taken)

theorem Transferring.start (indexed : r.Indexed) : r.Transferring victim m
    (direction (r.holding victim m)) fills [] ⟨r, r.holding victim m, fills⟩ where
  indexed := indexed
  opened _ := rfl
  rest := rfl
  elsewhere _ _ _ := rfl
  sums _ := rfl
  left := by
    rw [direction_mul_self, map_nil, sum_nil, sub_zero]
    exact (max_eq_right (abs_nonneg _)).symm
  fills := by
    refine ⟨[], (append_nil _).symm, by simp, fun b _ => ?_, fun b => le_max_left _ _, ?_⟩
    · rw [handed, map_nil, sum_nil, mul_zero, add_zero]
    · rw [map_nil, sum_nil, add_zero, direction_mul_self]

/-- The two fills of a transfer are opposite, and neither side crosses zero. -/
theorem transfer_sizes {d remaining quantity transfer counter own : Int}
    (side : (d = 1 ∧ 0 < q) ∨ (d = -1 ∧ q ≤ 0)) (opposite : d * quantity ≤ 0)
    (nonneg : 0 ≤ d * remaining) (size : transfer = min |remaining| |quantity|)
    (moves : transfer ≠ 0) (counterFill : counter = if 0 < quantity then -transfer else transfer)
    (ownFill : own = if 0 < q then -transfer else transfer) :
    counter = d * transfer ∧ own = -(d * transfer) ∧ 0 < transfer ∧
      transfer ≤ max 0 (-d * quantity) ∧
      d * (remaining + own) = max 0 (d * remaining - |quantity|) ∧
      d * (remaining + own) = d * remaining - transfer := by
  obtain ⟨rfl, long⟩ | ⟨rfl, short⟩ := side
  · rw [one_mul] at opposite nonneg
    rw [abs_of_nonneg nonneg, abs_of_nonpos opposite] at size
    rw [abs_of_nonpos opposite]
    split_ifs at counterFill ownFill <;> omega
  · have positive : 0 ≤ quantity := by omega
    have negative : remaining ≤ 0 := by omega
    rw [abs_of_nonpos negative, abs_of_nonneg positive] at size
    rw [abs_of_nonneg positive]
    split_ifs at counterFill ownFill <;> omega

theorem Transferring.step {victimQty : Quantity} {mark : Price}
    {seen : List Candidate} {s s' : Deleveraging} {c : Candidate}
    (so_far : r.Transferring victim m (direction victimQty.val) before seen s)
    (isOpen : r.openAt victim = true)
    (counterparty : r.Counterparty victim m (direction victimQty.val) c)
    (unseen : c.account ∉ seen.map Candidate.account)
    (done : transferTo victim victimQty m mark s c = .ok s') :
    r.Transferring victim m (direction victimQty.val) before (seen ++ [c]) s' := by
  have grown : ((seen ++ [c]).map fun c => |c.quantity.val|).sum =
      (seen.map fun c => |c.quantity.val|).sum + |c.quantity.val| := by
    rw [map_append, sum_append, map_singleton, sum_singleton]
  obtain ⟨new, appended, sources, holdings, within, whole⟩ := so_far.fills
  obtain ⟨rfl, idle⟩ | ⟨transfer, counterFill, victimFill, e₁, e₂, unfinished, size, moves, counter,
    own, first, second, rfl⟩ := transferTo_cases done
  · refine ⟨so_far.indexed, so_far.opened, so_far.rest, so_far.elsewhere, so_far.sums, ?_,
      new, appended, fun f taken => ?_, holdings, within, whole⟩
    · have left := so_far.left
      rw [grown]
      obtain finished | nothing := idle
      · rw [finished] at left ⊢
        have := abs_nonneg c.quantity.val
        omega
      · rwa [nothing, abs_zero, add_zero]
    · obtain ⟨market, positive, other, source⟩ := sources f taken
      refine ⟨market, positive, other, ?_⟩
      rw [map_append, mem_append]
      exact .inl source
  · have apart := counterparty.other
    obtain ⟨indexed₁, opened₁, holds₁⟩ := so_far.indexed.fill
      ((so_far.opened c.account).trans counterparty.isOpen) first
    obtain ⟨indexed₂, opened₂, holds₂⟩ := indexed₁.fill
      ((opened₁ victim).trans ((so_far.opened victim).trans isOpen)) second
    have fresh : handed new c.account m = 0 := by
      apply handed_of_absent
      intro listed
      obtain ⟨f, taken, same⟩ := mem_map.1 listed
      exact unseen (same ▸ (sources f taken).2.2.2)
    have nonneg : 0 ≤ direction victimQty.val * s.remaining := by
      rw [so_far.left]
      exact le_max_left _ _
    obtain ⟨counter, own, positive, most, left, less⟩ :=
      transfer_sizes (direction_cases victimQty.val)
      counterparty.opposite nonneg size moves counter own
    have turned : ∀ b, handed (new ++ [⟨c.account, m, transfer, mark⟩]) b m =
        handed new b m + if c.account = b then transfer.val else 0 := by
      intro b
      rw [handed_append, handed, handed, map_singleton, sum_singleton]
      simp only [and_true]
    have mine : e₂.holding victim m = s.remaining + victimFill.val := by
      rw [holds₂, holds₁, so_far.rest]
      simp [apart.symm]
    have theirs : ∀ b, b ≠ victim → e₂.holding b m =
        s.engine.holding b m + if c.account = b then counterFill.val else 0 := by
      intro b other
      rw [holds₂, holds₁]
      simp [other, eq_comm]
    refine ⟨indexed₂, fun b => ?_, mine, fun b n other => ?_, fun n => ?_, ?_,
      new ++ [⟨c.account, m, transfer, mark⟩], ?_, fun f taken => ?_, fun b other => ?_,
        fun b => ?_, ?_⟩
    · rw [opened₂, opened₁, so_far.opened]
    · rw [holds₂, holds₁, so_far.elsewhere b n other]
      simp [other]
    · rw [sum_holding_fill holds₂, sum_holding_fill holds₁, so_far.sums, counter, own]
      split_ifs
      · rw [add_neg_cancel_right]
      · rw [add_zero, add_zero]
    · have before := so_far.left
      change direction victimQty.val * (s.remaining + victimFill.val) = _
      omega
    · rw [appended, append_assoc]
    · rw [map_append, mem_append]
      obtain old | last := mem_append.1 taken
      · obtain ⟨market, some_, other, source⟩ := sources f old
        exact ⟨market, some_, other, .inl source⟩
      · rw [mem_singleton.1 last]
        exact ⟨rfl, positive, apart, .inr (mem_singleton.2 rfl)⟩
    · rw [theirs b other, holdings b other, turned, mul_add, add_assoc, mul_ite, mul_zero, counter]
    · rw [turned]
      split_ifs with same
      · rwa [← same, fresh, zero_add, capacity, counterparty.holds]
      · rw [add_zero]
        exact within b
    · rw [map_append, sum_append, map_singleton, sum_singleton]
      rw [less, ← whole]
      ring

/-! ## Legs -/

/-- The close of a leg in a balanced market: the transfers take all of it, and nothing is left to
close on the victim alone. -/
theorem closeLeg_transfers (indexed : s.1.Indexed)
    (balanced : ∑ b : AccountId, s.1.holding b leg.market = 0)
    (isOpen : s.1.openAt victim = true) (whole : s.1.holding victim leg.market = leg.netQty.val)
    (marked : s.1.markFor leg.market = some mark) (done : closeLeg victim s leg = .ok s') :
    ∃ candidates, s.1.ranked victim leg.netQty leg.market mark = .ok candidates ∧
      candidates.foldlM (transferTo victim leg.netQty leg.market mark) ⟨s.1, leg.netQty.val, s.2⟩ =
        .ok ⟨s'.1, 0, s'.2⟩ ∧
      s.1.Transferring victim leg.market (direction leg.netQty.val) s.2 candidates
        ⟨s'.1, 0, s'.2⟩ := by
  obtain ⟨unmarked, -⟩ | ⟨mark', candidates, after, marked', ranking, loop, done⟩ :=
    closeLeg_cases done
  · simp [marked] at unmarked
  · rw [marked] at marked'
    cases marked'
    obtain ⟨nodup, all, enough⟩ := ranked_ok indexed whole ranking
    have transferred :
        s.1.Transferring victim leg.market (direction leg.netQty.val) s.2 candidates after := by
      refine foldlM_induction ?_ (fun seen c rest t t' split so_far step => ?_) loop
      · rw [← whole]
        exact Transferring.start indexed
      · refine so_far.step isOpen (all c (by simp [split])) ?_ step
        rw [split, map_append] at nodup
        intro listed
        exact (nodup_append.1 nodup).2.2 _ listed _ mem_cons_self rfl
    have finished : after.remaining = 0 := by
      have left := transferred.left
      have covers := abs_holding_le_sum_capacity balanced victim
      rw [whole, ← enough, ← whole] at covers
      obtain ⟨d, -⟩ | ⟨d, -⟩ := direction_cases leg.netQty.val
      · rw [d] at left
        omega
      · rw [d] at left
        omega
    obtain ⟨engine, remaining, fills⟩ := after
    obtain ⟨-, rfl⟩ | ⟨close, e, unfinished, -⟩ := done
    · cases finished
      exact ⟨candidates, ranking, loop, transferred⟩
    · exact absurd finished unfinished

/-- The legs of a victim closed one after another by transfers alone. -/
inductive ByTransfers (victim : AccountId) : RiskEngine × List AdlFill → List PerpPosition →
    RiskEngine × List AdlFill → Prop
  | done (s : RiskEngine × List AdlFill) : ByTransfers victim s [] s
  | leg {s s' last : RiskEngine × List AdlFill} {leg : PerpPosition} {legs : List PerpPosition}
      {mark : Price} {candidates : List Candidate} (marked : s.1.markFor leg.market = some mark)
      (ranking : s.1.ranked victim leg.netQty leg.market mark = .ok candidates)
      (loop : candidates.foldlM (transferTo victim leg.netQty leg.market mark)
        ⟨s.1, leg.netQty.val, s.2⟩ = .ok ⟨s'.1, 0, s'.2⟩)
      (rest : ByTransfers victim s' legs last) : ByTransfers victim s (leg :: legs) last

/-- What the fills of a deleveraging transfer in a market. -/
def taken (fills : List AdlFill) (m : MarketId) : Int :=
  (fills.map fun f => if f.market = m then f.quantity.val else 0).sum

theorem taken_append (fills fills' : List AdlFill) (m : MarketId) :
    taken (fills ++ fills') m = taken fills m + taken fills' m := by
  rw [taken, map_append, sum_append]
  rfl

theorem taken_of_market (here : ∀ f ∈ fills, f.market = m) :
    taken fills m = (fills.map fun f => f.quantity.val).sum := by
  refine congrArg List.sum (map_congr_left fun f listed => ?_)
  exact if_pos (here f listed)

/-- Fills of other markets transfer nothing here. -/
theorem taken_of_elsewhere (elsewhere : ∀ f ∈ fills, f.market ≠ m) :
    taken fills m = 0 ∧ ∀ b, handed fills b m = 0 := by
  constructor
  · apply sum_eq_zero
    intro x listed
    obtain ⟨f, here, rfl⟩ := mem_map.1 listed
    exact if_neg (elsewhere f here)
  · intro b
    apply sum_eq_zero
    intro x listed
    obtain ⟨f, here, rfl⟩ := mem_map.1 listed
    exact if_neg fun both => elsewhere f here both.2

/-- What deleveraging some legs does to the holdings. -/
structure Deleverages (r : RiskEngine) (victim : AccountId) (legs : List PerpPosition)
    (r' : RiskEngine) (new : List AdlFill) : Prop where
  indexed : r'.Indexed
  opened : ∀ b, r'.openAt b = r.openAt b
  sums : ∀ n, ∑ b : AccountId, r'.holding b n = ∑ b : AccountId, r.holding b n
  closed : ∀ leg ∈ legs, r'.holding victim leg.market = 0
  others : ∀ b n, n ∉ legs.map PerpPosition.market → r'.holding b n = r.holding b n
  fills : ∀ f ∈ new, f.market ∈ legs.map PerpPosition.market ∧ 0 < f.quantity.val ∧
    f.counterparty ≠ victim
  moved : ∀ b n, b ≠ victim →
    r'.holding b n = r.holding b n + direction (r.holding victim n) * handed new b n
  within : ∀ b n, handed new b n ≤ r.capacity n (direction (r.holding victim n)) b
  whole : ∀ leg ∈ legs, taken new leg.market = |r.holding victim leg.market|

theorem Deleverages.refl (indexed : r.Indexed) : r.Deleverages victim [] r [] where
  indexed := indexed
  opened _ := rfl
  sums _ := rfl
  closed := by simp
  others _ _ _ := rfl
  fills := by simp
  moved b n _ := by rw [handed, map_nil, sum_nil, mul_zero, add_zero]
  within b n := le_max_left _ _
  whole := by simp

/-- A finished transfer loop deleverages its leg. -/
theorem Transferring.deleverages (whole : r.holding victim leg.market = leg.netQty.val)
    (turn : r.Transferring victim leg.market (direction leg.netQty.val) before candidates
      ⟨r', 0, fills⟩) : ∃ new, fills = before ++ new ∧ r.Deleverages victim [leg] r' new := by
  obtain ⟨new, appended, sources, moved, within, sum⟩ := turn.fills
  have here : ∀ f ∈ new, f.market = leg.market := fun f listed => (sources f listed).1
  have elsewhere : ∀ n, n ≠ leg.market → taken new n = 0 ∧ ∀ b, handed new b n = 0 := fun n other =>
    taken_of_elsewhere fun f listed same => other (same.symm.trans (here f listed))
  rw [← whole] at moved within
  refine ⟨new, appended, turn.indexed, turn.opened, turn.sums, fun leg' listed => ?_,
    fun b n outside => ?_, fun f listed => ?_, fun b n other => ?_, fun b n => ?_,
      fun leg' listed => ?_⟩
  · rw [mem_singleton.1 listed]
    exact turn.rest
  · exact turn.elsewhere b n fun same => outside (mem_singleton.2 same)
  · obtain ⟨market, positive, apart, -⟩ := sources f listed
    exact ⟨mem_singleton.2 market, positive, apart⟩
  · by_cases same : n = leg.market
    · rw [same]
      exact moved b other
    · rw [(elsewhere n same).2, mul_zero, add_zero]
      exact turn.elsewhere b n same
  · by_cases same : n = leg.market
    · rw [same]
      exact within b
    · rw [(elsewhere n same).2]
      exact le_max_left _ _
  · rw [mem_singleton.1 listed, taken_of_market here, ← sum, mul_zero, zero_add]

/-- Deleveraging one leg and then legs of other markets. -/
theorem Deleverages.cons {r₁ : RiskEngine} {new₁ new₂ : List AdlFill}
    (first : r.Deleverages victim [leg] r₁ new₁) (later : r₁.Deleverages victim legs r' new₂)
    (apart : leg.market ∉ legs.map PerpPosition.market) :
    r.Deleverages victim (leg :: legs) r' (new₁ ++ new₂) := by
  have unmoved : ∀ b n, n ≠ leg.market → r₁.holding b n = r.holding b n := fun b n other =>
    first.others b n fun same => other (mem_singleton.1 same)
  have early : ∀ n, n ≠ leg.market → taken new₁ n = 0 ∧ ∀ b, handed new₁ b n = 0 := fun n other =>
    taken_of_elsewhere fun f listed same =>
      other (same.symm.trans (mem_singleton.1 (first.fills f listed).1))
  have late : taken new₂ leg.market = 0 ∧ ∀ b, handed new₂ b leg.market = 0 :=
    taken_of_elsewhere fun f listed same => apart (same ▸ (later.fills f listed).1)
  refine ⟨later.indexed, fun b => (later.opened b).trans (first.opened b),
    fun n => (later.sums n).trans (first.sums n), fun leg' listed => ?_, fun b n outside => ?_,
    fun f listed => ?_, fun b n other => ?_, fun b n => ?_, fun leg' listed => ?_⟩
  · obtain rfl | listed := mem_cons.1 listed
    · rw [later.others victim _ apart]
      exact first.closed leg' (mem_singleton.2 rfl)
    · exact later.closed leg' listed
  · rw [map_cons, mem_cons, not_or] at outside
    rw [later.others b n outside.2, unmoved b n outside.1]
  · rw [map_cons, mem_cons]
    obtain early | late := mem_append.1 listed
    · obtain ⟨market, rest⟩ := first.fills f early
      exact ⟨.inl (mem_singleton.1 market), rest⟩
    · obtain ⟨market, rest⟩ := later.fills f late
      exact ⟨.inr market, rest⟩
  · rw [handed_append]
    by_cases same : n = leg.market
    · rw [same, later.others b _ apart, late.2, add_zero]
      exact first.moved b _ other
    · rw [(early n same).2, zero_add, later.moved b n other, unmoved b n same,
        unmoved victim n same]
  · rw [handed_append]
    by_cases same : n = leg.market
    · rw [same, late.2, add_zero]
      exact first.within b _
    · have bound := later.within b n
      rw [capacity, unmoved b n same, unmoved victim n same] at bound
      rwa [(early n same).2, zero_add]
  · rw [taken_append]
    obtain rfl | listed := mem_cons.1 listed
    · rw [late.1, add_zero]
      exact first.whole leg' (mem_singleton.2 rfl)
    · have other : leg'.market ≠ leg.market := fun same =>
        apart (same ▸ mem_map_of_mem listed)
      rw [(early _ other).1, zero_add, later.whole leg' listed, unmoved victim _ other]

/-- Deleveraging a list of legs of distinct marked markets. -/
theorem closeLegs_transfers (indexed : s.1.Indexed) (balanced : s.1.Balanced)
    (isOpen : s.1.openAt victim = true) (distinct : (legs.map PerpPosition.market).Nodup)
    (held : ∀ leg ∈ legs, s.1.holding victim leg.market = leg.netQty.val ∧
      (s.1.markFor leg.market).isSome = true) (done : legs.foldlM (closeLeg victim) s = .ok s') :
    ByTransfers victim s legs s' ∧ ∃ new, s'.2 = s.2 ++ new ∧
      Deleverages s.1 victim legs s'.1 new := by
  induction legs generalizing s with
  | nil =>
    cases done
    exact ⟨.done _, [], (append_nil _).symm, .refl indexed⟩
  | cons leg legs ih =>
    rw [foldlM_cons, bind_eq_ok] at done
    obtain ⟨s₁, first, rest⟩ := done
    obtain ⟨whole, isSome⟩ := held leg mem_cons_self
    obtain ⟨mark, marked⟩ := Option.isSome_iff_exists.1 isSome
    obtain ⟨candidates, ranking, loop, turn⟩ :=
      closeLeg_transfers indexed (balanced leg.market) isOpen whole marked first
    obtain ⟨new₁, appended, earlier⟩ := turn.deleverages whole
    rw [map_cons, nodup_cons] at distinct
    have apart : ∀ leg' ∈ legs, leg'.market ≠ leg.market := fun leg' listed same =>
      distinct.1 (same ▸ mem_map_of_mem listed)
    obtain ⟨transfers, new₂, appended', later⟩ := ih turn.indexed
      (fun n => (turn.sums n).trans (balanced n)) ((turn.opened victim).trans isOpen) distinct.2
      (fun leg' listed => by
        obtain ⟨amount, isSome⟩ := held leg' (mem_cons_of_mem _ listed)
        refine ⟨(turn.elsewhere victim leg'.market (apart leg' listed)).trans amount, ?_⟩
        rw [(closeLeg_turns isOpen first).markFor]
        exact isSome) rest
    refine ⟨.leg marked ranking loop transfers, new₁ ++ new₂, ?_, earlier.cons later distinct.1⟩
    rw [appended', appended, append_assoc]

/-! ## Liquidation -/

/-- Closing an account drops its holdings. -/
theorem closeAccount_indexed (indexed : r.Indexed) (done : r.closeAccount victim = .ok r') :
    r'.Indexed ∧ ∀ b m, r'.holding b m = if b = victim then 0 else r.holding b m := by
  obtain ⟨x, a, found, used, isOpen, perp, -, -, -, -, closed⟩ := closeAccount_cases done
  obtain ⟨size, slots, index⟩ := slots_of_close found closed
  have empty : r'.perpOf victim = [] := by rw [perpOf_eq ((slots victim).trans (if_pos rfl)), perp]
  have same : ∀ b, b ≠ victim → r'.perpOf b = r.perpOf b ∧ r'.openAt b = r.openAt b ∧
      r'.usedAt b = r.usedAt b := by
    intro b other
    rw [perpOf, openAt, usedAt, slots, if_neg other]
    exact ⟨rfl, rfl, rfl⟩
  have holds : ∀ b m, r'.holding b m = if b = victim then 0 else r.holding b m := by
    intro b m
    split_ifs with here
    · rw [here, holding, empty]
      rfl
    · rw [holding, (same b here).1]
      rfl
  have each : ∀ b, ((r'.perpOf b).map PerpPosition.market).Nodup ∧
      (r'.perpOf b ≠ [] → r'.openAt b = true) ∧ (r'.openAt b = true → r'.usedAt b = true) ∧
      ∀ p ∈ r'.perpOf b, p.netQty.val = 0 → p.avgEntry.val = 0 := by
    intro b
    by_cases here : b = victim
    · rw [here, empty, openAt_eq ((slots victim).trans (if_pos rfl)), isOpen]
      simp
    · obtain ⟨perp, opened, used⟩ := same b here
      rw [perp, opened, used]
      exact ⟨indexed.distinct b, indexed.opened b, indexed.used b, indexed.zeroed b⟩
  refine ⟨⟨size ▸ indexed.fits, fun b => (each b).1, fun m b => ?_, fun b => (each b).2.1,
    fun b => (each b).2.2.1, fun b => (each b).2.2.2⟩, holds⟩
  rw [index, OrdMap.get?_erase, holds]
  split_ifs with here
  · simp
  · exact indexed.exact m b

/-- The index is exact and the holdings of every market sum to zero. -/
structure Netted (r : RiskEngine) : Prop where
  indexed : r.Indexed
  balanced : r.Balanced

/-- The position of a victim went to counterparties. -/
structure Absorbed (r : RiskEngine) (victim : AccountId) (r' : RiskEngine) (fills : List AdlFill) :
    Prop where
  flat : ∀ m, r'.holding victim m = 0
  whole : ∀ m, taken fills m = |r.holding victim m|
  moved : ∀ b m, b ≠ victim →
    r'.holding b m = r.holding b m + direction (r.holding victim m) * handed fills b m
  reduced : ∀ f ∈ fills, f.counterparty ≠ victim ∧ 0 < f.quantity.val ∧
    |r'.holding f.counterparty f.market| < |r.holding f.counterparty f.market| ∧
    0 ≤ r'.holding f.counterparty f.market * r.holding f.counterparty f.market

theorem handed_pos (positive : ∀ f ∈ fills, 0 < f.quantity.val) (listed : f ∈ fills) :
    0 < handed fills f.counterparty f.market := by
  have terms : ∀ x ∈ fills.map fun g =>
      if g.counterparty = f.counterparty ∧ g.market = f.market then g.quantity.val else 0,
      0 ≤ x := by
    intro x term
    obtain ⟨g, here, rfl⟩ := mem_map.1 term
    split_ifs
    · exact (positive g here).le
    · exact le_rfl
  have own := single_le_sum terms _ (mem_map_of_mem listed)
  rw [if_pos ⟨rfl, rfl⟩] at own
  exact (positive f listed).trans_le own

/-- A fill moves its counterparty towards zero, not across it. -/
theorem Deleverages.reduces {new : List AdlFill}
    (done : r.Deleverages victim legs r' new) (listed : f ∈ new) :
    |r'.holding f.counterparty f.market| < |r.holding f.counterparty f.market| ∧
      0 ≤ r'.holding f.counterparty f.market * r.holding f.counterparty f.market := by
  have more := handed_pos (fun g here => (done.fills g here).2.1) listed
  have most := done.within f.counterparty f.market
  rw [done.moved f.counterparty f.market (done.fills f listed).2.2, capacity] at *
  generalize r.holding f.counterparty f.market = h at *
  obtain ⟨d, -⟩ | ⟨d, -⟩ := direction_cases (r.holding victim f.market)
  · rw [d] at most ⊢
    have negative : h < 0 := by omega
    rw [abs_of_neg negative, abs_of_nonpos (by omega)]
    exact ⟨by omega, mul_nonneg_of_nonpos_of_nonpos (by omega) negative.le⟩
  · rw [d] at most ⊢
    have positive : 0 < h := by omega
    rw [abs_of_pos positive, abs_of_nonneg (by omega)]
    exact ⟨by omega, mul_nonneg (by omega) positive.le⟩

/-- A liquidation in marked, balanced markets transfers the whole position of its victim. -/
theorem liquidate_transfers {out : LiquidationOutcome} (netted : r.Netted)
    (marked : ∀ x, r.slot victim = some x → ∀ p ∈ x.perp, (r.markFor p.market).isSome = true)
    (done : r.liquidate victim = .ok (r', out)) :
    r'.Netted ∧ r.Absorbed victim r' out.adlFills ∧ ∃ x s, r.slot victim = some x ∧
      r.autoDeleverage victim = .ok s ∧
      ByTransfers victim (r, []) (x.perp.filter fun p => !p.isFlat) s ∧ s.2 = out.adlFills := by
  obtain ⟨indexed, balanced⟩ := netted
  simp only [liquidate, ok_iff, active_eq_ok] at done
  obtain ⟨v, ⟨active, -, opened⟩, s, deleveraged, a, after, e, stored, a', -, done⟩ := done
  obtain ⟨x, found, legs⟩ : ∃ x, r.slot victim = some x ∧
      (x.perp.filter fun p => !p.isFlat).foldlM (closeLeg victim) (r, []) = .ok s := by
    simpa only [autoDeleverage, bind_eq_ok, orError_eq_ok] using deleveraged
  have distinct := indexed.distinct victim
  rw [perpOf_eq found] at distinct
  have isOpen : r.openAt victim = true := (openAt_eq active).trans opened
  have held : ∀ leg ∈ x.perp.filter fun p => !p.isFlat,
      r.holding victim leg.market = leg.netQty.val ∧ (r.markFor leg.market).isSome = true := by
    intro leg listed
    have listed := mem_of_mem_filter listed
    exact ⟨(holding_eq found _).trans (holdingOf_of_mem distinct listed), marked x found leg listed⟩
  obtain ⟨transfers, new, appended, sold⟩ :=
    closeLegs_transfers (s := (r, [])) indexed balanced isOpen
    (distinct.sublist ((filter_sublist).map _)) held legs
  subst appended
  -- Every market that the victim holds is a leg.
  have unheld : ∀ m, m ∉ (x.perp.filter fun p => !p.isFlat).map PerpPosition.market →
      r.holding victim m = 0 := by
    intro m
    rw [not_imp_comm, holding_eq found]
    intro held
    obtain ⟨p, listed, rfl, amount⟩ := exists_of_holdingOf held
    refine mem_map_of_mem (mem_filter.2 ⟨listed, ?_⟩)
    rw [PerpPosition.isFlat, amount]
    simpa using held
  have flat : ∀ m, s.1.holding victim m = 0 := by
    intro m
    by_cases leg : m ∈ (x.perp.filter fun p => !p.isFlat).map PerpPosition.market
    · obtain ⟨p, listed, rfl⟩ := mem_map.1 leg
      exact sold.closed p listed
    · rw [sold.others victim m leg, unheld m leg]
  have whole : ∀ m, taken s.2 m = |r.holding victim m| := by
    intro m
    by_cases leg : m ∈ (x.perp.filter fun p => !p.isFlat).map PerpPosition.market
    · obtain ⟨p, listed, rfl⟩ := mem_map.1 leg
      exact sold.whole p listed
    · rw [unheld m leg]
      exact (taken_of_elsewhere fun f listed (same : f.market = m) =>
        leg (same ▸ (sold.fills f listed).1)).1
  have cleared : Still s.1 e := Still.store (a := { a with payout := [] }) after rfl rfl rfl stored
  obtain ⟨mid, still, closed, fills⟩ : ∃ mid, Still s.1 mid ∧ mid.closeAccount victim = .ok r' ∧
      out.adlFills = s.2 := by
    split_ifs at done with short
    · simp only [ok_iff] at done
      obtain ⟨covered, paid, e', closed, rfl, rfl⟩ := done
      exact ⟨covered.1, cleared.trans (Quiet.path_still (coverShortfall_quiet paid)), closed, rfl⟩
    · simp only [ok_iff] at done
      obtain ⟨e', closed, rfl, rfl⟩ := done
      exact ⟨e, cleared, closed, rfl⟩
  obtain ⟨indexed', holds⟩ := closeAccount_indexed (still.indexed sold.indexed) closed
  have same : ∀ b m, r'.holding b m = s.1.holding b m := by
    intro b m
    rw [holds]
    split_ifs with here
    · rw [here, flat]
    · exact still.holding b m
  rw [fills]
  refine ⟨⟨indexed', fun m => ?_⟩, ⟨fun m => ?_, whole, fun b m other => ?_, fun f listed => ?_⟩,
    x, s, found, deleveraged, transfers, rfl⟩
  · rw [Finset.sum_congr rfl fun b _ => same b m, sold.sums]
    exact balanced m
  · exact (same victim m).trans (flat m)
  · exact (same b m).trans (sold.moved b m other)
  · rw [same]
    obtain ⟨-, positive, other⟩ := sold.fills f listed
    exact ⟨other, positive, sold.reduces listed⟩

/-! ## Paths -/

theorem Still.netted (still : Still r r') (netted : r.Netted) : r'.Netted :=
  ⟨still.indexed netted.indexed, fun m => by
    rw [Finset.sum_congr rfl fun b _ => still.holding b m]
    exact netted.balanced m⟩

theorem Trade.netted (done : Trade r r') (netted : r.Netted) : r'.Netted := by
  obtain quiet | ⟨a, b, m, q, q', price, r₁, opposite, first, second⟩ := done.quiet_or_pair
  · exact quiet.still.netted netted
  · simp only [applyFill, bind_eq_ok, active_eq_ok] at first second
    obtain ⟨x, ⟨here, -, isOpen⟩, first⟩ := first
    obtain ⟨y, ⟨there, -, isOpen'⟩, second⟩ := second
    obtain ⟨indexed₁, -, holds₁⟩ := netted.indexed.fill ((openAt_eq here).trans isOpen) first
    obtain ⟨indexed₂, -, holds₂⟩ := indexed₁.fill ((openAt_eq there).trans isOpen') second
    refine ⟨indexed₂, fun n => ?_⟩
    rw [sum_holding_fill holds₂, sum_holding_fill holds₁, netted.balanced n]
    split_ifs <;> omega

theorem Act.netted (done : Act r r') (netted : r.Netted) : r'.Netted := by
  cases done with
  | trade done => exact done.netted netted
  | opened done =>
    obtain ⟨indexed, holds⟩ := openAccount_indexed netted.indexed done
    refine ⟨indexed, fun m => ?_⟩
    rw [Finset.sum_congr rfl fun b _ => holds b m]
    exact netted.balanced m
  | marked done => exact (setMarkPrice_still done).netted netted
  | liquidated marked done => exact (liquidate_transfers netted marked done).1

theorem new_netted (config : RiskConfig) : (new config).Netted := by
  refine ⟨new_indexed config, fun m => ?_⟩
  apply Finset.sum_eq_zero
  exact fun _ _ => rfl

theorem Path.netted (path : Path r r') (netted : r.Netted) : r'.Netted := by
  induction path with
  | refl => exact netted
  | tail _ last ih => exact last.netted ih

end RiskEngine

end Dexos.Risk
