import Mathlib.Algebra.BigOperators.Intervals
import Mathlib.Algebra.Order.BigOperators.Group.Finset
import Mathlib.Algebra.BigOperators.Ring.Finset
import Mathlib.Data.Prod.Lex
import Dexos.Foundations.Attempt
import Dexos.Clob.Types

/-!
# The time-weighted decision price

Every observed price holds until the next observation. The accumulator adds price times length
over the gaps, each clamped to the window, and `finalize` extends the last price to the end of the
window. The sum is the integral of the observed step function over the times of the window that
have an observation behind them.
-/

namespace Dexos.Decision

open Foundations Clob Finset

structure TimeWindow where
  start : U64
  stop : U64

structure PriceTick where
  ts : U64
  price : Price

inductive DecisionMarketError where
  | outOfOrderTick
  | noObservations
  | truncation

structure TwapAccumulator where
  window : TimeWindow
  lastTs : Option U64
  lastPrice : Price
  weighted : I128
  covered : Nat

namespace TwapAccumulator

def new (window : TimeWindow) : TwapAccumulator := ⟨window, none, I64.zero, I128.zero, 0⟩

def foldInterval (a : TwapAccumulator) (since upTo : U64) (price : Price) :
    Except DecisionMarketError TwapAccumulator := do
  let lo : Nat := max since a.window.start
  let hi : Nat := min upTo a.window.stop
  if hi ≤ lo then return a
  let contribution ← orError (Bounded.narrow (price.val * ↑(hi - lo)) : Option I128) .truncation
  let weighted ← orError (a.weighted.checkedAdd contribution) .truncation
  require (a.covered + (hi - lo) < 2 ^ 64) .truncation
  return { a with weighted := weighted, covered := a.covered + (hi - lo) }

def observe (a : TwapAccumulator) (tick : PriceTick) :
    Except DecisionMarketError TwapAccumulator := do
  let a ← match a.lastTs with
    | none => pure a
    | some prev => do
      require (prev ≤ tick.ts) .outOfOrderTick
      a.foldInterval prev tick.ts a.lastPrice
  return { a with lastTs := some tick.ts, lastPrice := tick.price }

def finalize (a : TwapAccumulator) : Except DecisionMarketError Price := do
  let a ← match a.lastTs with
    | none => pure a
    | some last => a.foldInterval last a.window.stop a.lastPrice
  require (a.covered ≠ 0) .noObservations
  orError (Bounded.narrow (a.weighted.val.tdiv a.covered)) .truncation

/-- The observations of a list, one after the other. -/
def observeAll (window : TimeWindow) (ticks : List PriceTick) :
    Except DecisionMarketError TwapAccumulator :=
  ticks.foldlM observe (new window)

end TwapAccumulator

open TwapAccumulator

/-- The order in which `time_weighted_average` sorts. -/
def PriceTick.rank (x : PriceTick) : U64 ×ₗ Price := toLex (x.ts, x.price)

def sorted (ticks : List PriceTick) : List PriceTick :=
  ticks.insertionSort fun x y => x.rank ≤ y.rank

def timeWeightedAverage (window : TimeWindow) (ticks : List PriceTick) :
    Except DecisionMarketError Price := do
  let acc ← observeAll window (sorted ticks)
  acc.finalize

/-! ## The step function -/

/-- The price that holds at a time: that of the last observation so far. -/
def priceAt (ticks : List PriceTick) (t : Nat) : Option Price :=
  (ticks.reverse.find? fun x => (x.ts : Nat) ≤ t).map PriceTick.price

/-- What a weight of the prices adds up to over the times of the window before `u`. -/
def total (window : TimeWindow) (ticks : List PriceTick) (u : Nat) (f : Price → Int) : Int :=
  ∑ t ∈ Ico (window.start : Nat) (min u window.stop), (priceAt ticks t).elim 0 f

/-- The integral of the step function over the window. -/
def integral (window : TimeWindow) (ticks : List PriceTick) : Int :=
  total window ticks window.stop fun p => p.val

/-- The length of the part of the window that has an observation behind it. -/
def coverage (window : TimeWindow) (ticks : List PriceTick) : Int :=
  total window ticks window.stop fun _ => 1

/-- No lower than the lowest price and no higher than the highest. -/
def Between (ticks : List PriceTick) (v : Int) : Prop :=
  ∀ lo hi, (∀ x ∈ ticks, lo ≤ x.price.val ∧ x.price.val ≤ hi) → lo ≤ v ∧ v ≤ hi

variable {window : TimeWindow} {ticks : List PriceTick} {l x : PriceTick} {t u : Nat}

theorem priceAt_concat : priceAt (ticks ++ [x]) t =
    if (x.ts : Nat) ≤ t then some x.price else priceAt ticks t := by
  split_ifs with late <;> simp [late, priceAt]

/-- The next observation does not matter before its time. -/
theorem total_concat (f : Price → Int) :
    total window (ticks ++ [x]) x.ts f = total window ticks x.ts f := by
  refine sum_congr rfl fun t inside => ?_
  have early := (mem_Ico.1 inside).2
  rw [priceAt_concat, if_neg (by omega)]

theorem total_extend (ticks : List PriceTick) (f : Price → Int)
    (later : min (l.ts : Nat) window.stop ≤ u) :
    total window (ticks ++ [l]) u f = total window (ticks ++ [l]) l.ts f +
      f l.price * ↑(min u window.stop - max (l.ts : Nat) window.start) := by
  have reached : min (min u window.stop) (l.ts : Nat) = min (l.ts : Nat) window.stop := by omega
  rw [total, ← sum_filter_add_sum_filter_not _ (· < (l.ts : Nat))]
  simp only [not_lt, Ico_filter_lt, Ico_filter_le, reached]
  refine congrArg₂ (· + ·) rfl ?_
  calc _ = ∑ t ∈ Ico (max (window.start : Nat) l.ts) (min u window.stop), f l.price := by
        refine sum_congr rfl fun t inside => ?_
        rw [priceAt_concat, if_pos ((le_max_right _ _).trans (mem_Ico.1 inside).1)]
        rfl
    _ = _ := by rw [sum_const, Nat.card_Ico, nsmul_eq_mul, mul_comm, max_comm]

theorem total_le {f g : Price → Int} (le : ∀ x ∈ ticks, f x.price ≤ g x.price) :
    total window ticks u f ≤ total window ticks u g := by
  refine sum_le_sum fun t _ => ?_
  rw [priceAt]
  cases found : ticks.reverse.find? fun x => (x.ts : Nat) ≤ t with
  | none => exact le_rfl
  | some x => exact le x (List.mem_reverse.1 (List.mem_of_find?_eq_some found))

theorem total_const (c : Int) :
    (total window ticks u fun _ => c) = c * total window ticks u fun _ => 1 := by
  rw [total, total, mul_sum]
  refine sum_congr rfl fun t _ => ?_
  cases priceAt ticks t <;> simp

variable (window ticks u)

theorem total_one : 0 ≤ (total window ticks u fun _ => 1) ∧
    (total window ticks u fun _ => 1) ≤ ↑(window.stop - window.start : Nat) := by
  have unit : ∀ t, 0 ≤ (priceAt ticks t).elim 0 (fun _ => (1 : Int)) ∧
      (priceAt ticks t).elim 0 (fun _ => (1 : Int)) ≤ 1 := by
    intro t
    cases priceAt ticks t <;> simp
  refine ⟨sum_nonneg fun t _ => (unit t).1,
    (sum_le_card_nsmul _ _ 1 fun t _ => (unit t).2).trans ?_⟩
  rw [Nat.card_Ico, nsmul_one]
  omega

/-- The integral is between the bounds of the prices. -/
theorem total_between {lo hi : Int} (bounds : ∀ x ∈ ticks, lo ≤ x.price.val ∧ x.price.val ≤ hi) :
    lo * (total window ticks u fun _ => 1) ≤ (total window ticks u fun p => p.val) ∧
    (total window ticks u fun p => p.val) ≤ hi * total window ticks u fun _ => 1 := by
  rw [← total_const, ← total_const]
  exact ⟨total_le fun x listed => (bounds x listed).1, total_le fun x listed => (bounds x listed).2⟩

variable {window ticks u}

namespace TwapAccumulator

variable {a a' : TwapAccumulator}

/-- The sums of the accumulator are those over the times before `u`. -/
def Tracks (window : TimeWindow) (ticks : List PriceTick) (u : Nat) (a : TwapAccumulator) : Prop :=
  a.window = window ∧ (a.covered = total window ticks u fun _ => 1) ∧
    a.weighted.val = total window ticks u fun p => p.val

/-- Folding the last price up to a later time never overflows. -/
theorem Tracks.foldInterval {u : U64} (h : Tracks window (ticks ++ [l]) l.ts a)
    (later : min (l.ts : Nat) window.stop ≤ u) :
    ∃ a', a.foldInterval l.ts u l.price = .ok a' ∧ Tracks window (ticks ++ [l]) u a' := by
  obtain ⟨rfl, covered, weighted⟩ := h
  have size := total_extend ticks (fun _ => 1) later
  have sum := total_extend ticks (fun p => p.val) later
  rw [← covered] at size
  rw [← weighted] at sum
  have few := (total_one a.window (ticks ++ [l]) u).2
  have small := total_between a.window (ticks ++ [l]) u fun x _ => x.price.property
  set dt := min (u : Nat) a.window.stop - max (l.ts : Nat) a.window.start with length
  have lower := mul_le_mul_of_nonneg_right l.price.property.1 (Int.natCast_nonneg dt)
  have upper := mul_le_mul_of_nonneg_right l.price.property.2 (Int.natCast_nonneg dt)
  have stop := a.window.stop.isLt
  obtain ⟨part, exact⟩ : ∃ c : I128, c.val = l.price.val * dt := ⟨⟨_, by omega⟩, rfl⟩
  obtain ⟨whole, added⟩ : ∃ c : I128, c.val = a.weighted.val + part.val := ⟨⟨_, by omega⟩, rfl⟩
  simp only [TwapAccumulator.foldInterval, ← length]
  split_ifs with none
  · have zero : dt = 0 := by omega
    rw [zero] at size sum
    exact ⟨a, rfl, rfl, by simpa using size.symm, by simpa using sum.symm⟩
  · refine ⟨{ a with weighted := whole, covered := a.covered + dt }, ?_, rfl, ?_, ?_⟩
    · simp only [ok_iff]
      exact ⟨part, Bounded.narrow_eq_some.2 exact, whole, Bounded.checkedAdd_eq_some.2 added, (),
        by omega, rfl⟩
    · rw [size]
      push_cast
      ring
    · rw [sum, added, exact]

/-- The accumulator after a list of observations. -/
structure Tracked (window : TimeWindow) (ticks : List PriceTick) (a : TwapAccumulator) : Prop where
  last : a.lastTs = ticks.getLast?.map PriceTick.ts
  price : ∀ l ∈ ticks.getLast?, a.lastPrice = l.price
  sums : a.Tracks window ticks (ticks.getLast?.elim 0 fun l => l.ts)

theorem Tracks.observed (h : a.Tracks window ticks x.ts) :
    Tracked window (ticks ++ [x]) { a with lastTs := some x.ts, lastPrice := x.price } := by
  refine ⟨by simp, by simp, ?_⟩
  rw [List.getLast?_concat, Option.elim_some, Tracks, total_concat, total_concat]
  exact h

/-- Observations are accepted exactly in order of time. -/
theorem observeAll_ends : Ends (observeAll window ticks) (Tracked window ticks) fun err =>
    err = .outOfOrderTick ∧ ¬ ticks.Pairwise fun x y => x.ts ≤ y.ts := by
  apply foldlM_ends
  · exact ⟨rfl, by simp, rfl, by simp [total, new], by simp [total, new]; rfl⟩
  intro seen x rest a whole tracked
  obtain ⟨time, price, sums⟩ := tracked
  rw [observe, time]
  cases found : seen.getLast? with
  | none =>
    rw [List.getLast?_eq_none_iff.1 found] at sums ⊢
    exact Tracks.observed (by simpa [Tracks, total, priceAt] using sums)
  | some l =>
    obtain ⟨before, rfl⟩ := List.getLast?_eq_some_iff.1 found
    rw [price l found]
    rw [found] at sums
    by_cases order : l.ts ≤ x.ts
    · obtain ⟨a', folded, tracks⟩ := sums.foldInterval ((min_le_left _ _).trans order)
      simp only [Option.map_some, require, if_pos order, folded]
      exact tracks.observed
    · simp only [Option.map_some, require, if_neg order]
      refine ⟨rfl, fun sorted => order ?_⟩
      rw [whole, List.pairwise_append] at sorted
      exact sorted.2.2 l (by simp) x (by simp)

/-- The truncated quotient of the integral and the coverage. -/
def average (window : TimeWindow) (ticks : List PriceTick) : Except DecisionMarketError Price := do
  require (coverage window ticks ≠ 0) .noObservations
  orError (Bounded.narrow ((integral window ticks).tdiv (coverage window ticks))) .truncation

theorem Tracked.finalize_eq (h : Tracked window ticks a) : a.finalize = average window ticks := by
  obtain ⟨time, price, sums⟩ := h
  rw [finalize, time]
  cases found : ticks.getLast? with
  | none =>
    obtain ⟨-, covered, -⟩ := sums
    rw [List.getLast?_eq_none_iff.1 found] at covered ⊢
    have zero : a.covered = 0 := by simpa [total, priceAt] using covered
    simp [average, coverage, zero, total, priceAt, require]
  | some l =>
    obtain ⟨before, rfl⟩ := List.getLast?_eq_some_iff.1 found
    rw [price l found]
    rw [found] at sums
    obtain ⟨a', folded, -, covered, weighted⟩ :=
      sums.foldInterval (u := window.stop) (min_le_right _ _)
    obtain ⟨rfl, -⟩ := sums
    rw [average, coverage, integral, ← covered, ← weighted]
    simp only [Option.map_some, folded, Int.natCast_ne_zero]
    rfl

/-- With coverage the average exists, between the bounds of the prices. -/
theorem average_ok (some : coverage window ticks ≠ 0) : ∃ p, average window ticks = .ok p ∧
    p.val = (integral window ticks).tdiv (coverage window ticks) ∧ Between ticks p.val := by
  have positive : 0 < coverage window ticks := lt_of_le_of_ne (total_one ..).1 some.symm
  have between : Between ticks ((integral window ticks).tdiv (coverage window ticks)) := by
    intro lo hi bounds
    obtain ⟨low, high⟩ := total_between window ticks window.stop bounds
    exact ⟨(Int.mul_tdiv_cancel lo some).ge.trans (Int.tdiv_le_tdiv positive low),
      (Int.tdiv_le_tdiv positive high).trans (Int.mul_tdiv_cancel hi some).le⟩
  refine ⟨⟨_, between _ _ fun x _ => x.price.property⟩, ?_, rfl, between⟩
  simp only [average, ok_iff]
  exact ⟨(), some, Bounded.narrow_eq_some.2 rfl⟩

/-- Repeating the current price leaves the step function as it is. -/
theorem average_repeat {early late : List PriceTick} (order : l.ts ≤ x.ts)
    (same : x.price = l.price) :
    average window (early ++ l :: x :: late) = average window (early ++ l :: late) := by
  have prices : priceAt (early ++ l :: x :: late) = priceAt (early ++ l :: late) := by
    funext t
    simp only [priceAt, List.reverse_append, List.reverse_cons, List.append_assoc,
      List.find?_append, List.find?_singleton]
    by_cases new : (x.ts : Nat) ≤ t
    · have old : (l.ts : Nat) ≤ t := le_trans order new
      cases late.reverse.find? fun x => (x.ts : Nat) ≤ t <;> simp [new, old, same]
    · simp [new]
  rw [average, coverage, integral, total, total, prices]
  rfl

end TwapAccumulator

theorem timeWeightedAverage_perm {ticks' : List PriceTick} (perm : ticks.Perm ticks') :
    timeWeightedAverage window ticks = timeWeightedAverage window ticks' := by
  have inOrder := List.pairwise_insertionSort fun x y : PriceTick => x.rank ≤ y.rank
  have same : sorted ticks = sorted ticks' := by
    refine List.Perm.eq_of_pairwise ?_ (inOrder ticks) (inOrder ticks')
      (((List.perm_insertionSort _ _).trans perm).trans (List.perm_insertionSort _ _).symm)
    rintro ⟨ts, price⟩ ⟨ts', price'⟩ - - le ge
    cases le_antisymm le ge
    rfl
  rw [timeWeightedAverage, timeWeightedAverage, same]

/-- A sorted list is in order of time, so all of it is accepted. -/
theorem timeWeightedAverage_eq :
    timeWeightedAverage window ticks = average window (sorted ticks) := by
  have inOrder : (sorted ticks).Pairwise fun x y => x.ts ≤ y.ts := by
    refine List.Pairwise.imp ?_
      (List.pairwise_insertionSort (fun x y : PriceTick => x.rank ≤ y.rank) ticks)
    exact fun le => Prod.Lex.monotone_fst _ _ le
  have ends : Ends (observeAll window (sorted ticks)) _ _ := observeAll_ends
  rw [timeWeightedAverage]
  cases run : observeAll window (sorted ticks) with
  | error err => exact absurd inOrder (ends.of_error run).2
  | ok a => exact (ends.of_ok run).finalize_eq

/-- Observations in order of time are all accepted, and no other ones. `finalize` then returns the
truncated quotient of the integral and the length that it covers, between the lowest and the highest
price, and does not overflow. Repeating a price changes nothing, and the average of a list is that
of the sorted list, so its order changes nothing either. -/
theorem decision_twap (window : TimeWindow) (ticks : List PriceTick) :
    Ends (observeAll window ticks) (fun a =>
      a.covered ≤ (window.stop - window.start : Nat) ∧
      coverage window ticks ≤ ↑(window.stop - window.start : Nat) ∧
      (coverage window ticks = 0 → a.finalize = .error .noObservations) ∧
      (coverage window ticks ≠ 0 → ∃ p, a.finalize = .ok p ∧
        p.val = (integral window ticks).tdiv (coverage window ticks) ∧ Between ticks p.val) ∧
      ∀ early l x late a', ticks = early ++ l :: late → l.ts ≤ x.ts → x.price = l.price →
        observeAll window (early ++ l :: x :: late) = .ok a' → a'.finalize = a.finalize)
      (fun err => err = .outOfOrderTick ∧ ¬ ticks.Pairwise fun x y => x.ts ≤ y.ts) ∧
    ((coverage window (sorted ticks) = 0 →
        timeWeightedAverage window ticks = .error .noObservations) ∧
      (coverage window (sorted ticks) ≠ 0 → ∃ p, timeWeightedAverage window ticks = .ok p ∧
        p.val = (integral window (sorted ticks)).tdiv (coverage window (sorted ticks)) ∧
        Between (sorted ticks) p.val)) ∧
    ∀ ticks', ticks.Perm ticks' →
      timeWeightedAverage window ticks = timeWeightedAverage window ticks' := by
  have empty : ∀ list, coverage window list = 0 → average window list = .error .noObservations := by
    intro list none
    simp [average, none, require]
  refine ⟨observeAll_ends.mono fun a tracked => ?_, ?_, fun ticks' => timeWeightedAverage_perm⟩
  swap
  · rw [timeWeightedAverage_eq]
    exact ⟨empty _, average_ok⟩
  rw [tracked.finalize_eq]
  refine ⟨?_, (total_one ..).2, empty _, average_ok, ?_⟩
  · exact Int.ofNat_le.1 (tracked.sums.2.1.trans_le (total_one ..).2)
  · rintro early l x late a' rfl order same accepted
    rw [(observeAll_ends.of_ok accepted).finalize_eq]
    exact average_repeat order same

end Dexos.Decision
