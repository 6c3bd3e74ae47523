import Mathlib.Algebra.Order.BigOperators.Group.List
import Dexos.Oracle.Invariance

/-!
# An honest majority bounds the price

Signers who are a majority by number and by weight, and whose prices lie in an interval, hold
the first median inside it and the deviation below its length. Outlier rejection then leaves
only prices close to the interval.
-/

namespace Dexos.Oracle

open Foundations Clob Risk List

/-! ## Medians -/

section Median

variable {a b : Int} {l samples : List Sample} {total acc : I128} {p : Price}

/-- A strict majority of a sorted list that stays below a bound holds the median below it. -/
theorem lowerMedian_le {l : List Int} {bound : Int} (sorted : l.Pairwise (· ≤ ·))
    (many : l.length < 2 * l.countP (· ≤ bound)) : ∃ x ∈ l, lowerMedian l = some x ∧ x ≤ bound := by
  have counted := l.countP_le_length (p := (· ≤ bound))
  have inside : (l.length - 1) / 2 < l.length := by omega
  refine ⟨_, getElem_mem inside, getElem?_eq_getElem inside, not_lt.1 fun above => ?_⟩
  -- From the median on nothing stays below the bound, and too little stands before it.
  have later : (l.drop ((l.length - 1) / 2)).countP (· ≤ bound) = 0 := by
    rw [countP_eq_zero]
    intro y listed
    obtain ⟨j, here, rfl⟩ := mem_drop_iff_getElem.1 listed
    rw [decide_eq_true_eq, not_le]
    refine above.trans_le ?_
    rcases Nat.eq_zero_or_pos j with rfl | positive
    · exact le_rfl
    · exact pairwise_iff_getElem.1 sorted _ _ _ _ (by omega)
  have split := congrArg (List.countP (· ≤ bound)) (l.take_append_drop ((l.length - 1) / 2))
  have earlier := (l.take ((l.length - 1) / 2)).countP_le_length (p := (· ≤ bound))
  rw [countP_append] at split
  rw [length_take] at earlier
  omega

def weightSum (l : List Sample) : Int := (l.map fun s => (ofLex s).2.val).sum

/-- The sum of the weights of prices in an interval. -/
def weightIn (a b : Int) (l : List Sample) : Int :=
  (l.map fun s => if a ≤ (ofLex s).1.val ∧ (ofLex s).1.val ≤ b then (ofLex s).2.val else 0).sum

theorem weightIn_bounds (a b : Int) (nonneg : ∀ s ∈ l, 0 ≤ (ofLex s).2.val) :
    0 ≤ weightIn a b l ∧ weightIn a b l ≤ weightSum l := by
  constructor
  · apply sum_nonneg
    intro w listed
    obtain ⟨s, here, rfl⟩ := mem_map.1 listed
    split_ifs
    · exact nonneg s here
    · exact le_rfl
  · apply sum_le_sum
    intro s listed
    split_ifs
    · exact le_rfl
    · exact nonneg s listed

theorem addWeight_val {s : Sample} (nonneg : 0 ≤ (ofLex s).2.val) (before : 0 ≤ acc.val)
    (fits : acc.val + (ofLex s).2.val ≤ 2 ^ 127 - 1) :
    (addWeight acc s).val = acc.val + (ofLex s).2.val := by
  have same : max (ofLex s).2 I128.zero = (ofLex s).2 := max_eq_left nonneg
  rw [addWeight, same, Bounded.saturatingAdd_val (by omega), min_eq_right fits]

theorem foldl_addWeight (acc : I128) (nonneg : ∀ s ∈ l, 0 ≤ (ofLex s).2.val) (before : 0 ≤ acc.val)
    (fits : acc.val + weightSum l ≤ 2 ^ 127 - 1) :
    (l.foldl addWeight acc).val = acc.val + weightSum l := by
  induction l generalizing acc with
  | nil => exact (add_zero _).symm
  | cons s l ih =>
    rw [forall_mem_cons] at nonneg
    have rest := weightIn_bounds 0 0 nonneg.2
    have split : weightSum (s :: l) = (ofLex s).2.val + weightSum l := sum_cons
    rw [split] at fits ⊢
    have sum := addWeight_val nonneg.1 before (by omega)
    rw [foldl_cons, ih _ nonneg.2 (by omega) (by omega), sum, add_assoc]

theorem price_mono {x y : Sample} (ordered : x ≤ y) : (ofLex x).1.val ≤ (ofLex y).1.val := by
  rcases Prod.Lex.le_iff.1 ordered with less | ⟨same, -⟩
  · exact less.le
  · exact (congrArg Subtype.val same).le

/-- The running weight does not reach half of the total before the interval, and reaches it no
later than at the end of the interval. -/
theorem halfway_between (acc : I128) (sorted : l.Pairwise (· ≤ ·))
    (nonneg : ∀ s ∈ l, 0 ≤ (ofLex s).2.val) (before : 0 ≤ acc.val)
    (sum : total.val = acc.val + weightSum l) (below : 2 * acc.val < total.val)
    (ahead : total.val < 2 * weightIn a b l ∨ ∀ s ∈ l, a ≤ (ofLex s).1.val)
    (heavy : total.val < 2 * (acc.val + weightIn a b l)) :
    ∃ p, halfway total acc l = some p ∧ a ≤ p.val ∧ p.val ≤ b := by
  induction l generalizing acc with
  | nil =>
    have none : weightSum [] = 0 := rfl
    omega
  | cons s l ih =>
    rw [forall_mem_cons] at nonneg
    rw [pairwise_cons] at sorted
    have rest := weightIn_bounds a b nonneg.2
    have split : weightSum (s :: l) = (ofLex s).2.val + weightSum l := sum_cons
    have share : weightIn a b (s :: l) = (if a ≤ (ofLex s).1.val ∧ (ofLex s).1.val ≤ b then
      (ofLex s).2.val else 0) + weightIn a b l := sum_cons
    have added := addWeight_val nonneg.1 before (by omega)
    rw [halfway]
    by_cases high : b < (ofLex s).1.val
    · -- Nothing of the interval is left, so half of the total was reached before.
      have nothing : weightIn a b l = 0 := by
        apply sum_eq_zero
        intro w listed
        obtain ⟨x, here, rfl⟩ := mem_map.1 listed
        have later := price_mono (sorted.1 x here)
        exact if_neg (by omega)
      omega
    · by_cases low : (ofLex s).1.val < a
      · have still := ahead.resolve_right fun all => absurd (all s mem_cons_self) (by omega)
        rw [if_neg (by omega)]
        exact ih _ sorted.2 nonneg.2 (by omega) (by omega) (by omega) (.inl (by omega)) (by omega)
      · split_ifs with passed
        · exact ⟨_, rfl, by omega, by omega⟩
        · refine ih _ sorted.2 nonneg.2 (by omega) (by omega) (by omega)
            (.inr fun x here => ?_) (by omega)
          have later := price_mono (sorted.1 x here)
          omega

/-- Prices of an interval that carry most of the weight hold the weighted median. -/
theorem weightedMedian_between (nonneg : ∀ s ∈ samples, 0 ≤ (ofLex s).2.val)
    (fits : weightSum samples ≤ 2 ^ 127 - 1)
    (heavy : weightSum samples < 2 * weightIn a b samples) :
    ∃ p, weightedMedian samples = some p ∧ a ≤ p.val ∧ p.val ≤ b := by
  have perm := perm_insertionSort (· ≤ ·) samples
  have sorted := pairwise_insertionSort (· ≤ ·) samples
  have sums : weightSum (samples.insertionSort (· ≤ ·)) = weightSum samples := (perm.map _).sum_eq
  have shares : weightIn a b (samples.insertionSort (· ≤ ·)) = weightIn a b samples :=
    (perm.map _).sum_eq
  rw [weightedMedian]
  generalize samples.insertionSort (· ≤ ·) = l at perm sorted sums shares
  have nonneg' : ∀ s ∈ l, 0 ≤ (ofLex s).2.val := fun s listed => nonneg s (perm.mem_iff.1 listed)
  have zero : I128.zero.val = 0 := rfl
  have total := foldl_addWeight I128.zero nonneg' le_rfl (by omega)
  have bounds := weightIn_bounds a b nonneg'
  obtain ⟨p, found, between⟩ := halfway_between I128.zero sorted nonneg' le_rfl total (by omega)
    (.inl (by omega)) (by omega : _ < 2 * (_ + weightIn a b l))
  refine ⟨p, ?_, between⟩
  rw [if_neg (by omega), found]
  rfl

theorem halfway_mem (found : halfway total acc l = some p) : ∃ s ∈ l, (ofLex s).1 = p := by
  induction l generalizing acc with
  | nil => cases found
  | cons s l ih =>
    rw [halfway] at found
    split_ifs at found
    · exact ⟨s, mem_cons_self, Option.some.inj found⟩
    · obtain ⟨s', listed, same⟩ := ih found
      exact ⟨s', mem_cons_of_mem s listed, same⟩

/-- The weighted median is one of the prices. -/
theorem weightedMedian_mem (found : weightedMedian samples = some p) :
    ∃ s ∈ samples, (ofLex s).1 = p := by
  have back : ∀ s ∈ samples.insertionSort (· ≤ ·), s ∈ samples := fun s =>
    (perm_insertionSort (· ≤ ·) samples).mem_iff.1
  rw [weightedMedian] at found
  split_ifs at found
  · obtain ⟨s, listed, rfl⟩ := Option.map_eq_some_iff.1 found
    exact ⟨s, back s (mem_of_getElem? listed), rfl⟩
  · rcases Option.or_eq_some_iff.1 found with here | ⟨-, last⟩
    · obtain ⟨s, listed, same⟩ := halfway_mem here
      exact ⟨s, back s listed, same⟩
    · obtain ⟨s, listed, rfl⟩ := Option.map_eq_some_iff.1 last
      exact ⟨s, back s (mem_of_getLast? listed), rfl⟩

end Median

/-- Scaling truncates and saturates downwards. -/
theorem scaleByRatio_mul_le {value : Int} {k : Ratio} (nonneg : 0 ≤ value) (factor : 0 ≤ k.val) :
    scaleByRatio value k * scale ≤ value * k.val := by
  have product := mul_nonneg nonneg factor
  have clamped : 0 ≤ (saturatingMul value k.val).val ∧
      (saturatingMul value k.val).val ≤ value * k.val := by
    change 0 ≤ max (-2 ^ 127) (min (2 ^ 127 - 1) (value * k.val)) ∧
      max (-2 ^ 127) (min (2 ^ 127 - 1) (value * k.val)) ≤ value * k.val
    omega
  calc scaleByRatio value k * scale = (saturatingMul value k.val).val / scale * scale := by
        rw [scaleByRatio, Int.tdiv_eq_ediv_of_nonneg clamped.1]
    _ ≤ (saturatingMul value k.val).val := Int.ediv_mul_le _ (by decide)
    _ ≤ value * k.val := clamped.2

/-! ## Honest records -/

section Records

variable {records : List Authorized} {honest : Key → Bool} {a b : Int} {center : Price}
  (inside : ∀ r ∈ records, honest r.signer = true → a ≤ r.price.val ∧ r.price.val ≤ b)

include inside

theorem center_between (nonneg : ∀ r ∈ records, 0 ≤ r.weight.val)
    (heavy : (records.map (·.weight.val)).sum <
      2 * (records.map fun r => if honest r.signer then r.weight.val else 0).sum)
    (fits : (records.map (·.weight.val)).sum ≤ 2 ^ 127 - 1)
    (median : weightedMedian (records.map (·.sample)) = some center) :
    a ≤ center.val ∧ center.val ≤ b := by
  have sums : weightSum (records.map (·.sample)) = (records.map (·.weight.val)).sum :=
    congrArg List.sum map_map
  have shares : (records.map fun r => if honest r.signer then r.weight.val else 0).sum ≤
      weightIn a b (records.map (·.sample)) := by
    rw [weightIn, map_map]
    apply sum_le_sum
    intro r listed
    split_ifs with trusted
    · exact (if_pos (inside r listed trusted)).ge
    · rw [Function.comp_apply]
      split_ifs
      · exact nonneg r listed
      · exact le_rfl
  have weights : ∀ s ∈ records.map (·.sample), 0 ≤ (ofLex s).2.val := by
    intro s listed
    obtain ⟨r, here, rfl⟩ := mem_map.1 listed
    exact nonneg r here
  obtain ⟨p, found, between⟩ :=
    weightedMedian_between weights (by omega) (by omega : _ < 2 * weightIn a b _)
  rw [median] at found
  cases found
  exact between

/-- Honest prices are at most the length of the interval away from a price inside it. -/
theorem deviation_le (many : records.length < 2 * records.countP fun r => honest r.signer)
    (between : a ≤ center.val ∧ center.val ≤ b) :
    0 ≤ medianAbsoluteDeviation (records.map (·.price)) center ∧
      medianAbsoluteDeviation (records.map (·.price)) center ≤ b - a := by
  have perm := perm_insertionSort (· ≤ ·)
    ((records.map (·.price)).map fun p => |p.val - center.val|)
  have close : (records.countP fun r => honest r.signer) ≤
      (((records.map (·.price)).map fun p => |p.val - center.val|).insertionSort (· ≤ ·)).countP
        (· ≤ b - a) := by
    rw [perm.countP_eq, countP_map, countP_map]
    refine countP_mono_left fun r listed trusted => ?_
    have here := inside r listed trusted
    simp only [Function.comp_apply, decide_eq_true_eq, abs_le]
    omega
  have size := perm.length_eq
  rw [length_map, length_map] at size
  obtain ⟨x, listed, found, small⟩ := lowerMedian_le
    (pairwise_insertionSort (· ≤ ·) _) (size.trans_lt (many.trans_le (Nat.mul_le_mul_left 2 close)))
  rw [medianAbsoluteDeviation, found]
  obtain ⟨p, -, rfl⟩ := mem_map.1 (perm.mem_iff.1 listed)
  exact ⟨abs_nonneg _, small⟩

end Records

namespace Tick

variable {t : Tick} {observations : List PriceObservation} {agg : LocalAggregate} {r : Authorized}

theorem weight_nonneg (kept : r ∈ t.records observations) : 0 ≤ r.weight.val := by
  obtain ⟨s, found⟩ := OrdMap.mem_values.1 kept
  obtain ⟨listed, -, -⟩ := (keepsNewest (observations.filterMap t.authorized) s).2 r found
  obtain ⟨o, -, authorized⟩ := mem_filterMap.1 listed
  exact (authorized_eq_some authorized).2

/-- The price of an aggregate is the center of the kept reports when they do not deviate, and
close to the center otherwise. -/
theorem aggregateLocal_near (done : t.aggregateLocal observations = .ok agg) :
    ∃ center mad, weightedMedian ((t.records observations).map (·.sample)) = some center ∧
      medianAbsoluteDeviation ((t.records observations).map (·.price)) center = mad ∧
      (agg.price = center ∨ |agg.price.val - center.val| ≤ scaleByRatio mad t.cfg.madK) := by
  rw [aggregateLocal] at done
  split_ifs at done
  dsimp only at done
  split at done
  · cases done
  rename_i center found
  refine ⟨center, _, found, rfl, ?_⟩
  rw [gate] at done
  split_ifs at done
  split at done
  · cases done
  rename_i price median
  cases done
  by_cases still : medianAbsoluteDeviation
      ((t.records observations).map (·.price)) center = 0
  · have all : t.survivors (t.records observations) center =
        t.records observations := filter_eq_self.2 fun r _ => by simp [still]
    rw [all, found] at median
    exact .inl (Option.some.inj median.symm)
  · obtain ⟨s, listed, rfl⟩ := weightedMedian_mem median
    obtain ⟨r, survived, rfl⟩ := mem_map.1 listed
    have band := (mem_filter.1 survived).2
    rw [decide_eq_true_eq] at band
    exact .inr (band.resolve_left still)

/-- Honest signers are most of the signers and carry most of the weight, so the price leaves
their interval by no more than the multiple of its length that outlier rejection allows. -/
theorem aggregateLocal_honest {a b : Int} (honest : Key → Bool)
    (inside : ∀ r ∈ t.records observations, honest r.signer = true →
      a ≤ r.price.val ∧ r.price.val ≤ b)
    (many : (t.records observations).length <
      2 * (t.records observations).countP fun r => honest r.signer)
    (heavy : ((t.records observations).map (·.weight.val)).sum <
      2 * ((t.records observations).map fun r =>
        if honest r.signer then r.weight.val else 0).sum)
    (fits : ((t.records observations).map (·.weight.val)).sum ≤ 2 ^ 127 - 1)
    (factor : 0 ≤ t.cfg.madK.val) (done : t.aggregateLocal observations = .ok agg) :
    (a - agg.price.val) * scale ≤ t.cfg.madK.val * (b - a) ∧
      (agg.price.val - b) * scale ≤ t.cfg.madK.val * (b - a) := by
  obtain ⟨center, mad, median, rfl, near⟩ := aggregateLocal_near done
  have between := center_between inside (fun r kept => weight_nonneg kept) heavy fits median
  obtain ⟨nonneg, small⟩ := deviation_le inside many between
  have scaled := (scaleByRatio_mul_le nonneg factor).trans (mul_le_mul_of_nonneg_right small factor)
  have unit : (0 : Int) ≤ scale := by decide
  rw [mul_comm t.cfg.madK.val]
  rcases near with same | close
  · rw [same]
    have room := mul_nonneg (nonneg.trans small) factor
    exact ⟨(mul_nonpos_of_nonpos_of_nonneg (sub_nonpos.2 between.1) unit).trans room,
      (mul_nonpos_of_nonpos_of_nonneg (sub_nonpos.2 between.2) unit).trans room⟩
  · obtain ⟨lower, upper⟩ := abs_le.1 close
    exact ⟨(mul_le_mul_of_nonneg_right (by omega) unit).trans scaled,
      (mul_le_mul_of_nonneg_right (by omega) unit).trans scaled⟩

theorem aggregateLocal_honest_twoOfThree : ∃ agg,
    sampleTick.aggregateLocal
      [sampleReport 1 ⟨100, by decide⟩ 90, sampleReport 2 ⟨102, by decide⟩ 90,
        sampleReport 3 ⟨900, by decide⟩ 90] = .ok agg ∧
    (100 - agg.price.val) * scale ≤ 3000000 * (102 - 100) ∧
    (agg.price.val - 102) * scale ≤ 3000000 * (102 - 100) := by
  cases done : sampleTick.aggregateLocal [sampleReport 1 ⟨100, by decide⟩ 90,
      sampleReport 2 ⟨102, by decide⟩ 90, sampleReport 3 ⟨900, by decide⟩ 90] with
  | error err => exact absurd (show _ = false from congrArg Except.isOk done) (by decide +kernel)
  | ok agg =>
    exact ⟨agg, rfl, aggregateLocal_honest (· < 3) (by decide +kernel) (by decide +kernel)
      (by decide +kernel) (by decide +kernel) (by decide) done⟩

end Tick

end Dexos.Oracle
