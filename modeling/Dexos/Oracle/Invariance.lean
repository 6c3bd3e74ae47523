import Mathlib.Data.List.Induction
import Dexos.Oracle.Aggregate

/-!
# What aggregation depends on

The kept reports are determined by the set of reports that are not skipped, except for
their age: of two reports of one signer that agree in sequence, price and capped weight, the
first one is kept. Without such a tie among the reports that none of the signer's supersedes,
the result does not depend on order, repetition or skipped reports.
-/

namespace Dexos.Oracle

open Foundations Clob Risk List

namespace Tick

variable {t : Tick} {observations observations' : List PriceObservation} {o : PriceObservation}
  {r r' : Authorized} {seen : List Authorized} {m : OrdMap Key Authorized} {s : Key}

/-! ## Skipped reports -/

/-- The report is for another market, from a signer who is not authorized for the market,
forged, far in the future or stale. -/
def Rejected (t : Tick) (o : PriceObservation) : Prop :=
  o.marketId ≠ t.marketId ∨ (∀ producer, t.producers.bySigner.get? o.signer = some producer →
      producer.scope.contains t.marketId = false) ∨
    t.verify o = false ∨ t.horizon < o.observedAtNs ∨ t.cfg.maxAgeNs < t.age o

theorem authorized_of_rejected (rejected : t.Rejected o) : t.authorized o = none := by
  unfold authorized
  split
  · rfl
  · rename_i producer found
    refine if_pos ?_
    rcases rejected with market | scope | later
    · exact .inl market
    · exact .inr (.inl (scope producer found))
    · exact .inr (.inr later)

/-- A record has the source of its signer and a weight that is not negative. -/
theorem authorized_eq_some (h : t.authorized o = some r) :
    (∃ producer, t.producers.bySigner.get? r.signer = some producer ∧
      r.sourceBit = producer.sourceBit) ∧ 0 ≤ r.weight.val := by
  unfold authorized at h
  split at h
  · cases h
  · rename_i producer found
    split_ifs at h
    cases h
    exact ⟨⟨producer, found, rfl⟩, le_max_left I128.zero _⟩

/-! ## One report for each signer -/

/-- Each signer's kept record is one of those seen, and none of them supersedes it. -/
def KeepsNewest (seen : List Authorized) (m : OrdMap Key Authorized) : Prop :=
  ∀ s, (m.get? s = none → ∀ r ∈ seen, r.signer ≠ s) ∧
    ∀ r, m.get? s = some r → r ∈ seen ∧ r.signer = s ∧ ∀ r' ∈ seen, r'.signer = s → r'.rank ≤ r.rank

theorem get?_retain (m : OrdMap Key Authorized) (r : Authorized) (s : Key) :
    (retain m r).get? s = if s = r.signer ∧ ∀ old, m.get? s = some old → r.supersedes old
      then some r else m.get? s := by
  unfold retain
  by_cases here : s = r.signer
  · subst here
    cases found : m.get? r.signer with
    | none => simp
    | some old => by_cases newer : r.supersedes old <;> simp [newer, found]
  · rw [if_neg (fun h => here h.1 : ¬ (s = r.signer ∧ _))]
    split_ifs
    · rfl
    · rw [OrdMap.get?_insert, if_neg here]

theorem KeepsNewest.retain (h : KeepsNewest seen m) (r : Authorized) :
    KeepsNewest (seen ++ [r]) (retain m r) := by
  intro s
  rw [get?_retain]
  split_ifs with newer
  · obtain ⟨rfl, supersedes⟩ := newer
    refine ⟨nofun, fun kept same => ?_⟩
    cases same
    refine ⟨by simp, rfl, fun r' listed signer => ?_⟩
    rcases mem_append.1 listed with before | last
    · cases old : m.get? r.signer with
      | none => exact absurd signer ((h r.signer).1 old r' before)
      | some kept =>
        exact (((h r.signer).2 kept old).2.2 r' before signer).trans (supersedes kept old).le
    · rw [mem_singleton.1 last]
  · refine ⟨fun none r' listed signer => ?_, fun kept found => ?_⟩
    · rcases mem_append.1 listed with before | last
      · exact (h s).1 none r' before signer
      · cases mem_singleton.1 last
        exact newer ⟨signer.symm, fun old found => by rw [none] at found; cases found⟩
    · obtain ⟨listed, signer, newest⟩ := (h s).2 kept found
      refine ⟨mem_append_left _ listed, signer, fun r' listed' signer' => ?_⟩
      rcases mem_append.1 listed' with before | last
      · exact newest r' before signer'
      · cases mem_singleton.1 last
        refine not_lt.1 fun above => newer ⟨signer'.symm, fun old here => ?_⟩
        rw [found] at here
        cases here
        exact above

theorem keepsNewest (seen : List Authorized) : KeepsNewest seen (seen.foldl Tick.retain ∅) := by
  induction seen using List.reverseRecOn with
  | nil => exact fun s => ⟨fun _ _ listed => (by cases listed), fun r found => (by cases found)⟩
  | append_singleton seen r ih =>
    rw [foldl_append]
    exact ih.retain r

/-- Records that are seen in both lists and not tied at the top are kept in both. -/
theorem newest_eq {seen' : List Authorized} (same : ∀ r, r ∈ seen ↔ r ∈ seen')
    (untied : ∀ r ∈ seen, ∀ r' ∈ seen, r.signer = r'.signer → r.rank = r'.rank →
      (∀ r'' ∈ seen, r''.signer = r.signer → ¬ r''.supersedes r) → r = r') :
    seen.foldl Tick.retain ∅ = seen'.foldl Tick.retain ∅ := by
  apply OrdMap.ext
  intro s
  obtain ⟨absent, present⟩ := keepsNewest seen s
  obtain ⟨absent', present'⟩ := keepsNewest seen' s
  cases found : (seen.foldl Tick.retain ∅).get? s with
  | none =>
    cases found' : (seen'.foldl Tick.retain ∅).get? s with
    | none => rfl
    | some r' =>
      obtain ⟨listed, signer, -⟩ := present' r' found'
      exact absurd signer (absent found r' ((same r').2 listed))
  | some r =>
    obtain ⟨listed, signer, newest⟩ := present r found
    cases found' : (seen'.foldl Tick.retain ∅).get? s with
    | none => exact absurd signer (absent' found' r ((same r).1 listed))
    | some r' =>
      obtain ⟨listed', signer', newest'⟩ := present' r' found'
      have ranks := le_antisymm (newest' r ((same r).1 listed) signer)
        (newest r' ((same r').2 listed') signer')
      rw [untied r listed r' ((same r').2 listed') (signer.trans signer'.symm) ranks
        fun r'' listed'' own => (newest r'' listed'' (own.trans signer)).not_gt]

/-! ## Invariance -/

/-- Two authorized reports of one signer that have the same rank, and that none of the signer's
supersedes, have the same age. -/
def Untied (t : Tick) (observations : List PriceObservation) : Prop :=
  ∀ r ∈ observations.filterMap t.authorized, ∀ r' ∈ observations.filterMap t.authorized,
    r.signer = r'.signer → r.rank = r'.rank →
    (∀ r'' ∈ observations.filterMap t.authorized, r''.signer = r.signer → ¬ r''.supersedes r) →
    r.age = r'.age

/-- Without ties the result is that of every list with the same reports up to order,
repetition and skipped ones. -/
theorem aggregateLocal_invariant (untied : t.Untied observations)
    (kept : ∀ o ∈ observations, o ∈ observations')
    (added : ∀ o ∈ observations', o ∈ observations ∨ t.Rejected o)
    (short : observations.length ≤ maxAggregationObservations)
    (short' : observations'.length ≤ maxAggregationObservations) :
    t.aggregateLocal observations' = t.aggregateLocal observations := by
  have records : t.records observations = t.records observations' := by
    refine congrArg OrdMap.values (newest_eq (fun r => ?_)
      fun r listed r' listed' signer rank top => ?_)
    · rw [mem_filterMap, mem_filterMap]
      constructor
      · rintro ⟨o, listed, found⟩
        exact ⟨o, kept o listed, found⟩
      · rintro ⟨o, listed, found⟩
        refine ⟨o, (added o listed).resolve_right fun rejected => ?_, found⟩
        simp [authorized_of_rejected rejected] at found
    · have age := untied r listed r' listed' signer rank top
      obtain ⟨o, -, found⟩ := mem_filterMap.1 listed
      obtain ⟨o', -, found'⟩ := mem_filterMap.1 listed'
      obtain ⟨⟨producer, source, bit⟩, -⟩ := authorized_eq_some found
      obtain ⟨⟨producer', source', bit'⟩, -⟩ := authorized_eq_some found'
      rw [signer, source'] at source
      cases source
      obtain ⟨sequence, price, weight⟩ : r.sequence = r'.sequence ∧ r.price = r'.price ∧
          r.weight = r'.weight := by simpa [Authorized.rank] using rank
      cases r
      cases r'
      simp_all
  unfold aggregateLocal
  rw [if_neg short.not_gt, if_neg short'.not_gt, records]

/-- Three producers, with a signature check that accepts every report. -/
def sampleTick : Tick where
  sha256 _ := 0
  verifyEd25519 _ _ _ := true
  marketId := 1
  nowNs := 100
  cfg := ⟨50, 0, 1, 1, units 3000000⟩
  producers := ⟨1, [1, 2, 3].foldl (fun m k =>
    m.insert k ⟨Fin.ofNat 64 k.val, ⟨10, by decide⟩, by decide, .all⟩) ∅⟩

def sampleReport (signer : Key) (price : Price) (observedAtNs : U64) : PriceObservation where
  marketId := 1
  price := price
  confidence := ⟨1, by decide⟩
  observedAtNs := observedAtNs
  sequence := 1
  signer := signer
  signature := 0

/-- Reports of two signers, one of whom supersedes two tied reports. -/
def sampleReports : List PriceObservation :=
  [sampleReport 1 (units 6) 90, sampleReport 1 (units 6) 95, sampleReport 1 (units 7) 90,
    sampleReport 2 (units 8) 91]

/-- The reports in another order, with a repetition and a stranger's report. -/
theorem aggregateLocal_invariant_replay :
    sampleTick.aggregateLocal [sampleReport 2 (units 8) 91, sampleReport 1 (units 7) 90,
      sampleReport 9 (units 8) 90, sampleReport 1 (units 6) 95, sampleReport 1 (units 7) 90,
      sampleReport 1 (units 6) 90] = sampleTick.aggregateLocal sampleReports := by
  refine aggregateLocal_invariant ?_ ?_ (fun o listed => ?_) (by decide) (by decide)
  · unfold Untied
    decide +kernel
  · simp [sampleReports]
  · by_cases stranger : o = sampleReport 9 (units 8) 90
    · subst stranger
      exact .inr (.inr (.inl fun producer found => (by cases found)))
    · simp only [sampleReports, mem_cons, not_mem_nil, or_false, stranger, false_or] at listed ⊢
      tauto

/-- Two reports that differ in their time alone are a tie that their order decides. -/
theorem newestAge_follows_order :
    sampleTick.aggregateLocal [sampleReport 1 (units 7) 90, sampleReport 1 (units 7) 95] ≠
      sampleTick.aggregateLocal [sampleReport 1 (units 7) 95, sampleReport 1 (units 7) 90] := by
  intro same
  have ages := congrArg (fun result => result.toOption.map (·.newestAgeNs)) same
  revert ages
  decide +kernel

end Tick

end Dexos.Oracle
