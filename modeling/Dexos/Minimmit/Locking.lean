import Dexos.Minimmit.Replica

/-!
# The locking rule

`select_parent` walks the stored proofs downward from a view, `valid_parent` scans them
upward to it. Both are determined by the proof of the view below: `selectParent_succ` and
`validParent_succ` state the same recursion, so the two agree by induction on the view.
-/

namespace Dexos.Foundations.OrdMap

variable {V : Type}

/-- Below the next key there is one more entry at most. -/
theorem entries_filter_succ (m : OrdMap Nat V) {p : Nat → Bool} {k : Nat} (kept : p k = true) :
    (m.entries.filter fun e => p e.1 && decide (e.1 < k + 1)) =
      (m.entries.filter fun e => p e.1 && decide (e.1 < k)) ++ (m.get? k).toList.map (k, ·) := by
  have other : ∀ j, j ≠ k → (p j && decide (j < k + 1)) = (p j && decide (j < k)) := by
    intro j away
    congr 2
    exact propext (by omega)
  change (m.filter fun j _ => p j && decide (j < k + 1)).entries = _
  cases held : m.get? k with
  | none =>
    have same : (m.filter fun j _ => p j && decide (j < k + 1)) =
        m.filter fun j _ => p j && decide (j < k) := by
      ext1 j
      rw [get?_filter, get?_filter]
      by_cases here : j = k
      · rw [here, held]
        rfl
      · rw [other j here]
    rw [same]
    simp [filter]
  | some v =>
    have grown : (m.filter fun j _ => p j && decide (j < k + 1)) =
        (m.filter fun j _ => p j && decide (j < k)).insert k v := by
      ext1 j
      rw [get?_insert, get?_filter, get?_filter]
      split_ifs with here
      · subst here
        simp [held, kept]
      · rw [other j here]
    rw [grown, entries_insert_last]
    · rfl
    · intro j _ stored
      rw [get?_filter, Option.filter_eq_some_iff] at stored
      simpa using (Bool.and_eq_true_iff.1 stored.2).2

end Dexos.Foundations.OrdMap

namespace Dexos.Minimmit.MinimmitReplica

open Foundations List

variable {C : Crypto} (r : MinimmitReplica C) {view : Nat}

theorem selectParent_first : r.selectParent 0 = some (.genesis r.genesisHash) := by
  simp [selectParent, parentWalk]

/-- The walk stops at a notarization or at a gap, and passes a nullification. -/
theorem selectParent_succ (view : Nat) : r.selectParent (view + 1) =
    match r.proofs.get? view with
    | none => none
    | some (.notarization n) => some ⟨n.blockHash, view⟩
    | some (.nullification _) => r.selectParent view := by
  have below := r.proofs.entries_filter_succ (p := fun _ => true) (k := view) rfl
  simp only [Bool.true_and] at below
  rw [selectParent, below, reverse_append]
  cases r.proofs.get? view with
  | some proof => cases proof <;> simp [parentWalk, selectParent]
  | none =>
    -- the next stored proof, if any, is below the view the walk expects
    cases rest : (r.proofs.entries.filter fun e => decide (e.1 < view)).reverse with
    | nil => simp [parentWalk]
    | cons e tail =>
      have first : e ∈ (r.proofs.entries.filter fun e => decide (e.1 < view)).reverse := by
        simp [rest]
      have low : e.1 < view := by simpa using (mem_filter.1 (mem_reverse.1 first)).2
      simp [parentWalk, low.ne]

theorem nullifiedScan_append (before after : List (Nat × Proof C)) (expected : Nat) :
    nullifiedScan (before ++ after) expected =
      (nullifiedScan before expected).bind (nullifiedScan after) := by
  induction before generalizing expected with
  | nil => rfl
  | cons e rest ih =>
    obtain ⟨skipped, proof⟩ := e
    simp only [cons_append, nullifiedScan]
    split_ifs
    · rfl
    · cases proof with
      | notarization n => rfl
      | nullification n => exact ih (skipped + 1)

theorem nullifiedScan_le {l : List (Nat × Proof C)} {expected reached : Nat}
    (low : ∀ e ∈ l, e.1 < view) (start : expected ≤ view)
    (h : nullifiedScan l expected = some reached) : reached ≤ view := by
  induction l generalizing expected with
  | nil =>
    cases h
    exact start
  | cons e rest ih =>
    obtain ⟨skipped, proof⟩ := e
    have head : skipped < view := low _ mem_cons_self
    simp only [nullifiedScan] at h
    split_ifs at h
    cases proof with
    | notarization n => cases h
    | nullification n => exact ih (fun e he => low e (mem_cons_of_mem _ he)) head h

theorem allNullified_self (view : Nat) : r.allNullified view view = true := by
  have none :
      (r.proofs.entries.filter fun e => decide (view ≤ e.1) && decide (e.1 < view)) = [] := by
    simp
  simp [allNullified, none, nullifiedScan]

theorem allNullified_succ {skippedFrom : Nat} (start : skippedFrom ≤ view) :
    r.allNullified skippedFrom (view + 1) =
      match r.proofs.get? view with
      | some (.nullification _) => r.allNullified skippedFrom view
      | _ => false := by
  have below := r.proofs.entries_filter_succ (p := fun j => decide (skippedFrom ≤ j))
    (decide_eq_true start)
  rw [allNullified, below, nullifiedScan_append, allNullified]
  have bound : ∀ reached, nullifiedScan (r.proofs.entries.filter fun e =>
      decide (skippedFrom ≤ e.1) && decide (e.1 < view)) skippedFrom = some reached →
        reached ≤ view := by
    intro reached
    apply nullifiedScan_le _ start
    intro e he
    simpa using (Bool.and_eq_true_iff.1 (mem_filter.1 he).2).2
  generalize nullifiedScan _ skippedFrom = scanned at bound ⊢
  cases scanned with
  | none => rcases r.proofs.get? view with _ | (_ | _) <;> simp
  | some reached =>
    have := bound reached rfl
    rcases r.proofs.get? view with _ | (_ | _)
    · simp [nullifiedScan]
      omega
    · by_cases here : view = reached <;> simp [nullifiedScan, here]
    · by_cases here : view = reached <;> simp [nullifiedScan, here, eq_comm]

/-- An acceptable parent stands at the view below, if that is notarized, or was acceptable
there, if that is nullified. -/
theorem validParent_succ (real : view < bottomView) (parent : ParentRef C) :
    r.validParent (view + 1) parent = true ↔ match r.proofs.get? view with
      | none => False
      | some (.notarization n) => parent = ⟨n.blockHash, view⟩
      | some (.nullification _) => r.validParent view parent = true := by
  obtain ⟨hash, parentView⟩ := parent
  unfold validParent ParentRef.realView ParentRef.isBottom
  by_cases bottom : parentView = bottomView
  · simp only [bottom, decide_true, if_true, r.allNullified_succ (Nat.zero_le view)]
    rcases r.proofs.get? view with _ | (n | n)
    · simp
    · simp [real.ne']
    · rfl
  · simp only [bottom, decide_false, Bool.false_eq_true, if_false]
    rcases lt_trichotomy parentView view with older | rfl | newer
    · simp only [show ¬ parentView ≥ view + 1 by omega, show ¬ parentView ≥ view by omega, if_false,
        r.allNullified_succ (show parentView + 1 ≤ view by omega)]
      rcases r.proofs.get? view with _ | (n | n)
      · rcases r.proofs.get? parentView with _ | (_ | _) <;> simp
      · rcases r.proofs.get? parentView with _ | (_ | _) <;> simp [older.ne]
      · rfl
    · simp only [show ¬ parentView ≥ parentView + 1 by omega, if_false, allNullified_self]
      rcases r.proofs.get? parentView with _ | (n | n)
      · simp
      · simp [eq_comm]
      · simp
    · simp only [show parentView ≥ view + 1 by omega, show parentView ≥ view by omega, if_true]
      rcases r.proofs.get? view with _ | (n | n) <;> simp [newer.ne']

theorem validParent_first (parent : ParentRef C) :
    r.validParent 0 parent = true ↔ parent = .genesis r.genesisHash := by
  obtain ⟨hash, parentView⟩ := parent
  unfold validParent ParentRef.realView ParentRef.isBottom ParentRef.genesis
  by_cases bottom : parentView = bottomView <;> simp [bottom, allNullified_self]

theorem validParent_iff (real : view ≤ bottomView) (parent : ParentRef C) :
    r.validParent view parent = true ↔ r.selectParent view = some parent := by
  induction view with
  | zero => rw [validParent_first, selectParent_first, Option.some.injEq, eq_comm]
  | succ view ih =>
    rw [validParent_succ r real, selectParent_succ]
    rcases r.proofs.get? view with _ | (n | n)
    · simp
    · simp [eq_comm]
    · exact ih (by omega)

/-- For every proof map and every view, the parent `select_parent` names is the one and only
parent `valid_parent` accepts, and when it names none, none is accepted. -/
theorem selectParent_validParent (r : MinimmitReplica C) (view : UInt64) :
    (∀ parent, r.selectParent view.toNat = some parent → r.validParent view.toNat parent = true ∧
          ∀ other, r.validParent view.toNat other = true → other = parent) ∧
      (r.selectParent view.toNat = none → ∀ parent, r.validParent view.toNat parent = false) := by
  have agree :=
      r.validParent_iff (show view.toNat ≤ bottomView from Nat.le_pred_of_lt view.toNat_lt)
  constructor
  · intro parent selected
    refine ⟨(agree parent).2 selected, fun other valid => ?_⟩
    have named := (agree other).1 valid
    rw [selected, Option.some.injEq] at named
    exact named.symm
  · intro gap parent
    rw [Bool.eq_false_iff, Ne, agree, gap]
    exact Option.some_ne_none parent ∘ Eq.symm

end Dexos.Minimmit.MinimmitReplica
