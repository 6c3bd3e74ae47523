import Mathlib.Order.Nat

/-!
# Loops with a bound on their turns

A loop body either fails, leaves with a result or goes on. `loop` runs it for at most a
number of turns and fails when they are used up. A body that keeps an invariant and
decreases a measure below the number of turns never fails.
-/

namespace Dexos.Foundations

variable {σ ρ : Type} {I : σ → Prop}

inductive Turn (σ ρ : Type) where
  | again (s : σ)
  | done (r : ρ)

/-- Run a loop body for at most a number of turns. -/
def loop (body : σ → Option (Turn σ ρ)) : Nat → σ → Option ρ
  | 0, _ => none
  | n + 1, s =>
    match body s with
    | none => none
    | some (.again s') => loop body n s'
    | some (.done r) => some r

/-- Total correctness: the invariant holds before each turn, the measure decreases, and the
result a turn leaves with satisfies the postcondition. -/
theorem loop_total {body : σ → Option (Turn σ ρ)} {Q : ρ → Prop} (μ : σ → Nat)
    (turn : ∀ s, I s → (∃ s', body s = some (.again s') ∧ I s' ∧ μ s' < μ s) ∨
        ∃ r, body s = some (.done r) ∧ Q r)
    {n : Nat} {s : σ} (start : I s) (enough : μ s < n) :
    ∃ r, loop body n s = some r ∧ Q r := by
  induction n generalizing s with
  | zero => exact absurd enough (Nat.not_lt_zero _)
  | succ n ih =>
    rw [loop]
    obtain ⟨s', runs, keeps, less⟩ | ⟨r, runs, post⟩ := turn s start
    · rw [runs]
      exact ih keeps (Nat.lt_of_lt_of_le less (Nat.lt_succ_iff.1 enough))
    · rw [runs]
      exact ⟨r, rfl, post⟩

/-! ## Steps to exhaustion -/

/-- Apply a step as long as there is one, at most a number of times. -/
def exhaust (step : σ → Option σ) : Nat → σ → σ
  | 0, s => s
  | n + 1, s =>
    match step s with
    | none => s
    | some s' => exhaust step n s'

variable {step : σ → Option σ} {s s' : σ} {μ : σ → Nat}

theorem exhaust_of_none (last : step s = none) (n : Nat) : exhaust step n s = s := by
  cases n with
  | zero => rfl
  | succ n => rw [exhaust, last]

/-- Beyond the measure, the number of allowed steps does not matter. -/
theorem exhaust_of_le (less : ∀ s s', step s = some s' → μ s' < μ s) {n : Nat} (enough : μ s ≤ n) :
    exhaust step n s = exhaust step (μ s) s := by
  induction n using Nat.strong_induction_on generalizing s with
  | _ n ih =>
    cases last : step s with
    | none => rw [exhaust_of_none last, exhaust_of_none last]
    | some s' =>
      have smaller := less s s' last
      obtain ⟨m, rfl⟩ : ∃ m, n = m + 1 := ⟨n - 1, by omega⟩
      obtain ⟨k, rank⟩ : ∃ k, μ s = k + 1 := ⟨μ s - 1, by omega⟩
      rw [rank, exhaust, exhaust, last]
      change exhaust step m s' = exhaust step k s'
      rw [ih m (by omega) (by omega)]
      rcases Nat.lt_or_ge k (m + 1) with below | above
      · rw [ih k below (by omega)]
      · omega

/-- A step does not change what exhausting the steps leads to. -/
theorem exhaust_step (less : ∀ s s', step s = some s' → μ s' < μ s) (next : step s = some s') :
    exhaust step (μ s) s = exhaust step (μ s') s' := by
  have smaller := less s s' next
  obtain ⟨k, rank⟩ : ∃ k, μ s = k + 1 := ⟨μ s - 1, by omega⟩
  rw [rank, exhaust, next]
  exact exhaust_of_le less (by omega)

theorem exhaust_done (less : ∀ s s', step s = some s' → μ s' < μ s) (s : σ) :
    step (exhaust step (μ s) s) = none := by
  induction rank : μ s using Nat.strong_induction_on generalizing s with
  | _ n ih =>
    subst rank
    cases next : step s with
    | none => rw [exhaust_of_none next, next]
    | some s' =>
      rw [exhaust_step less next]
      exact ih _ (less s s' next) s' rfl

theorem exhaust_invariant (keep : ∀ s s', step s = some s' → I s → I s') (n : Nat) (start : I s) :
    I (exhaust step n s) := by
  induction n generalizing s with
  | zero => exact start
  | succ n ih =>
    rw [exhaust]
    cases next : step s with
    | none => exact start
    | some s' => exact ih (keep s s' next start)

end Dexos.Foundations
