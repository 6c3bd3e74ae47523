import Mathlib.Order.Basic

/-!
# Reactions of a state machine

A handler maps a state to a next state and a list of outputs. `Moves` is the closure
of a labelled move relation; a handler is analysed once, by showing that it performs
moves, and every invariant is then proved for one move.
-/

namespace Dexos.Foundations

variable {σ ω ι : Type}

/-- The result of a handler: the next state and the outputs, in order. -/
abbrev Reaction (σ ω : Type) := σ × List ω

namespace Reaction

/-- Nothing changes and nothing is emitted. -/
def idle (s : σ) : Reaction σ ω := (s, [])

/-- Continue with a second handler and append its outputs. -/
def andThen (a : Reaction σ ω) (f : σ → Reaction σ ω) : Reaction σ ω :=
  ((f a.1).1, a.2 ++ (f a.1).2)

/-- React to a list of inputs in order. -/
def run (step : σ → ι → Reaction σ ω) (s : σ) : List ι → Reaction σ ω
  | [] => idle s
  | i :: rest => (step s i).andThen fun s' => run step s' rest

@[simp] theorem idle_state (s : σ) : (idle s : Reaction σ ω).1 = s := rfl

@[simp] theorem idle_outputs (s : σ) : (idle s : Reaction σ ω).2 = [] := rfl

@[simp] theorem andThen_state (a : Reaction σ ω) (f : σ → Reaction σ ω) :
    (a.andThen f).1 = (f a.1).1 := rfl

@[simp] theorem andThen_outputs (a : Reaction σ ω) (f : σ → Reaction σ ω) :
    (a.andThen f).2 = a.2 ++ (f a.1).2 := rfl

theorem run_append (step : σ → ι → Reaction σ ω) (s : σ) (before after : List ι) :
    run step s (before ++ after) = (run step s before).andThen fun s' => run step s' after := by
  induction before generalizing s with
  | nil => rfl
  | cons i rest ih =>
    rw [List.cons_append, run, run]
    simp only [andThen, ih, List.append_assoc]

end Reaction

/-- Finite sequences of moves, with the outputs they emit. -/
inductive Moves (move : σ → List ω → σ → Prop) : σ → List ω → σ → Prop where
  | refl (s : σ) : Moves move s [] s
  | tail {s s' s'' : σ} {os os' : List ω} :
      Moves move s os s' → move s' os' s'' → Moves move s (os ++ os') s''

namespace Moves

variable {move : σ → List ω → σ → Prop} {s s' s'' : σ} {os os' : List ω}

theorem single (h : move s os s') : Moves move s os s' := by
  simpa using (Moves.refl s).tail h

theorem trans (first : Moves move s os s') (second : Moves move s' os' s'') :
    Moves move s (os ++ os') s'' := by
  induction second with
  | refl => simpa using first
  | tail _ last ih =>
    rw [← List.append_assoc]
    exact ih.tail last

theorem history {P : σ → List ω → Prop}
    (keep : ∀ s hist os s', P s hist → move s os s' → P s' (hist ++ os))
    {hist : List ω} (start : P s hist) (moves : Moves move s os s') : P s' (hist ++ os) := by
  induction moves with
  | refl => simpa using start
  | tail _ last ih =>
    rw [← List.append_assoc]
    exact keep _ _ _ _ ih last

theorem invariant {I : σ → Prop} (keep : ∀ s os s', I s → move s os s' → I s')
    (start : I s) (moves : Moves move s os s') : I s' := by
  induction moves with
  | refl => exact start
  | tail _ last ih => exact keep _ _ _ ih last

end Moves

end Dexos.Foundations
