import Mathlib.Data.List.Forall2

/-!
# Computations that may fail

A computation either returns or stops with an error. The lemmas of this file take apart a
computation that returned: a sequence returned because each of its parts did, and what
every turn of a loop preserves holds when the loop returns.
-/

namespace Dexos.Foundations

open List

variable {ε ε' α β σ : Type} {xs : List α} {a : α} {e : ε} {s : σ} {P : List α → σ → Prop}
  {f : σ → α → Except ε σ} {ys : List β}

/-- Stop with an error unless a condition holds. -/
def require (c : Prop) [Decidable c] (e : ε) : Except ε Unit :=
  if c then .ok () else .error e

/-- Stop with an error when there is no value. -/
def orError (x : Option α) (e : ε) : Except ε α :=
  match x with
  | some a => .ok a
  | none => .error e

@[simp] theorem bind_eq_ok {x : Except ε α} {f : α → Except ε β} {b : β} :
    x >>= f = .ok b ↔ ∃ a, x = .ok a ∧ f a = .ok b := by
  cases x with
  | error e => exact iff_of_false (by rintro ⟨⟩) (by rintro ⟨a, ⟨⟩, -⟩)
  | ok a => exact ⟨fun h => ⟨a, rfl, h⟩, by rintro ⟨a, ⟨⟩, h⟩; exact h⟩

@[simp] theorem bind_eq_error {x : Except ε α} {f : α → Except ε β} :
    x >>= f = .error e ↔ x = .error e ∨ ∃ a, x = .ok a ∧ f a = .error e := by
  cases x with
  | error e' =>
    refine ⟨fun h => .inl (by cases h; rfl), ?_⟩
    rintro (h | ⟨a, ⟨⟩, -⟩)
    cases h
    rfl
  | ok a =>
    refine ⟨fun h => .inr ⟨a, rfl, h⟩, ?_⟩
    rintro (⟨⟨⟩⟩ | ⟨a, ⟨⟩, h⟩)
    exact h

theorem ok_bind (a : α) (f : α → Except ε β) : (Except.ok a >>= f) = f a := rfl

@[simp] theorem pure_eq_ok {b : α} : (pure a : Except ε α) = .ok b ↔ a = b :=
  Except.ok.injEq a b ▸ Iff.rfl

@[simp] theorem require_eq_ok {c : Prop} [Decidable c] {u : Unit} : require c e = .ok u ↔ c := by
  rw [require]
  split_ifs with h
  · exact iff_of_true rfl h
  · exact iff_of_false (by rintro ⟨⟩) h

theorem require_of {c : Prop} [Decidable c] (h : c) (e : ε) : require c e = .ok () :=
  if_pos h

@[simp] theorem orError_eq_ok {x : Option α} : orError x e = .ok a ↔ x = some a := by
  cases x with
  | none => exact iff_of_false (by rintro ⟨⟩) (by rintro ⟨⟩)
  | some b => rw [orError, Except.ok.injEq, Option.some.injEq]

@[simp] theorem orError_eq_error {x : Option α} {e' : ε} :
    orError x e = .error e' ↔ x = none ∧ e = e' := by
  cases x with
  | none => rw [orError, Except.error.injEq, and_iff_right rfl]
  | some b => exact iff_of_false (by rintro ⟨⟩) (by rintro ⟨⟨⟩, -⟩)

@[simp] theorem mapError_eq_ok {f : ε → ε'} {x : Except ε α} :
    x.mapError f = .ok a ↔ x = .ok a := by
  cases x with
  | error e => exact iff_of_false (by rintro ⟨⟩) (by rintro ⟨⟩)
  | ok b => exact ⟨fun h => by cases h; rfl, fun h => by cases h; rfl⟩

@[simp] theorem mapError_eq_error {f : ε → ε'} {x : Except ε α} {e : ε'} :
    x.mapError f = .error e ↔ ∃ d, x = .error d ∧ f d = e := by
  cases x with
  | ok a => simp [Except.mapError]
  | error d => simp [Except.mapError]

@[simp] theorem map_eq_ok {f : α → β} {x : Except ε α} {b : β} :
    f <$> x = .ok b ↔ ∃ a, x = .ok a ∧ f a = b := by
  cases x with
  | error e => exact iff_of_false (by rintro ⟨⟩) (by rintro ⟨a, ⟨⟩, -⟩)
  | ok a => exact ⟨fun h => ⟨a, rfl, Except.ok.inj h⟩, by rintro ⟨a, ⟨⟩, rfl⟩; rfl⟩

/-- What it takes for a computation to return, as one set of rewrite rules: each of its parts
returns, each condition holds, and the values it reads are there. -/
theorem ok_iff :
    (∀ {ε α β : Type} {x : Except ε α} {f : α → Except ε β} {b : β},
      x >>= f = .ok b ↔ ∃ a, x = .ok a ∧ f a = .ok b) ∧
    (∀ {ε α : Type} {a b : α}, (pure a : Except ε α) = .ok b ↔ a = b) ∧
    (∀ {ε : Type} {c : Prop} [Decidable c] {e : ε} {u : Unit}, require c e = .ok u ↔ c) ∧
    (∀ {ε α : Type} {x : Option α} {e : ε} {a : α}, orError x e = .ok a ↔ x = some a) ∧
    ∀ {α β : Type} {a a' : α} {b b' : β}, (a, b) = (a', b') ↔ a = a' ∧ b = b' :=
  ⟨bind_eq_ok, pure_eq_ok, require_eq_ok, orError_eq_ok, .of_eq (Prod.mk.injEq ..)⟩

/-! ## Endings -/

/-- A computation returns a value with a property, or stops with an error of a kind. -/
def Ends (x : Except ε α) (P : α → Prop) (Q : ε → Prop) : Prop :=
  match x with
  | .ok a => P a
  | .error err => Q err

section Endings

variable {x : Except ε α} {f : α → Except ε β} {P P' : α → Prop} {Q Q' : ε → Prop} {R : β → Prop}

theorem Ends.mono (ends : Ends x P Q) (weaker : ∀ a, P a → P' a) : Ends x P' Q := by
  cases x with
  | error err => exact ends
  | ok a => exact weaker a ends

theorem Ends.mono_error (ends : Ends x P Q) (weaker : ∀ err, Q err → Q' err) : Ends x P Q' := by
  cases x with
  | error err => exact weaker err ends
  | ok a => exact ends

theorem Ends.and_eq (ends : Ends x P Q) : Ends x (fun a => x = .ok a ∧ P a) Q := by
  cases x with
  | error err => exact ends
  | ok a => exact ⟨rfl, ends⟩

/-- A sequence ends well when its second part does after every value of the first. -/
theorem Ends.bind (first : Ends x P Q) (next : ∀ a, P a → Ends (f a) R Q) : Ends (x >>= f) R Q := by
  cases x with
  | error err => exact first
  | ok a => exact next a first

theorem Ends.of_error {err : ε} (ends : Ends x P Q) (failed : x = .error err) : Q err := by
  rwa [failed] at ends

theorem Ends.of_ok (ends : Ends x P Q) (returned : x = .ok a) : P a := by
  rwa [returned] at ends

end Endings

/-! ## Loops -/

theorem mapM_eq_ok {f : α → Except ε β} :
    xs.mapM f = .ok ys ↔ List.Forall₂ (fun x y => f x = .ok y) xs ys := by
  induction xs generalizing ys with
  | nil => rw [mapM_nil, pure_eq_ok, forall₂_nil_left_iff, eq_comm]
  | cons x rest ih =>
    simp only [mapM_cons, bind_eq_ok, pure_eq_ok, forall₂_cons_left_iff]
    constructor
    · rintro ⟨y, first, ys', later, rfl⟩
      exact ⟨y, ys', first, ih.1 later, rfl⟩
    · rintro ⟨y, ys', first, later, rfl⟩
      exact ⟨y, first, ys', ih.2 later, rfl⟩

theorem forM_eq_ok {f : α → Except ε Unit} : xs.forM f = .ok () ↔ ∀ x ∈ xs, f x = .ok () := by
  induction xs with
  | nil => exact ⟨fun _ x listed => absurd listed not_mem_nil, fun _ => rfl⟩
  | cons x rest ih =>
    change (f x >>= fun _ => rest.forM f) = .ok () ↔ _
    rw [bind_eq_ok, forall_mem_cons]
    constructor
    · rintro ⟨⟨⟩, first, later⟩
      exact ⟨first, ih.1 later⟩
    · rintro ⟨first, later⟩
      exact ⟨⟨⟩, first, ih.2 later⟩

theorem of_toOption {x : Except ε α} {a : α} (h : x.toOption = some a) : x = .ok a := by
  cases x <;> simp_all [Except.toOption]

/-- Every element of the second list is related to one of the first. -/
theorem exists_of_forall₂ {R : α → β → Prop} (related : Forall₂ R xs ys) {y : β} (listed : y ∈ ys) :
    ∃ x ∈ xs, R x y := by
  induction related with
  | nil => cases listed
  | cons first rest ih =>
    obtain rfl | later := mem_cons.1 listed
    · exact ⟨_, mem_cons_self, first⟩
    · obtain ⟨x, member, holds⟩ := ih later
      exact ⟨x, mem_cons_of_mem _ member, holds⟩

theorem of_mem_mapM {f : α → Except ε β} (done : xs.mapM f = .ok ys) {y : β} (listed : y ∈ ys) :
    ∃ x ∈ xs, f x = .ok y :=
  exists_of_forall₂ (mapM_eq_ok.1 done) listed

/-- A loop whose turns all end well ends well. -/
theorem foldlM_ends {Q : ε → Prop} (start : P [] s)
    (turn : ∀ seen x rest s, xs = seen ++ x :: rest → P seen s → Ends (f s x) (P (seen ++ [x])) Q) :
    Ends (xs.foldlM f s) (P xs) Q := by
  have run : ∀ (rest seen : List α) (s : σ), xs = seen ++ rest → P seen s →
      Ends (rest.foldlM f s) (P xs) Q := by
    intro rest
    induction rest with
    | nil =>
      intro seen s whole held
      rw [append_nil] at whole
      exact whole ▸ held
    | cons x rest ih =>
      intro seen s whole held
      apply (turn seen x rest s whole held).bind
      intro s₁ kept
      exact ih (seen ++ [x]) s₁ (by simp [whole]) kept
  exact run xs [] s rfl start

/-- A loop that returned keeps what each turn keeps, stated of the elements seen so far. -/
theorem foldlM_induction {s' : σ} (start : P [] s)
    (turn : ∀ seen x rest s s', xs = seen ++ x :: rest → P seen s → f s x = .ok s' →
      P (seen ++ [x]) s') (returned : xs.foldlM f s = .ok s') : P xs s' := by
  have ended : Ends (xs.foldlM f s) (P xs) fun _ => True := by
    apply foldlM_ends start
    intro seen x rest s whole held
    cases stepped : f s x with
    | ok s₁ => exact turn seen x rest s s₁ whole held stepped
    | error err => trivial
  exact ended.of_ok returned

/-- A loop whose turns all keep a property keeps it. -/
theorem foldlM_keeps {P : σ → Prop} {s' : σ} (start : P s)
    (turn : ∀ x ∈ xs, ∀ s s', P s → f s x = .ok s' → P s') (returned : xs.foldlM f s = .ok s') :
    P s' := by
  refine foldlM_induction (P := fun _ s => P s) start ?_ returned
  intro seen x rest s s₁ whole held stepped
  exact turn x (by simp [whole]) s s₁ held stepped

/-- A loop whose turns all return does return. -/
theorem foldlM_returns (start : P [] s)
    (turn : ∀ seen x rest s, xs = seen ++ x :: rest → P seen s →
      ∃ s', f s x = .ok s' ∧ P (seen ++ [x]) s') : ∃ s', xs.foldlM f s = .ok s' ∧ P xs s' := by
  have ended : Ends (xs.foldlM f s) (P xs) fun _ => False := by
    apply foldlM_ends start
    intro seen x rest s whole held
    obtain ⟨s', stepped, kept⟩ := turn seen x rest s whole held
    rwa [stepped]
  cases done : xs.foldlM f s with
  | error err =>
    rw [done] at ended
    exact ended.elim
  | ok s' =>
    rw [done] at ended
    exact ⟨s', rfl, ended⟩

theorem foldlM_congr {f g : σ → α → Except ε σ} (same : ∀ x ∈ xs, ∀ s, f s x = g s x) (s : σ) :
    xs.foldlM f s = xs.foldlM g s := by
  induction xs generalizing s with
  | nil => rfl
  | cons x rest ih =>
    rw [foldlM_cons, same x mem_cons_self]
    refine congrArg (_ >>= ·) (funext fun s₁ => ?_)
    exact ih (fun y listed => same y (mem_cons_of_mem x listed)) s₁

end Dexos.Foundations
