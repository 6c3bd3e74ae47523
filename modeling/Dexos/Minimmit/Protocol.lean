import Dexos.Foundations.Quorum

/-!
# The Minimmit protocol

The abstract protocol behind the replica: validators add votes to a growing set, and a
correct validator adds one only by the rules. Certificates, tallies, messages and views of
single replicas do not appear; a view is finalized or nullified when enough weight voted
so.

The argument for the nullify rule by contradiction is in `Lawful.contradicted`: whoever
both notarized `c` and nullified the view can point to weight `M` of validators that
deserted `c` for good, and such weight leaves no room for an `L`-notarization of `c`.
-/

namespace Dexos.Minimmit

open Foundations

/-- A vote in one epoch. -/
inductive Vote (Block : Type*) where
  | notarize (view : Nat) (block : Block)
  | nullify (view : Nat)

/-- A population with room for both thresholds, a genesis block and the parent links that
correct validators accept. -/
structure Protocol (V Block : Type*) [DecidableEq V] extends Population V where
  sized : 5 * faultBound + 1 ≤ toPopulation.total
  genesis : Block
  link : Block → Block → Prop

namespace Protocol

variable {V Block : Type*} [DecidableEq V] (p : Protocol V Block)
  {S S' : Set (V × Vote Block)} {v v' : Nat} {b c c' t t' x y : Block}

def advance : Nat := 2 * p.faultBound + 1

def finalize : Nat := p.total - p.faultBound

variable (S : Set (V × Vote Block))

variable (view : Nat)

def Notarized (block : Block) : Prop :=
  p.Supports p.advance fun i => (i, .notarize view block) ∈ S

def Nullified : Prop :=
  p.Supports p.advance fun i => (i, .nullify view) ∈ S

def Finalized (block : Block) : Prop :=
  p.Supports p.finalize fun i => (i, .notarize view block) ∈ S

/-- The block may be the parent of a block of the view: it is notarized in an earlier
view, or genesis, and every view skipped since is nullified. -/
def Supported (block : Block) : Prop :=
  (block = p.genesis ∧ ∀ w < view, p.Nullified S w) ∨
    ∃ u < view, p.Notarized S u block ∧ ∀ w, u < w → w < view → p.Nullified S w

/-- The block extends a supported block. -/
def Justified (block : Block) : Prop :=
  ∃ parent, p.link block parent ∧ p.Supported S view parent

/-- Weight `M` of the view voted to nullify it or for another block. -/
def Contradicts (block : Block) : Prop :=
  p.Supports p.advance fun j =>
    (j, .nullify view) ∈ S ∨ ∃ c', c' ≠ block ∧ (j, .notarize view c') ∈ S

variable {view}

variable {S}

/-- One vote of a correct validator, or any votes of faulty ones. -/
inductive Step (S : Set (V × Vote Block)) : Set (V × Vote Block) → Prop where
  | notarize (i : V) (view : Nat) (block : Block) :
      (∀ c, (i, .notarize view c) ∉ S) → (i, .nullify view) ∉ S → p.Justified S view block →
      Step S (insert (i, .notarize view block) S)
  | timeout (i : V) (view : Nat) :
      (∀ c, (i, .notarize view c) ∉ S) → Step S (insert (i, .nullify view) S)
  | contradict (i : V) (view : Nat) (block : Block) :
      (i, .notarize view block) ∈ S → p.Contradicts S view block →
      Step S (insert (i, .nullify view) S)
  | faulty (T : Set (V × Vote Block)) : (∀ x ∈ T, x.1 ∉ p.correct) → Step S (S ∪ T)

/-- The vote sets of the runs of the protocol. -/
def Reachable (S : Set (V × Vote Block)) : Prop := Relation.ReflTransGen p.Step ∅ S

variable {p}

/-! ## Monotonicity -/

theorem advance_le_finalize : p.advance ≤ p.finalize := by
  have := p.sized
  unfold advance finalize
  omega

theorem Finalized.notarized (h : p.Finalized S v c) : p.Notarized S v c :=
  h.anti advance_le_finalize

theorem Notarized.mono (h : p.Notarized S v c) (sub : S ⊆ S') : p.Notarized S' v c :=
  h.imp fun _ hi => sub hi

theorem Nullified.mono (h : p.Nullified S v) (sub : S ⊆ S') : p.Nullified S' v :=
  h.imp fun _ hi => sub hi

theorem Finalized.mono (h : p.Finalized S v c) (sub : S ⊆ S') : p.Finalized S' v c :=
  h.imp fun _ hi => sub hi

theorem Supported.mono (h : p.Supported S v c) (sub : S ⊆ S') : p.Supported S' v c := by
  rcases h with ⟨root, skipped⟩ | ⟨u, lt, notarized, skipped⟩
  · exact .inl ⟨root, fun w hw => (skipped w hw).mono sub⟩
  · exact .inr ⟨u, lt, notarized.mono sub, fun w low high => (skipped w low high).mono sub⟩

theorem Justified.mono (h : p.Justified S v c) (sub : S ⊆ S') : p.Justified S' v c :=
  let ⟨parent, link, supported⟩ := h
  ⟨parent, link, supported.mono sub⟩

theorem Step.subset (h : p.Step S S') : S ⊆ S' := by
  cases h with
  | notarize | timeout | contradict => exact Set.subset_insert _ _
  | faulty => exact Set.subset_union_left

/-! ## The voting invariant -/

/-- The validator left the block for good: it is faulty, it voted for another block of
the view, or it nullified the view without a vote for the block. -/
def Deserted (p : Protocol V Block) (S : Set (V × Vote Block)) (view : Nat) (block : Block)
    (j : V) : Prop :=
  j ∈ p.correct → (∃ c', c' ≠ block ∧ (j, .notarize view c') ∈ S) ∨
    ((j, .nullify view) ∈ S ∧ (j, .notarize view block) ∉ S)

/-- What the votes of correct validators satisfy in every run. -/
structure Lawful (p : Protocol V Block) (S : Set (V × Vote Block)) : Prop where
  once : ∀ i ∈ p.correct, ∀ v c c', (i, .notarize v c) ∈ S → (i, .notarize v c') ∈ S → c = c'
  justified : ∀ i ∈ p.correct, ∀ v c, (i, .notarize v c) ∈ S → p.Justified S v c
  contradicted : ∀ i ∈ p.correct, ∀ v c, (i, .notarize v c) ∈ S → (i, .nullify v) ∈ S →
    p.Supports p.advance (p.Deserted S v c)

/-- Desertion is for good: no rule lets a correct validator notarize after a nullify. -/
theorem Deserted.step {j : V} (h : p.Deserted S v c j) (step : p.Step S S') :
    p.Deserted S' v c j := by
  intro correct
  rcases h correct with ⟨c', ne, other⟩ | ⟨nullified, silent⟩
  · exact .inl ⟨c', ne, step.subset other⟩
  · refine .inr ⟨step.subset nullified, fun voted => ?_⟩
    cases step with
    | notarize i w d _ open_ =>
      rcases Set.mem_insert_iff.1 voted with eq | old
      · cases eq
        exact open_ nullified
      · exact silent old
    | timeout i w | contradict i w =>
      rcases Set.mem_insert_iff.1 voted with eq | old
      · cases eq
      · exact silent old
    | faulty T bad =>
      rcases voted with old | new
      · exact silent old
      · exact bad _ new correct

/-- A contradiction of a block is a desertion, or some validator already deserted it. -/
theorem Lawful.deserted_of_contradicts (h : p.Lawful S) (contra : p.Contradicts S v c) :
    p.Supports p.advance (p.Deserted S v c) := by
  by_cases both : ∃ j ∈ p.correct, (j, .nullify v) ∈ S ∧ (j, .notarize v c) ∈ S
  · obtain ⟨j, correct, nullified, notarized⟩ := both
    exact h.contradicted j correct v c notarized nullified
  · push Not at both
    refine contra.imp fun j hj correct => ?_
    rcases hj with nullified | other
    · exact .inr ⟨nullified, both j correct nullified⟩
    · exact .inl other

/-- A nullify vote of a validator that has no vote in the view, or deserted the block. -/
theorem Lawful.nullify {i : V} {w : Nat} (h : p.Lawful S) (grown : S ⊆ insert (i, .nullify w) S)
    (deserted : ∀ {w' d}, p.Supports p.advance (p.Deserted S w' d) →
      p.Supports p.advance (p.Deserted (insert (i, .nullify w) S) w' d))
    (own : ∀ c, (i, .notarize w c) ∈ S → i ∈ p.correct → p.Supports p.advance (p.Deserted S w c)) :
    p.Lawful (insert (i, .nullify w) S) := by
  have old : ∀ {j v c}, (j, .notarize v c) ∈ insert (i, .nullify w) S →
      (j, Vote.notarize v c) ∈ S := fun hc => (Set.mem_insert_iff.1 hc).resolve_left (by simp)
  refine ⟨fun j hj v c c' hc hc' => h.once j hj v c c' (old hc) (old hc'),
    fun j hj v c hc => (h.justified j hj v c (old hc)).mono grown, fun j hj v c hc hn => ?_⟩
  rcases Set.mem_insert_iff.1 hn with eq | nullified
  · cases eq
    exact deserted (own c (old hc) hj)
  · exact deserted (h.contradicted j hj v c (old hc) nullified)

theorem Lawful.step (h : p.Lawful S) (step : p.Step S S') : p.Lawful S' := by
  have grown : S ⊆ S' := step.subset
  have deserted : ∀ {w d}, p.Supports p.advance (p.Deserted S w d) →
      p.Supports p.advance (p.Deserted S' w d) := fun old => old.imp fun j hj => hj.step step
  cases step with
  | notarize i w d silent open_ justified =>
    refine ⟨fun j hj v c c' hc hc' => ?_, fun j hj v c hc => ?_, fun j hj v c hc hn => ?_⟩
    · rcases Set.mem_insert_iff.1 hc with eq | old <;>
        rcases Set.mem_insert_iff.1 hc' with eq' | old'
      · cases eq
        cases eq'
        rfl
      · cases eq
        exact absurd old' (silent c')
      · cases eq'
        exact absurd old (silent c)
      · exact h.once j hj v c c' old old'
    · rcases Set.mem_insert_iff.1 hc with eq | old
      · cases eq
        exact justified.mono grown
      · exact (h.justified j hj v c old).mono grown
    · have nullified : (j, .nullify v) ∈ S := by
        rcases Set.mem_insert_iff.1 hn with eq | old
        · cases eq
        · exact old
      rcases Set.mem_insert_iff.1 hc with eq | old
      · cases eq
        exact absurd nullified open_
      · exact deserted (h.contradicted j hj v c old nullified)
  | timeout i w silent => exact h.nullify grown deserted fun c voted => absurd voted (silent c)
  | contradict i w d voted contra =>
    refine h.nullify grown deserted fun c voted' correct => ?_
    rw [h.once i correct w c d voted' voted]
    exact h.deserted_of_contradicts contra
  | faulty T bad =>
    have old : ∀ {j x}, j ∈ p.correct → (j, x) ∈ S ∪ T → (j, x) ∈ S :=
      fun correct hx => hx.resolve_right fun new => bad _ new correct
    exact ⟨fun j hj v c c' hc hc' => h.once j hj v c c' (old hj hc) (old hj hc'),
      fun j hj v c hc => (h.justified j hj v c (old hj hc)).mono grown,
      fun j hj v c hc hn => deserted (h.contradicted j hj v c (old hj hc) (old hj hn))⟩

theorem Reachable.lawful (h : p.Reachable S) : p.Lawful S := by
  induction h with
  | refl => exact ⟨by simp, by simp, by simp⟩
  | tail _ step ih => exact ih.step step

/-! ## Mutual exclusion -/

/-- `L` and `M` overlap in a correct validator. -/
theorem Finalized.exists_correct {q : V → Prop} (h : p.Finalized S v c)
    (hq : p.Supports p.advance q) : ∃ i ∈ p.correct, (i, .notarize v c) ∈ S ∧ q i := by
  refine h.exists_correct_both hq ?_
  unfold advance finalize
  omega

theorem Notarized.exists_correct (h : p.Notarized S v c) :
    ∃ i ∈ p.correct, (i, .notarize v c) ∈ S :=
  Population.Supports.exists_correct h (by unfold advance; omega)

/-- An `L`-notarized block excludes every other notarization of its view. -/
theorem Lawful.notarized_eq (h : p.Lawful S) (final : p.Finalized S v c)
    (notarized : p.Notarized S v c') : c' = c := by
  obtain ⟨i, correct, hc, hc'⟩ := final.exists_correct notarized
  exact h.once i correct v c' c hc' hc

/-- An `L`-notarized block excludes a nullification of its view. -/
theorem Lawful.not_nullified (h : p.Lawful S) (final : p.Finalized S v c) :
    ¬ p.Nullified S v := by
  intro nullified
  obtain ⟨i, correct, notarized, hn⟩ := final.exists_correct nullified
  have deserted := h.contradicted i correct v c notarized hn
  obtain ⟨j, correct', voted, left⟩ := final.exists_correct deserted
  rcases left correct' with ⟨c', ne, other⟩ | ⟨-, silent⟩
  · exact ne (h.once j correct' v c' c other voted)
  · exact silent voted

/-! ## Agreement -/

/-- Parent links lead from the first block to the second. -/
def Descends (p : Protocol V Block) : Block → Block → Prop := Relation.ReflTransGen p.link

/-- Every block notarized after a finalized one descends from it. -/
theorem Lawful.descends (h : p.Lawful S) (final : p.Finalized S v c) (le : v ≤ v')
    (notarized : p.Notarized S v' c') : p.Descends c' c := by
  -- strong induction on the view: a supported parent cannot lie below the finalized view
  induction v' using Nat.strong_induction_on generalizing c' with
  | _ v' ih =>
    rcases le.eq_or_lt with rfl | lt
    · rw [h.notarized_eq final notarized]
      exact .refl
    · obtain ⟨i, correct, voted⟩ := notarized.exists_correct
      obtain ⟨parent, link, supported⟩ := h.justified i correct v' c' voted
      rcases supported with ⟨-, skipped⟩ | ⟨u, below, parentNotarized, skipped⟩
      · exact absurd (skipped v lt) (h.not_nullified final)
      · have kept : v ≤ u := not_lt.1 fun jump => h.not_nullified final (skipped v jump lt)
        exact .head link (ih u below kept parentNotarized)

theorem Lawful.finalized_comparable (h : p.Lawful S) (final : p.Finalized S v t)
    (final' : p.Finalized S v' t') : p.Descends t' t ∨ p.Descends t t' := by
  rcases le_total v v' with le | le
  · exact .inl (h.descends final le final'.notarized)
  · exact .inr (h.descends final' le final.notarized)

/-- The block is an ancestor of an `L`-notarized one. -/
def Settled (p : Protocol V Block) (S : Set (V × Vote Block)) (block : Block) : Prop :=
  ∃ view tip, p.Finalized S view tip ∧ p.Descends tip block

theorem Settled.mono (h : p.Settled S x) (sub : S ⊆ S') : p.Settled S' x :=
  let ⟨view, tip, final, line⟩ := h
  ⟨view, tip, final.mono sub, line⟩

/-- Settled blocks lie on one line. -/
theorem Lawful.settled_comparable (h : p.Lawful S) (unique : Relator.RightUnique p.link)
    (hx : p.Settled S x) (hy : p.Settled S y) : p.Descends x y ∨ p.Descends y x := by
  obtain ⟨v, t, final, line⟩ := hx
  obtain ⟨v', t', final', line'⟩ := hy
  rcases h.finalized_comparable final final' with above | above
  · exact Relation.ReflTransGen.total_of_right_unique unique (above.trans line) line'
  · exact Relation.ReflTransGen.total_of_right_unique unique line (above.trans line')

theorem Descends.height_le {height : Block → Nat}
    (grows : ∀ c b, p.link c b → height c = height b + 1) (h : p.Descends x y) :
    height y < height x ∨ x = y := by
  induction h with
  | refl => exact .inr rfl
  | tail _ link ih =>
    have := grows _ _ link
    rcases ih with lt | rfl <;> left <;> omega

/-- At one height there is one settled block. -/
theorem Lawful.settled_unique (h : p.Lawful S) (unique : Relator.RightUnique p.link)
    {height : Block → Nat} (grows : ∀ c b, p.link c b → height c = height b + 1)
    (hx : p.Settled S x) (hy : p.Settled S y) (same : height x = height y) : x = y := by
  rcases h.settled_comparable unique hx hy with line | line
  · exact (line.height_le grows).resolve_left (by omega)
  · exact ((line.height_le grows).resolve_left (by omega)).symm

end Protocol

end Dexos.Minimmit
