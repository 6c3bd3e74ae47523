import Dexos.Minimmit.Halting

/-!
# The finalization loop

`consensus_finalize` walks the stored headers from a tip back to the chain and appends
them, oldest first. This module says what the walk finds and what the loop then does, for
headers of any height and parent. The loop stops at the first height that another block
holds and keeps what it appended before, so a call finalizes all or nothing exactly when
it does not stop after its first block.
-/

namespace Dexos.Minimmit.MinimmitReplica

open Foundations List OrdMap Reaction

variable {C : Crypto} {A : Set (Nat × C.Hash)} {r r' s : MinimmitReplica C}
  {os : List (Output C)} {block tip : C.Hash} {path path' : List (Nat × Nat × C.Hash)}

/-! ## The walk to the chain -/

/-- The stored headers between the chain and the block, oldest first. -/
inductive Line (r : MinimmitReplica C) : C.Hash → List (Nat × Nat × C.Hash) → Prop where
  | held {block : C.Hash} : block ∈ r.chain.values → Line r block []
  | stored {block : C.Hash} {view : Nat} {header : BlockHeader C}
      {path : List (Nat × Nat × C.Hash)} :
      block ∉ r.chain.values → r.blocks.get? block = some (view, header) →
      Line r header.parentHash path → Line r block (path ++ [(header.height, view, block)])

/-- Stored headers lead from the block back to the chain. -/
def Connected (r : MinimmitReplica C) (block : C.Hash) : Prop := ∃ path, Line r block path

theorem Line.unique (h : Line r block path) (h' : Line r block path') : path = path' := by
  induction h generalizing path' with
  | held mem =>
    cases h' with
    | held => rfl
    | stored off => exact absurd mem off
  | stored off found _ ih =>
    cases h' with
    | held mem => exact absurd mem off
    | stored _ found' line =>
      rw [found] at found'
      cases found'
      rw [ih line]

/-- Every block of the line is a stored header off the chain, with a line no longer. -/
theorem Line.entry (h : Line r block path) : ∀ e ∈ path, e.2.2 ∉ r.chain.values ∧
    (∃ header, r.blocks.get? e.2.2 = some (e.2.1, header) ∧ header.height = e.1) ∧
    ∃ path', Line r e.2.2 path' ∧ path'.length ≤ path.length := by
  induction h with
  | held => simp
  | stored off found line ih =>
    refine forall_mem_snoc.2
      ⟨fun e old => ?_, off, ⟨_, found, rfl⟩, _, .stored off found line, le_rfl⟩
    obtain ⟨out, stored, path', line', short⟩ := ih e old
    exact ⟨out, stored, path', line', short.trans (by simp)⟩

/-- The blocks of a line are distinct: a repeated one would have lines of two lengths. -/
theorem Line.nodup (h : Line r block path) : (path.map (·.2.2)).Nodup := by
  induction h with
  | held => exact nodup_nil
  | stored off found line ih =>
    rw [map_append]
    refine nodup_snoc.2 ⟨ih, fun old => ?_⟩
    obtain ⟨e, he, same⟩ := mem_map.1 old
    obtain ⟨-, -, path', line', short⟩ := line.entry e he
    rw [same] at line'
    rw [line'.unique (.stored off found line)] at short
    simp at short

theorem Line.getLast? (h : Line r block path) (off : block ∉ r.chain.values) :
    path.getLast?.map (·.2.2) = some block := by
  cases h with
  | held mem => exact absurd mem off
  | stored => simp

theorem Line.walkPath (h : Line r block path) {fuel : Nat} (enough : path.length < fuel)
    (acc : List (Nat × Nat × C.Hash)) : r.walkPath fuel block acc = some (path ++ acc) := by
  induction h generalizing fuel acc with
  | held mem =>
    obtain ⟨fuel, rfl⟩ : ∃ k, fuel = k + 1 := ⟨fuel - 1, by omega⟩
    rw [MinimmitReplica.walkPath, if_pos mem, nil_append]
  | stored off found _ ih =>
    rw [length_append, length_singleton] at enough
    obtain ⟨fuel, rfl⟩ : ∃ k, fuel = k + 1 := ⟨fuel - 1, by omega⟩
    rw [MinimmitReplica.walkPath, if_neg off, found, append_assoc]
    exact ih (by omega) _

theorem line_of_walkPath {fuel : Nat} {acc found : List (Nat × Nat × C.Hash)}
    (h : r.walkPath fuel block acc = some found) :
    ∃ path, found = path ++ acc ∧ Line r block path := by
  induction fuel generalizing block acc with
  | zero => cases h
  | succ fuel ih =>
    rw [walkPath] at h
    split_ifs at h with mem
    · cases h
      exact ⟨[], rfl, .held mem⟩
    · split at h
      · cases h
      · rename_i stored
        obtain ⟨path, rfl, line⟩ := ih h
        exact ⟨_, by rw [append_assoc, singleton_append], .stored mem stored line⟩

theorem length_le_size {K V : Type} [LinearOrder K] {m : OrdMap K V} {seen : List K}
    (nodup : seen.Nodup) (sub : ∀ k ∈ seen, m.contains k = true) : seen.length ≤ m.size := by
  have subset : seen ⊆ m.keys := fun k hk =>
    mem_keys.2 (contains_iff.1 (sub k hk))
  calc seen.length ≤ m.keys.length := (nodup.subperm subset).length_le
    _ = m.size := by simp [OrdMap.keys, OrdMap.size]

/-- The fuel of the walk suffices: no header is visited twice. -/
theorem walkPath_iff : r.walkPath (r.blocks.size + 1) tip [] = some path ↔ Line r tip path := by
  constructor
  · intro walked
    obtain ⟨path, rfl, line⟩ := line_of_walkPath walked
    rwa [append_nil]
  · intro line
    have stored : ∀ k ∈ path.map (·.2.2), r.blocks.contains k = true := by
      intro k hk
      obtain ⟨e, he, rfl⟩ := mem_map.1 hk
      obtain ⟨-, ⟨header, found, -⟩, -⟩ := line.entry e he
      exact contains_iff.2 ⟨_, found⟩
    have bound := length_le_size line.nodup stored
    rw [length_map] at bound
    rw [line.walkPath (Nat.lt_succ_of_le bound), append_nil]

/-! ## Extending the chain -/

/-- Only heights of the chain have a stage. -/
def Synced (r : MinimmitReplica C) : Prop :=
  ∀ height, r.chain.get? height = none → r.finality.get? height = none

theorem Synced.complete (h : Synced r) (height : Nat) :
    Synced (r.tryCompleteFinality height).1 := by
  rcases r.tryCompleteFinality_cases height with ⟨root, cert, view, block, -, stage, eq⟩ | ⟨-, eq⟩
  · rw [eq]
    intro n free
    simp only [get?_insert]
    split_ifs with this
    · rw [this] at free
      simp [h height free] at stage
    · exact h n free
  · rwa [eq]

theorem Synced.extended (h : Synced r) (height blockView : Nat) (block : C.Hash) :
    Synced (r.extended height blockView block).1 := by
  refine Synced.complete (fun n free => ?_) height
  simp only [recorded, get?_insert] at free ⊢
  split_ifs at free ⊢
  exact h n free

theorem Synced.leaf {P : Policy C} (h : Synced r) (move : Leaf P A r os r') : Synced r' := by
  cases move with
  | extend _ _ entry | extendSilently _ _ entry => exact h.extended _ _ _
  | complete height => exact h.complete height
  | park a header cert => rwa [park_frame]
  | _ => exact h

/-- The heights of the path are distinct and not in the chain. -/
def Free (r : MinimmitReplica C) (path : List (Nat × Nat × C.Hash)) : Prop :=
  (∀ e ∈ path, r.chain.get? e.1 = none) ∧ path.Pairwise (·.1 ≠ ·.1)

/-- Once the head is appended the rest of the path must fit. -/
theorem free_cons {entry : Nat × Nat × C.Hash} (none : r.chain.get? entry.1 = none) :
    r.Free (entry :: path) ↔ (r.extended entry.1 entry.2.1 entry.2.2).1.Free path := by
  have later (e : Nat × Nat × C.Hash) :
      (r.extended entry.1 entry.2.1 entry.2.2).1.chain.get? e.1 = .none ↔
        r.chain.get? e.1 = .none ∧ entry.1 ≠ e.1 := by
    rw [extended_chain, get?_insert]
    split_ifs with this
    · simp [this]
    · simp [Ne.symm this]
  simp only [Free, forall_mem_cons, pairwise_cons, none, later, true_and, forall₂_and]
  tauto

/-- Extending never replaces a block of the chain. -/
theorem extendChain_keeps {height : Nat} (held : r.chain.get? height = some block) :
    (r.extendChain path []).1.chain.get? height = some block := by
  induction path generalizing r with
  | nil => exact held
  | cons entry rest ih =>
    obtain ⟨n, view, b⟩ := entry
    simp only [extendChain]
    split_ifs with conflict final
    · exact held
    · exact ih held
    · rw [extendChain_accumulate]
      refine ih (r := (r.extended n view b).1) ?_
      rw [extended_chain, get?_insert]
      split_ifs with this
      · subst this
        rw [held] at conflict
        simpa using Eq.symm (by simpa using conflict)
      · exact held

def finals (outputs : List (Output C)) : List (Nat × C.Hash) :=
  outputs.filterMap fun
    | .effect (.consensusFinal block height) => some (height, block)
    | _ => none

theorem finals_extended (entry : Nat × Nat × C.Hash) (rest : List (Output C)) :
    finals (.effect (.consensusFinal entry.2.2 entry.1) ::
      (r.extended entry.1 entry.2.1 entry.2.2).2 ++ rest) = (entry.1, entry.2.2) ::
        finals rest := by
  have silent : finals (r.extended entry.1 entry.2.1 entry.2.2).2 = [] := by
    refine filterMap_eq_nil_iff.2 fun o ho => ?_
    obtain ⟨block, rfl⟩ := complete_outputs _ _ o ho
    rfl
  rw [finals] at silent
  rw [cons_append, finals, filterMap_cons, filterMap_append, silent]
  rfl

/-- With all heights free every block of the path is appended and announced. -/
theorem extendChain_free (synced : Synced r) (free : r.Free path) :
    ∃ outs, (r.extendChain path []).2 = some outs ∧
      finals outs = path.map (fun e => (e.1, e.2.2)) ∧ ∀ height block,
        (r.extendChain path []).1.chain.get? height = some block ↔
          r.chain.get? height = some block ∨ (height, block) ∈ finals outs := by
  induction path generalizing r with
  | nil => exact ⟨[], rfl, rfl, by simp [extendChain, finals]⟩
  | cons entry rest ih =>
    have none := free.1 entry mem_cons_self
    obtain ⟨outs, result, announced, chain⟩ :=
      ih (synced.extended _ _ _) ((free_cons none).1 free)
    rw [extendChain_cons rest (by simp [none]) (synced _ none), result]
    refine ⟨_, rfl, by rw [finals_extended, announced, map_cons], fun height block => ?_⟩
    rw [chain, finals_extended, extended_chain, get?_insert]
    split_ifs with this
    · simp [this, none, eq_comm]
    · simp [this]

/-- A block off the chain stops at a height that is taken. -/
theorem extendChain_taken {entry : Nat × Nat × C.Hash} (off : entry.2.2 ∉ r.chain.values)
    (taken : r.chain.get? entry.1 ≠ none) (rest : List (Nat × Nat × C.Hash)) :
    r.extendChain (entry :: rest) [] = (r, none) := by
  obtain ⟨b, found⟩ := Option.ne_none_iff_exists'.1 taken
  rw [extendChain, if_pos]
  rw [found, Option.any_some, decide_eq_true_iff]
  rintro rfl
  exact off (mem_values.2 ⟨_, found⟩)

/-- Otherwise the loop stops before its last block and announces nothing. -/
theorem extendChain_stops (synced : Synced r) (off : ∀ e ∈ path, e.2.2 ∉ r.chain.values)
    (nodup : (path.map (·.2.2)).Nodup) (taken : ¬ r.Free path) :
    (r.extendChain path []).2 = none ∧ ∀ e, path.getLast? = some e →
      e.2.2 ∉ (r.extendChain path []).1.chain.values := by
  induction path generalizing r with
  | nil => exact absurd ⟨by simp, .nil⟩ taken
  | cons entry rest ih =>
    by_cases none : r.chain.get? entry.1 = none
    · obtain ⟨new, nodup⟩ := nodup_cons.1 nodup
      rw [free_cons none] at taken
      have off' : ∀ e ∈ rest, e.2.2 ∉ (r.extended entry.1 entry.2.1 entry.2.2).1.chain.values := by
        intro e he mem
        obtain ⟨n, found⟩ := mem_values.1 mem
        rw [extended_chain, get?_insert] at found
        split_ifs at found
        · exact new (mem_map.2 ⟨e, he, (Option.some.inj found).symm⟩)
        · exact off e (mem_cons_of_mem _ he) (mem_values.2 ⟨n, found⟩)
      obtain ⟨stopped, last⟩ := ih (synced.extended _ _ _) off' nodup taken
      rw [extendChain_cons rest (by simp [none]) (synced _ none), stopped]
      refine ⟨rfl, fun e he => last e ?_⟩
      cases rest with
      | nil => exact absurd ⟨by simp, .nil⟩ taken
      | cons => exact he
    · rw [extendChain_taken (off entry mem_cons_self) none]
      exact ⟨rfl, fun e he => off e (mem_of_getLast? he)⟩

/-! ## Calls -/

/-- The view is beyond the finalized tip's. -/
def Advances (r : MinimmitReplica C) (view : Nat) : Prop :=
  r.finalizedTip.1 = bottomView ∨ r.finalizedTip.1 < view

theorem consensusFinalize_idle {view : Nat} (h : ¬ (Advances r view ∧ Connected r tip)) :
    r.consensusFinalize view tip = .idle r := by
  unfold consensusFinalize
  split_ifs with stale
  · rfl
  · cases walked : r.walkPath (r.blocks.size + 1) tip [] with
    | none => rfl
    | some path =>
      refine absurd ⟨?_, path, walkPath_iff.1 walked⟩ h
      unfold Advances
      omega

theorem consensusFinalize_line {view : Nat} (advances : Advances r view) (line : Line r tip path) :
    ((r.extendChain path []).2 = none →
        r.consensusFinalize view tip = ((r.extendChain path []).1, [])) ∧
      ∀ outs, (r.extendChain path []).2 = some outs → r.consensusFinalize view tip =
        ({ (r.extendChain path []).1 with finalizedTip := (view, tip) }.prune
          (view - defaultViewHorizon), outs) := by
  unfold consensusFinalize
  rw [if_neg (by unfold Advances at advances; omega), walkPath_iff.2 line]
  simp only
  obtain ⟨extended, result⟩ := r.extendChain path []
  constructor
  · rintro ⟨⟩
    rfl
  · rintro outs ⟨⟩
    rfl

/-- A call writes nothing, or it finalizes the tip and announces each height that it
appends to the chain once. -/
def AllOrNothing (r : MinimmitReplica C) (view : Nat) (tip : C.Hash) : Prop :=
  let x := r.consensusFinalize view tip
  (x.1.chain = r.chain ∧ x.1.finality = r.finality ∧ x.1.execVotes = r.execVotes ∧
      x.1.execCertificates = r.execCertificates ∧ x.1.finalizedTip = r.finalizedTip) ∨
    (x.1.finalizedTip = (view, tip) ∧ ((finals x.2).map Prod.fst).Nodup ∧
      ∀ height block, (height, block) ∈ finals x.2 ↔
        r.chain.get? height = none ∧ x.1.chain.get? height = some block)

/-- The view is fresh, the oldest header between the chain and the tip fits onto the chain
and a later one does not: its height is in the chain or on the path before it. -/
def Torn (r : MinimmitReplica C) (view : Nat) (tip : C.Hash) : Prop :=
  Advances r view ∧ ∃ first rest, Line r tip (first :: rest) ∧
    r.chain.get? first.1 = none ∧ ¬ r.Free (first :: rest)

theorem Synced.allOrNothing_iff (synced : Synced r) (view : Nat) (tip : C.Hash) :
    r.AllOrNothing view tip ↔ ¬ r.Torn view tip := by
  by_cases walks : Advances r view ∧ Connected r tip
  · obtain ⟨advances, path, line⟩ := walks
    obtain ⟨stops, appends⟩ := consensusFinalize_line advances line
    have torn_iff : r.Torn view tip ↔
        (∃ first rest, path = first :: rest ∧ r.chain.get? first.1 = none) ∧ ¬ r.Free path := by
      constructor
      · rintro ⟨-, first, rest, line', none, taken⟩
        rw [line.unique line']
        exact ⟨⟨first, rest, rfl, none⟩, taken⟩
      · rintro ⟨⟨first, rest, rfl, none⟩, taken⟩
        exact ⟨advances, first, rest, line, none, taken⟩
    rw [torn_iff]
    by_cases free : r.Free path
    · obtain ⟨outs, result, announced, chain⟩ := extendChain_free synced free
      refine iff_of_true (.inr ?_) fun torn => torn.2 free
      rw [appends outs result]
      refine ⟨rfl, ?_, fun height block => ?_⟩
      · rw [announced, map_map]
        exact pairwise_map.2 free.2
      · rw [announced]
        constructor
        · intro mem
          obtain ⟨e, he, rfl, rfl⟩ : ∃ e ∈ path, e.1 = height ∧ e.2.2 = block := by simpa using mem
          exact ⟨free.1 e he, (chain _ _).2 (.inr (announced ▸ mem))⟩
        · rintro ⟨none, held⟩
          rcases (chain _ _).1 held with old | new
          · simp [none] at old
          · rwa [announced] at new
    · obtain ⟨stopped, -⟩ := extendChain_stops synced (fun e he => (line.entry e he).1)
        line.nodup free
      unfold AllOrNothing
      rw [stops stopped]
      cases path with
      | nil => exact absurd ⟨by simp, .nil⟩ free
      | cons first rest =>
        by_cases none : r.chain.get? first.1 = none
        · refine iff_of_false ?_ (not_not.2 ⟨⟨first, rest, rfl, none⟩, free⟩)
          -- the first block is appended and stays, unannounced
          have held : (r.extendChain (first :: rest) []).1.chain.get? first.1 = some first.2.2 := by
            rw [extendChain_cons rest (by simp [none]) (synced _ none)]
            apply extendChain_keeps
            rw [extended_chain, get?_insert_self]
          rintro (⟨same, -⟩ | ⟨-, -, announced⟩)
          · rw [same, none] at held
            cases held
          · cases (announced first.1 first.2.2).2 ⟨none, held⟩
        · rw [extendChain_taken (line.entry first mem_cons_self).1 none]
          refine iff_of_true (.inl ⟨rfl, rfl, rfl, rfl, rfl⟩) ?_
          rintro ⟨⟨_, _, ⟨⟩, fits⟩, -⟩
          exact none fits
  · refine iff_of_true (.inl ?_) fun torn => ?_
    · rw [consensusFinalize_idle walks]
      exact ⟨rfl, rfl, rfl, rfl, rfl⟩
    · obtain ⟨advances, first, rest, line, -⟩ := torn
      exact walks ⟨advances, _, line⟩

/-- A state the replica passes through, between the moves of a call too. -/
def Passes (r s : MinimmitReplica C) : Prop :=
  ∃ calls os A, Moves (Move Policy.any) ((run call r calls).1, Set.univ) os (s, A)

theorem Passes.synced (passes : Passes r s) (boot : Booted r) : Synced s := by
  obtain ⟨calls, os, A, moves⟩ := passes
  have start : Synced r := by
    obtain ⟨_, _, _, _, _, rfl⟩ := boot.eq_initial
    exact fun _ _ => rfl
  have held : Synced (run call r calls).1 :=
    run_invariant (fun _ _ _ h move => h.leaf move) (fun _ _ h => h) (fun _ _ _ _ h => h)
      boot.ready start calls
  exact Moves.invariant (I := fun s => Synced s.1) (fun _ _ _ h move => h.leaf move.1) held moves

/-- In every state that a replica passes through a call is all or nothing exactly when it
is not torn. -/
theorem allOrNothing_iff_not_torn (boot : Booted r) (passes : Passes r s) (view : Nat)
    (tip : C.Hash) : s.AllOrNothing view tip ↔ ¬ s.Torn view tip :=
  (passes.synced boot).allOrNothing_iff view tip

/-- A child of the first block, proposed in view 1. -/
def childBlock (height : Nat) : BlockHeader ideal := ⟨height, firstBlock.hash, (0 : Nat)⟩

def childProposal (height : Nat) : Propose ideal where
  epoch := 0
  view := 1
  block := childBlock height
  blockHash := (childBlock height).hash
  parent := ⟨firstBlock.hash, 0⟩
  proposerIndex := 1
  notarizeSig := ((1 : Nat), notarizeDigest (C := ideal) 0 1 (childBlock height).hash)
  proposeSig := ((1 : Nat), proposeAuth (C := ideal) 0 1 (childBlock height).hash firstBlock.hash 0)

/-- Validator 0 advances on its own first block and is then told that the child is valid. -/
def childRun (height : Nat) : List (Call ideal) :=
  [.step (.message (.propose firstProposal)), .step (.proposalVerified 0 firstBlock.hash true),
    .step (.message (.propose (childProposal height))),
    .step (.proposalVerified 1 (childBlock height).hash true)]

/-- Finalizing a child at height 2 appends both blocks. -/
theorem allOrNothing_child : ∃ r s : MinimmitReplica ideal, Booted r ∧ Passes r s ∧
    (s.AllOrNothing 1 (childBlock 2).hash ↔ ¬ s.Torn 1 (childBlock 2).hash) ∧
    s.chain.entries = [(0, firstBlock.parentHash)] ∧
    (s.consensusFinalize 1 (childBlock 2).hash).1.chain.entries =
      [(0, firstBlock.parentHash), (1, firstBlock.hash), (2, (childBlock 2).hash)] ∧
    (s.consensusFinalize 1 (childBlock 2).hash).1.finalizedTip = (1, (childBlock 2).hash) := by
  obtain ⟨⟨r, out⟩, boot, pending, before, after⟩ := exists_bootDuo 0 (p := fun x =>
      let s := (run call x.1 ((childRun 2).take 3)).1
      let y := (s.learned 1 (childProposal 2)).consensusFinalize 1 (childBlock 2).hash
      s.pendingProposals.get? 1 = some (childProposal 2) ∧
        s.chain.entries = [(0, firstBlock.parentHash)] ∧
        y.1.chain.entries =
        [(0, firstBlock.parentHash), (1, firstBlock.hash), (2, (childBlock 2).hash)] ∧
        y.1.finalizedTip = (1, (childBlock 2).hash)) (by decide +kernel)
  obtain ⟨committee, -, built⟩ := bootDuo_ok boot
  have passes : Passes r _ :=
    ⟨(childRun 2).take 3, _, _, .single ⟨.learn 1 _ pending trivial, rfl⟩⟩
  exact ⟨r, _, .voting built, passes, allOrNothing_iff_not_torn (.voting built) passes 1 _, before,
    after⟩

/-- Finalizing the child appends the first block to the chain and stops at the child. After
the run the first block is in the chain, never announced, below a tip that did not move. -/
theorem exists_torn_finalization : ∃ r s : MinimmitReplica ideal, Booted r ∧ Passes r s ∧
    ¬ s.AllOrNothing 1 (childBlock 1).hash ∧
    (run call r (childRun 1)).1.chain.get? 1 = some firstBlock.hash ∧
    (run call r (childRun 1)).1.finalizedTip = r.finalizedTip ∧
    finals (run call r (childRun 1)).2 = [] := by
  obtain ⟨⟨r, out⟩, boot, pending, chain, tip, after⟩ := exists_bootDuo 0 (p := fun x =>
      let s := (run call x.1 ((childRun 1).take 3)).1
      let y := (s.learned 1 (childProposal 1)).consensusFinalize 1 (childBlock 1).hash
      s.pendingProposals.get? 1 = some (childProposal 1) ∧ y.1.chain.get? 1 ≠ s.chain.get? 1 ∧
        y.1.finalizedTip ≠ (1, (childBlock 1).hash) ∧
        (run call x.1 (childRun 1)).1.chain.get? 1 = some firstBlock.hash ∧
        (run call x.1 (childRun 1)).1.finalizedTip = x.1.finalizedTip ∧
        finals (run call x.1 (childRun 1)).2 = []) (by decide +kernel)
  obtain ⟨committee, -, built⟩ := bootDuo_ok boot
  refine ⟨r, _, .voting built,
    ⟨(childRun 1).take 3, _, _, .single ⟨.learn 1 _ pending trivial, rfl⟩⟩, ?_, after⟩
  rintro (⟨same, -⟩ | ⟨final, -⟩)
  · exact chain (congrArg (get? · 1) same)
  · exact tip final

end Dexos.Minimmit.MinimmitReplica
