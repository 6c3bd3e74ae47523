import Dexos.Minimmit.Agreement
import Dexos.Minimmit.Finalization
import Dexos.Minimmit.Locking

/-!
# Epoch rotation and the finalized chain

The chain, the stored headers and the finalized tip survive an epoch rotation, the view
numbers do not. This module determines exactly when the retained state still does its
work: the parent of view 0 is always genesis, so it is the top of the chain only while
nothing else was finalized, and an `L`-notarized block enters the chain only if its view
exceeds the retained tip's view and the heights of its path are free. One step may process
several certificates for a block, each in the state that the step has reached by then.

The results hold of a single replica against an arbitrary network.
-/

namespace Dexos.Minimmit

open Foundations List OrdMap Option Reaction

variable {C : Crypto}

namespace MinimmitReplica

variable {P : Policy C} {A : Set (Nat × C.Hash)} {r r' : MinimmitReplica C}
  {os : List (Output C)} {block tip : C.Hash} {path : List (Nat × Nat × C.Hash)}
  {genesisHash : C.Hash}
  {selfIndex epoch : Nat}
  {committee : MinimmitCommittee C}
  {calls : List (Call C)}

/-! ## The chain invariant -/

/-- Stored headers carry their hash and are one above their parent, the chain holds blocks
at their heights with genesis at 0, and only heights of the chain have a stage. -/
structure Grounded (r : MinimmitReplica C) : Prop where
  blocks : ∀ hash view header, r.blocks.get? hash = some (view, header) →
    header.hash = hash ∧ HeightChecked r.genesisHash header
  chain : ∀ height block, r.chain.get? height = some block → HeightOf r.genesisHash block height
  root : r.chain.get? 0 = some r.genesisHash
  synced : ∀ height, r.chain.get? height = none → r.finality.get? height = none

/-- An environment whose valid verdicts are for headers one above their parent. -/
def Policy.heightChecked : Policy C where
  verdict r _ p := HeightChecked r.genesisHash p.block
  attest _ _ := True

theorem Grounded.complete (h : Grounded r) (height : Nat) :
    Grounded (r.tryCompleteFinality height).1 := by
  have synced : Synced (r.tryCompleteFinality height).1 := Synced.complete h.synced height
  rw [complete_frame] at synced ⊢
  exact ⟨h.blocks, h.chain, h.root, synced⟩

theorem Grounded.extend (h : Grounded r) {height blockView : Nat} {header : BlockHeader C}
    (stored : r.blocks.get? block = some (blockView, header)) (high : header.height = height) :
    Grounded (r.extended height blockView block).1 := by
  obtain ⟨hash, parent, -, next⟩ := h.blocks _ _ _ stored
  have synced : Synced (r.extended height blockView block).1 := Synced.extended h.synced _ _ _
  rw [extended_frame] at synced ⊢
  refine ⟨h.blocks, fun n b held => ?_, ?_, synced⟩
  · simp only [get?_insert] at held
    split_ifs at held with this
    · cases held
      exact .inr ⟨header, hash, high.trans this.symm⟩
    · exact h.chain n b held
  · simp only [get?_insert]
    rw [if_neg (by omega)]
    exact h.root

theorem Grounded.learn (h : Grounded r) {view : Nat} {p : Propose C}
    (hash : p.block.hash = p.blockHash) (checked : HeightChecked r.genesisHash p.block) :
    Grounded (r.learned view p) := by
  refine ⟨fun key v header stored => ?_, h.chain, h.root, h.synced⟩
  simp only [learned, get?_insert] at stored
  split_ifs at stored with this
  · cases stored
    rw [this]
    exact ⟨hash, checked⟩
  · exact h.blocks key v header stored

theorem Grounded.leaf (h : Grounded r) (ready : Ready A r)
    (move : Leaf Policy.heightChecked A r os r') : Grounded r' := by
  cases move with
  | learn view p pending verdict => exact h.learn (ready.pending _ _ pending).hash_eq verdict
  | cast p signature pending verdict =>
    have learned : Grounded (r.learned r.view p) :=
      h.learn (ready.pending _ _ pending).hash_eq verdict
    exact ⟨learned.blocks, learned.chain, learned.root, learned.synced⟩
  | extend view tip entry _ line =>
    obtain ⟨-, header, stored, high⟩ := line
    exact h.extend stored high
  | extendSilently view tip entry rest _ line =>
    obtain ⟨-, header, stored, high⟩ := line entry mem_cons_self
    exact h.extend stored high
  | complete height => exact h.complete height
  | park a header cert =>
    rw [park_frame]
    exact ⟨h.blocks, h.chain, h.root, h.synced⟩
  | _ => exact ⟨h.blocks, h.chain, h.root, h.synced⟩

/-! ## Runs -/

/-- A valid verdict is for a header one above its parent. -/
def HeightVerdict (r : MinimmitReplica C) : Call C → Prop
  | .step (.proposalVerified view blockHash true) => ∀ p, r.pendingProposals.get? view = some p →
      p.blockHash = blockHash → HeightChecked r.genesisHash p.block
  | _ => True

/-- Every valid verdict of the run is for a header one above its parent. -/
def HeightVerdicts (r : MinimmitReplica C) : List (Call C) → Prop
  | [] => True
  | c :: rest => HeightVerdict r c ∧ HeightVerdicts (r.call c).1 rest

theorem admissible_heightChecked {input : Input C} (h : HeightVerdict r (.step input)) :
    Admissible Policy.heightChecked Set.univ r input := by
  cases input with
  | message m => exact ⟨(admissible_any r (.message m)).1, fun _ _ => trivial⟩
  | timerFired view => trivial
  | tick => trivial
  | proposalVerified view blockHash valid =>
    rintro rfl
    exact h

theorem Grounded.moves {t t' : MinimmitReplica C × Set (Nat × C.Hash)} (h : Grounded t.1)
    (ready : Ready t.2 t.1) (moves : Moves (Move Policy.heightChecked) t os t') :
    Grounded t'.1 ∧ Ready t'.2 t'.1 := by
  refine Moves.invariant (I := fun t => Grounded t.1 ∧ Ready t.2 t.1) ?_ ⟨h, ready⟩ moves
  rintro t os t' ⟨grounded, ready⟩ ⟨leaf, known⟩
  rw [known]
  exact ⟨grounded.leaf ready leaf, leaf.ready ready⟩

theorem Grounded.call (h : Grounded r) (ready : Ready Set.univ r) {c : Call C}
    (verdict : HeightVerdict r c) : Grounded (r.call c).1 := by
  refine call_kept h (fun input same => ?_) (fun _ => ⟨h.blocks, h.chain, h.root, h.synced⟩)
    fun _ _ _ => ⟨h.blocks, h.chain, h.root, h.synced⟩
  exact (h.moves ready (step_performs ready (admissible_heightChecked (same ▸ verdict)))).1

theorem ready_calls (ready : Ready Set.univ r) (calls : List (Call C)) :
    Ready Set.univ (run call r calls).1 := by
  induction calls generalizing r with
  | nil => exact ready
  | cons c rest ih => exact ih (ready_call ready c)

theorem Grounded.run (h : Grounded r) (ready : Ready Set.univ r)
    (verdicts : HeightVerdicts r calls) :
    Grounded (run MinimmitReplica.call r calls).1 := by
  induction calls generalizing r with
  | nil => exact h
  | cons c rest ih =>
    obtain ⟨first, later⟩ := verdicts
    exact ih (h.call ready first) (ready_call ready c) later

theorem grounded_initial {signer : Option C.KeyPair} :
    Grounded (initial committee selfIndex genesisHash epoch signer) := by
  refine ⟨by simp [initial], fun height block held => ?_, by simp [initial], by simp [initial]⟩
  simp only [initial, get?_insert] at held
  split_ifs at held with zero
  · cases held
    exact .inl ⟨rfl, zero⟩
  · simp at held

/-! ## The walk to the chain -/

section Heights

variable (free : C.CollisionFree) (genesis : GenesisUnique r.genesisHash) (grounded : Grounded r)
include free genesis grounded

/-- The heights increase along a line. -/
theorem Line.sorted (h : Line r block path) : path.Pairwise (fun a b => a.1 < b.1) ∧
      ∀ n, HeightOf r.genesisHash block n → ∀ e ∈ path, e.1 ≤ n := by
  induction h with
  | held => simp
  | stored off found _ ih =>
    obtain ⟨sorted, below⟩ := ih
    obtain ⟨hash, height, parentHeight, next⟩ := grounded.blocks _ _ _ found
    have lower := below height parentHeight
    constructor
    · refine pairwise_snoc.2 ⟨sorted, fun a ha => ?_⟩
      have := lower a ha
      omega
    · intro n hn
      have := hn.unique free genesis (.inr ⟨_, hash, rfl⟩)
      refine forall_mem_snoc.2 ⟨fun e old => ?_, this.ge⟩
      have := lower e old
      omega

/-- No height of the path from the block back to the chain is taken. -/
def HeightsFree (r : MinimmitReplica C) (tip : C.Hash) : Prop :=
  ∀ path, Line r tip path → ∀ e ∈ path, r.chain.get? e.1 = none

/-- On grounded headers the line fits exactly when its heights are free. -/
theorem Line.heightsFree_iff (line : Line r tip path) : HeightsFree r tip ↔ r.Free path := by
  obtain ⟨sorted, -⟩ := line.sorted free genesis grounded
  constructor
  · intro heights
    exact ⟨heights path line, sorted.imp Nat.ne_of_lt⟩
  · intro fits path' line'
    rw [line'.unique line]
    exact fits.1

/-- When finalizing puts a block into the chain. -/
theorem mem_consensusFinalize (view : Nat) (tip : C.Hash) :
    tip ∈ (r.consensusFinalize view tip).1.chain.values ↔
      tip ∈ r.chain.values ∨ (Connected r tip ∧ Advances r view ∧ HeightsFree r tip) := by
  by_cases walks : Advances r view ∧ Connected r tip
  · obtain ⟨advances, path, line⟩ := walks
    rw [line.heightsFree_iff free genesis grounded]
    obtain ⟨stops, appends⟩ := consensusFinalize_line advances line
    by_cases fits : r.Free path
    · obtain ⟨outs, result, announced, chain⟩ := extendChain_free grounded.synced fits
      refine iff_of_true ?_ (.inr ⟨⟨path, line⟩, advances, fits⟩)
      rw [appends outs result]
      by_cases held : tip ∈ r.chain.values
      · obtain ⟨height, found⟩ := mem_values.1 held
        exact mem_values.2 ⟨height, extendChain_keeps found⟩
      · obtain ⟨e, last, rfl⟩ := map_eq_some_iff.1 (line.getLast? held)
        refine mem_values.2 ⟨e.1, (chain _ _).2 (.inr ?_)⟩
        rw [announced]
        exact mem_map_of_mem (mem_of_getLast? last)
    · obtain ⟨stopped, out⟩ := extendChain_stops grounded.synced
        (fun e he => (line.entry e he).1) line.nodup fits
      have off : tip ∉ r.chain.values := fun held =>
        fits (line.unique (.held held) ▸ ⟨by simp, .nil⟩)
      obtain ⟨e, last, rfl⟩ := map_eq_some_iff.1 (line.getLast? off)
      rw [stops stopped]
      exact iff_of_false (out e last) (by simp [off, fits])
  · rw [consensusFinalize_idle walks]
    exact ⟨.inl,
      fun h => h.resolve_right fun ⟨connected, advances, _⟩ => walks ⟨advances, connected⟩⟩

end Heights

/-! ## Handlers that leave the chain alone -/

section Order

variable (r : MinimmitReplica C)

/-- The fields that ordering reads. -/
def order := (r.chain, r.blocks, r.finality, r.finalizedTip, r.genesisHash)

theorem enterView_order (next : Nat) : (r.enterView next).1.order = r.order := by
  unfold enterView
  split_ifs <;> rfl

theorem recordNotarization_order (n : Notarization C) (formedHere : Bool) :
    (r.recordNotarization n formedHere).1.order = r.order := by
  unfold recordNotarization
  simp only
  split
  · split
    · exact enterView_order _ _
    · rfl
  · rfl

theorem admitVote_order (kind : TallyKind) (epoch view j : Nat) (candidate : C.Hash)
    (signature : C.Signature) :
    (r.admitVote kind epoch view j candidate signature).1.order = r.order := by
  have recorded (result) : (r.recordAdmission kind view j result).1.order = r.order := by
    obtain ⟨tally, error | outcome⟩ := result
    · cases kind <;> rfl
    · cases kind <;> cases outcome <;> rfl
  unfold admitVote
  split_ifs
  · rfl
  · rfl
  · rfl
  · split
    · rfl
    · split_ifs
      · exact recorded _
      · rfl

theorem formNullification_order (epoch view : Nat) :
    (r.formNullification epoch view).1.order = r.order := by
  unfold formNullification
  split
  · rfl
  · simp only [andThen_state]
    unfold onNullification
    split
    · rfl
    · split
      · rfl
      · exact enterView_order _ _

theorem maybeNullify_order (view : Nat) :
    (r.maybeNullifyByContradiction view).1.order = r.order := by
  unfold maybeNullifyByContradiction
  split_ifs
  · rfl
  · split
    · rfl
    · split_ifs
      · rfl
      · split
        · rfl
        · rename_i signer _
          have admitted : (admitNullify { r with nullified := true }
              (r.nullifyVote signer view)).1.order = r.order := admitVote_order ..
          simp only [andThen_state]
          split <;> rename_i heq <;> rw [heq] at admitted
          · exact admitted
          · exact (formNullification_order _ _ _).trans admitted

end Order

theorem order_eq_iff : r'.order = r.order ↔ r'.chain = r.chain ∧ r'.blocks = r.blocks ∧
    r'.finality = r.finality ∧ r'.finalizedTip = r.finalizedTip ∧
      r'.genesisHash = r.genesisHash := by
  simp [order]

theorem Grounded.congr (h : Grounded r) (same : r'.order = r.order) : Grounded r' := by
  obtain ⟨chain, blocks, finality, -, genesis⟩ := order_eq_iff.1 same
  refine ⟨?_, ?_, ?_, ?_⟩
  · rw [blocks, genesis]
    exact h.blocks
  · rw [chain, genesis]
    exact h.chain
  · rw [chain, genesis]
    exact h.root
  · rw [chain, finality]
    exact h.synced

/-- A line consists of the chain and the headers only. -/
theorem Line.congr (h : Line r block path) (same : r'.order = r.order) : Line r' block path := by
  obtain ⟨chain, blocks, -⟩ := order_eq_iff.1 same
  induction h with
  | held mem => exact .held (chain ▸ mem)
  | stored off found _ ih => exact .stored (chain ▸ off) (blocks ▸ found) ih

/-! ## Certificates -/

/-- The certificate is a valid `L`-notarization of a connected block. -/
def Due (r : MinimmitReplica C) (n : Notarization C) : Prop :=
  n.epoch = r.epoch ∧ n.verify r.committee = .ok () ∧ r.isFinalizeCert n.cert = true ∧
    Connected r n.blockHash

/-- No other proof is stored for the view, the view is beyond the finalized tip's and no height of
the path is taken. -/
def Fits (r : MinimmitReplica C) (n : Notarization C) : Prop :=
  r.proofConflicts n.view n.blockHash = false ∧ Advances r n.view ∧ HeightsFree r n.blockHash

/-- The certificate, in the state in which it is processed, puts the block into the chain. -/
def Enters (block : C.Hash) (q : MinimmitReplica C × Notarization C) : Prop :=
  q.2.blockHash = block ∧ q.1.Due q.2 ∧ q.1.Fits q.2

/-- The certificate that a vote completes, with the state in which it is processed. -/
def formedBy (r : MinimmitReplica C) (vote : Notarize C) :
    List (MinimmitReplica C × Notarization C) :=
  match r.admitNotarize vote with
  | (_, .error _) => []
  | (_, .ok (.equivocated _ _)) => []
  | (s, .ok _) => (s.tryFormNotarization vote.view vote.blockHash .advance).toList.map fun cert =>
      (s, ⟨vote.epoch, vote.view, vote.blockHash, cert⟩)

/-- The certificates that votes complete one after the other. -/
def formedAlong (r : MinimmitReplica C) : List (Notarize C) →
    List (MinimmitReplica C × Notarization C)
  | [] => []
  | vote :: rest => r.formedBy vote ++ formedAlong (r.onNotarize vote).1 rest

/-- The votes that `castNotarize` tallies: the proposer's, and the replica's own if another. -/
def castVotes (r : MinimmitReplica C) (view : Nat) (p : Propose C) (signature : C.Signature) :
    List (Notarize C) :=
  ⟨p.epoch, p.view, p.blockHash, p.proposerIndex, p.notarizeSig⟩ ::
    if p.proposerIndex = r.selfIndex then []
    else [⟨r.epoch, view, p.blockHash, r.selfIndex, signature⟩]

/-- The stored certificate for a block whose header arrives after its view. -/
def lateCerts (r : MinimmitReplica C) (view : Nat) (block : C.Hash) :
    List (MinimmitReplica C × Notarization C) :=
  match r.proofs.get? view with
  | some (.notarization n) => if n.blockHash = block then [(r, n)] else []
  | _ => []

/-- The certificates that a valid verdict makes the replica process: the stored one of a view that
has passed, or those that the votes for the proposal complete. -/
def verifiedCerts (r : MinimmitReplica C) (view : Nat) (p : Propose C) :
    List (MinimmitReplica C × Notarization C) :=
  let learned := r.learned view p
  if view ≠ r.view then learned.lateCerts view p.blockHash
  else if r.notarized.isSome ∨ r.nullified ∨ learned.validParent view p.parent = false then []
  else match r.notarizeSignature p with
    | none => []
    | some signature => formedAlong { learned with notarized := some p.blockHash }
        (learned.castVotes view p signature)

/-- The notarizations that a step processes, delivered or formed here, each with the state in which
it does so. -/
def processed (r : MinimmitReplica C) : Input C → List (MinimmitReplica C × Notarization C)
  | .message (.notarization n) => [(r, n)]
  | .message (.notarize vote) => r.formedBy vote
  | .proposalVerified view blockHash true =>
    match r.pendingProposals.get? view with
    | none => []
    | some p => if p.blockHash = blockHash then r.verifiedCerts view p else []
  | _ => []

theorem castNotarize_state (r : MinimmitReplica C) (view : Nat) (p : Propose C)
    (signature : C.Signature) :
    (r.castNotarize view p signature).1 =
      (run onNotarize { r with notarized := some p.blockHash }
        (r.castVotes view p signature)).1 := by
  unfold castNotarize castVotes
  split_ifs <;> rfl

theorem castVotes_block {view : Nat} {p : Propose C} {signature : C.Signature} {vote : Notarize C}
    (cast : vote ∈ r.castVotes view p signature) : vote.blockHash = p.blockHash := by
  unfold castVotes at cast
  split_ifs at cast
  · rw [mem_singleton.1 cast]
  · obtain rfl | rfl := mem_pair.1 cast <;> rfl

section Blocks

variable {q : MinimmitReplica C × Notarization C}

theorem formedBy_block {vote : Notarize C} (h : q ∈ r.formedBy vote) :
    q.2.blockHash = vote.blockHash := by
  unfold formedBy at h
  split at h
  · cases h
  · cases h
  · obtain ⟨cert, -, rfl⟩ := mem_map.1 h
    rfl

theorem formedAlong_block {votes : List (Notarize C)}
    (same : ∀ vote ∈ votes, vote.blockHash = block) (h : q ∈ r.formedAlong votes) :
    q.2.blockHash = block := by
  induction votes generalizing r with
  | nil => cases h
  | cons vote rest ih =>
    obtain ⟨first, later⟩ := forall_mem_cons.1 same
    rcases mem_append.1 h with formed | formed
    · exact (formedBy_block formed).trans first
    · exact ih later formed

theorem verifiedCerts_block {view : Nat} {p : Propose C} (h : q ∈ r.verifiedCerts view p) :
    q.2.blockHash = p.blockHash := by
  simp only [verifiedCerts, lateCerts] at h
  split_ifs at h with late stale
  · split at h
    · split_ifs at h with same
      · rw [mem_singleton.1 h]
        exact same
      · cases h
    · cases h
  · cases h
  · split at h
    · cases h
    · exact formedAlong_block (fun _ cast => castVotes_block cast) h

end Blocks

section Certificates

variable (free : C.CollisionFree) (genesis : GenesisUnique r.genesisHash) (grounded : Grounded r)
include free genesis grounded

theorem mem_onNotarization (n : Notarization C) (formedHere : Bool) :
    n.blockHash ∈ (r.onNotarization n formedHere).1.chain.values ↔
      n.blockHash ∈ r.chain.values ∨ (Due r n ∧ Fits r n) := by
  unfold onNotarization
  by_cases invalid : n.epoch ≠ r.epoch ∨ n.verify r.committee ≠ .ok ()
  · rw [if_pos invalid]
    refine ⟨.inl, fun h => h.resolve_right fun ⟨⟨epoch, verified, _⟩, _⟩ => ?_⟩
    exact invalid.elim (· epoch) (· verified)
  rw [if_neg invalid]
  by_cases conflict : r.proofConflicts n.view n.blockHash = true
  · rw [if_pos conflict]
    exact ⟨.inl, fun h => h.resolve_right fun ⟨_, fits⟩ => by simp [fits.1] at conflict⟩
  rw [if_neg conflict]
  split_ifs with final
  · obtain ⟨epoch, verified⟩ := not_or.1 invalid
    have same := r.recordNotarization_order n formedHere
    obtain ⟨chain, -, -, tip, genesisHash⟩ := order_eq_iff.1 same
    have line (path) : Line (r.recordNotarization n formedHere).1 n.blockHash path ↔
        Line r n.blockHash path := ⟨(·.congr same.symm), (·.congr same)⟩
    rw [andThen_state, mem_consensusFinalize free (genesisHash ▸ genesis) (grounded.congr same)]
    simp only [Due, Fits, HeightsFree, Connected, Advances, line, chain, tip, not_not.1 epoch,
      not_not.1 verified, final, Bool.eq_false_iff.2 conflict, true_and]
  · rw [(order_eq_iff.1 (r.recordNotarization_order n formedHere)).1]
    exact ⟨.inl, fun h => h.resolve_right fun ⟨due, _⟩ => final due.2.2.1⟩

theorem mem_onNotarize (vote : Notarize C) :
    vote.blockHash ∈ (r.onNotarize vote).1.chain.values ↔ vote.blockHash ∈ r.chain.values ∨
      ∃ q ∈ r.formedBy vote, Enters vote.blockHash q := by
  have admitted {s outcome} (heq : r.admitNotarize vote = (s, outcome)) : s.order = r.order := by
    obtain rfl : (r.admitNotarize vote).1 = s := congrArg Prod.fst heq
    exact admitVote_order ..
  unfold onNotarize formedBy
  split
  · rename_i s e heq
    simp [heq, (order_eq_iff.1 (admitted heq)).1]
  · rename_i s first signature heq
    simp [heq, (order_eq_iff.1 (admitted heq)).1]
  · rename_i s outcome fine heq
    obtain ⟨chain, -, -, -, genesisHash⟩ := order_eq_iff.1 (admitted heq)
    rw [andThen_state, (order_eq_iff.1 (maybeNullify_order _ _)).1, formNotarization]
    cases formed : s.tryFormNotarization vote.view vote.blockHash .advance with
    | none => simp [heq, formed, chain]
    | some cert =>
      have entered := mem_onNotarization free (genesisHash ▸ genesis)
        (grounded.congr (admitted heq)) ⟨vote.epoch, vote.view, vote.blockHash, cert⟩ true
      simpa [heq, formed, chain, Enters] using entered

/-- After votes for a block it is in the chain if it was before or one of the certificates that
they complete puts it there. -/
theorem mem_run_onNotarize (ready : Ready Set.univ r) {votes : List (Notarize C)}
    (same : ∀ vote ∈ votes, vote.blockHash = block) :
    block ∈ (run onNotarize r votes).1.chain.values ↔ block ∈ r.chain.values ∨
      ∃ q ∈ r.formedAlong votes, Enters block q := by
  induction votes generalizing r with
  | nil => simp [run, formedAlong]
  | cons vote rest ih =>
    obtain ⟨rfl, later⟩ := forall_mem_cons.1 same
    have performs : Performs Policy.heightChecked Set.univ r (r.onNotarize vote) :=
      onNotarize_performs ready fun _ _ _ => trivial
    obtain ⟨grounded', -⟩ := grounded.moves ready performs
    have ready' : Ready Set.univ (r.onNotarize vote).1 :=
      (performs.ready ready).mono (Set.subset_univ _)
    have genesis' : GenesisUnique (r.onNotarize vote).1.genesisHash := by
      rwa [performs.sameIdentity.genesisHash]
    rw [run, andThen_state, ih genesis' grounded' ready' later,
      mem_onNotarize free genesis grounded vote, formedAlong]
    simp only [mem_append, or_and_right, exists_or]
    exact or_assoc

theorem mem_finalizeLate (ready : Ready A r) (view : Nat) (block : C.Hash) :
    block ∈ (r.finalizeLate view block).1.chain.values ↔ block ∈ r.chain.values ∨
      ∃ q ∈ r.lateCerts view block, Enters block q := by
  unfold finalizeLate lateCerts
  cases stored : r.proofs.get? view with
  | none => simp
  | some proof =>
    cases proof with
    | nullification n => simp
    | notarization n =>
      obtain ⟨rfl, epoch, verified, -⟩ := ready.proofs _ _ stored
      by_cases same : n.blockHash = block
      · subst same
        have fresh : r.proofConflicts n.view n.blockHash = false := by
          simp [proofConflicts, stored]
        by_cases final : r.isFinalizeCert n.cert = true
        · have entered := mem_consensusFinalize free genesis grounded n.view n.blockHash
          simpa [final, Enters, Due, Fits, epoch, verified, fresh] using entered
        · simp [final, Enters, Due]
      · simp [same]

theorem mem_onProposalVerified (ready : Ready Set.univ r) {view : Nat} {p : Propose C}
    (pending : r.pendingProposals.get? view = some p)
    (checked : HeightChecked r.genesisHash p.block) :
    p.blockHash ∈ (r.onProposalVerified view p.blockHash true).1.chain.values ↔
      p.blockHash ∈ r.chain.values ∨ ∃ q ∈ r.verifiedCerts view p, Enters p.blockHash q := by
  have learn : Performs Policy.heightChecked Set.univ r (r.learned view p, []) :=
    .leaf (.learn view p pending checked)
  have learned : Grounded (r.learned view p) := (grounded.moves ready learn).1
  have ready' := learn.readyAfter ready
  unfold onProposalVerified verifiedCerts
  simp only [pending, ne_eq, not_true_eq_false, false_or, Bool.true_eq_false, if_false]
  split_ifs with current stale
  · simp [MinimmitReplica.learned]
  · cases r.notarizeSignature p with
    | none => simp [MinimmitReplica.learned]
    | some signature =>
      simp only [castNotarize_state]
      refine mem_run_onNotarize free ?_ ?_ ?_ ?_
      · exact genesis
      · exact ⟨learned.blocks, learned.chain, learned.root, learned.synced⟩
      · exact ⟨ready'.pending, ready'.votes, ready'.execs, ready'.proofs⟩
      · exact fun vote cast => castVotes_block cast
  · exact mem_finalizeLate (r := r.learned view p) free genesis learned ready' view p.blockHash

/-- The block of a certificate that a step processes is in the chain afterwards if it was before or
one of the certificates processed puts it there. -/
theorem mem_step (ready : Ready Set.univ r) {input : Input C}
    (verdict : HeightVerdict r (.step input)) {q : MinimmitReplica C × Notarization C}
    (mem : q ∈ r.processed input) :
    q.2.blockHash ∈ (r.step input).1.chain.values ↔ q.2.blockHash ∈ r.chain.values ∨
      ∃ q' ∈ r.processed input, Enters q.2.blockHash q' := by
  cases input with
  | timerFired view | tick => cases mem
  | message m =>
    cases m with
    | notarization n =>
      obtain rfl := mem_singleton.1 mem
      simpa [processed, Enters, step, onMessage] using mem_onNotarization free genesis
        grounded n false
    | notarize vote =>
      rw [formedBy_block mem]
      exact mem_onNotarize free genesis grounded vote
    | _ => cases mem
  | proposalVerified view blockHash valid =>
    cases valid with
    | false => cases mem
    | true =>
      cases pending : r.pendingProposals.get? view with
      | none => simp [processed, pending] at mem
      | some p =>
        by_cases same : p.blockHash = blockHash
        · subst same
          simp only [processed, pending, if_true] at mem ⊢
          rw [verifiedCerts_block mem]
          exact mem_onProposalVerified free genesis grounded ready pending (verdict p pending rfl)
        · simp [processed, pending, same] at mem

end Certificates

/-! ## The parent of view 0 -/

/-- The block is the one at the greatest height of the chain. -/
def IsTop (chain : OrdMap Nat C.Hash) (block : C.Hash) : Prop :=
  ∃ height, chain.get? height = some block ∧
    ∀ height' block', chain.get? height' = some block' → height' ≤ height

theorem isTop_genesis (free : C.CollisionFree) (genesis : GenesisUnique r.genesisHash)
    (grounded : Grounded r) :
    IsTop r.chain r.genesisHash ↔ ∀ height block, r.chain.get? height = some block →
      height = 0 := by
  constructor
  · rintro ⟨top, held, above⟩ height block found
    have zero : top = 0 := (grounded.chain top _ held).unique free genesis (.inl ⟨rfl, rfl⟩)
    have below := above height block found
    omega
  · intro only
    exact ⟨0, grounded.root, fun height block found => (only height block found).le⟩

/-- What rotation and a step do in a state: after a successful activation view 0 selects and
accepts only genesis, which is the top of the chain exactly when the chain holds nothing else;
and a block of which a step processes a notarization is in the chain when the step returns
exactly when it was before or one of the notarizations processed for it is a valid
`L`-notarization of a connected block that fits. -/
structure RotationLaw (r : MinimmitReplica C) : Prop where
  parent : ∀ newEpoch x, r.activateEpoch newEpoch = .ok x →
    ∃ parent, x.1.selectParent 0 = some parent ∧ (∀ p, x.1.validParent 0 p = true ↔ p = parent) ∧
      (IsTop x.1.chain parent.parentHash ↔
        ∀ height block, x.1.chain.get? height = some block → height = 0)
  certified : ∀ input, HeightVerdict r (.step input) → ∀ q ∈ r.processed input,
    (q.2.blockHash ∈ (r.step input).1.chain.values ↔ q.2.blockHash ∈ r.chain.values ∨
      ∃ q' ∈ r.processed input, Enters q.2.blockHash q')

theorem Grounded.rotationLaw (h : Grounded r) (ready : Ready Set.univ r) (free : C.CollisionFree)
    (genesis : GenesisUnique r.genesisHash) : RotationLaw r where
  parent newEpoch x activated := by
    obtain ⟨committee, newIndex, state, -⟩ := activateEpoch_ok activated
    rw [state]
    have grounded : Grounded (r.rotated newEpoch committee newIndex) :=
      ⟨h.blocks, h.chain, h.root, h.synced⟩
    exact ⟨_, selectParent_first _, validParent_first _, isTop_genesis free genesis grounded⟩
  certified _ verdict _ mem := mem_step free genesis h ready verdict mem

theorem run_genesisHash (ready : Ready Set.univ r) (calls : List (Call C)) :
    (run call r calls).1.genesisHash = r.genesisHash := by
  refine run_invariant (I := fun s => s.genesisHash = r.genesisHash) ?_ (fun _ _ same => same)
    (fun _ _ _ _ same => same) ready rfl calls
  exact fun _ _ _ same move => move.sameIdentity.genesisHash.trans same

/-- A state the replica passes through, between the moves of a call too, when valid verdicts are
for headers one above their parent. -/
def PassesChecked (r s : MinimmitReplica C) : Prop :=
  ∃ calls os A, HeightVerdicts r calls ∧
    Moves (Move Policy.heightChecked) ((run call r calls).1, Set.univ) os (s, A)

/-- The law holds in every state that a replica passes through when the valid verdicts are for
headers one above their parent. -/
theorem rotationLaw_of_heightVerdicts (free : C.CollisionFree) (boot : Booted r)
    (genesis : GenesisUnique r.genesisHash) {s : MinimmitReplica C} (passes : PassesChecked r s) :
    RotationLaw s := by
  obtain ⟨calls, os, A, verdicts, moves⟩ := passes
  have start : Grounded r := by
    obtain ⟨_, _, _, _, _, rfl⟩ := boot.eq_initial
    exact grounded_initial
  have ready : Ready Set.univ (run call r calls).1 := ready_calls boot.ready calls
  obtain ⟨grounded, ready'⟩ := (start.run boot.ready verdicts).moves ready moves
  have kept : s.genesisHash = (run call r calls).1.genesisHash :=
    Moves.invariant (I := fun t => t.1.genesisHash = (run call r calls).1.genesisHash)
      (fun _ _ _ same move => move.1.sameIdentity.genesisHash.trans same) rfl moves
  refine grounded.rotationLaw (ready'.mono (Set.subset_univ _)) free ?_
  rwa [kept, run_genesisHash boot.ready calls]

/-- Every verdict of the run is about one of the given headers. -/
def verdictsWithin (allowed : List (BlockHeader C)) (r : MinimmitReplica C) : List (Call C) → Bool
  | [] => true
  | c :: rest =>
    (match c with
      | .step (.proposalVerified view _ _) =>
        (r.pendingProposals.get? view).all fun p => decide (p.block ∈ allowed)
      | _ => true) && verdictsWithin allowed (r.call c).1 rest

theorem heightVerdicts_of_within {allowed : List (BlockHeader C)} (ready : Ready Set.univ r)
    (checked : ∀ header ∈ allowed, HeightChecked r.genesisHash header)
    (within : verdictsWithin allowed r calls = true) : HeightVerdicts r calls := by
  induction calls generalizing r with
  | nil => trivial
  | cons c rest ih =>
    obtain ⟨first, later⟩ := Bool.and_eq_true_iff.1 within
    have genesis : (r.call c).1.genesisHash = r.genesisHash := run_genesisHash ready [c]
    refine ⟨?_, ih (ready_call ready c) (by rw [genesis]; exact checked) later⟩
    unfold HeightVerdict
    split
    · intro p pending _
      simp only [pending, all_some] at first
      exact checked _ (of_decide_eq_true first)
    · trivial

/-! ## A rotation of the pair -/

/-- Another first block, proposed by validator 1 in view 0 of epoch 1. -/
def forkBlock : BlockHeader ideal := ⟨1, (0 : Nat), (7 : Nat)⟩

def forkProposal : Propose ideal where
  epoch := 1
  view := 0
  block := forkBlock
  blockHash := forkBlock.hash
  parent := ParentRef.genesis (0 : Nat)
  proposerIndex := 1
  notarizeSig := ((1 : Nat), notarizeDigest (C := ideal) 1 0 forkBlock.hash)
  proposeSig := ((1 : Nat), proposeAuth (C := ideal) 1 0 forkBlock.hash (0 : Nat) bottomView)

/-- Both validators notarize the fork in view 0 of epoch 1. -/
def forkNotarization : Notarization ideal where
  epoch := 1
  view := 0
  blockHash := forkBlock.hash
  cert :=
    { message := notarizeDigest (C := ideal) 1 0 forkBlock.hash
      signerBitmap := 3
      signatures := [((0 : Nat), notarizeDigest (C := ideal) 1 0 forkBlock.hash),
        ((1 : Nat), notarizeDigest (C := ideal) 1 0 forkBlock.hash)] }

/-- Epoch 0 finalizes the first block, with its execution certificate. -/
def firstEpoch : List (Call ideal) :=
  [.step (.message (.propose firstProposal)), .step (.proposalVerified 0 firstBlock.hash true),
    .step (strayNotarize 0 firstBlock.hash), .step (attestFirst 0 5), .step (attestFirst 1 5),
    .scheduleUpdate ⟨1, duo⟩]

/-- Epoch 1 starts and the fork is proposed and accepted. -/
def secondEpoch : List (Call ideal) :=
  [.activateEpoch 1, .step (.message (.propose forkProposal)),
    .step (.proposalVerified 0 forkBlock.hash true)]

theorem heightChecked_onGenesis (payloadRoot : ideal.Hash) :
    HeightChecked (C := ideal) (0 : Nat) ⟨1, (0 : Nat), payloadRoot⟩ :=
  ⟨0, .inl ⟨rfl, rfl⟩, rfl⟩

/-- The verdicts of a run of the pair that are about the first block and the fork. -/
theorem heightVerdicts_duo {index : Nat} {x : Response ideal}
    (boot : bootDuo index = .ok x) {calls : List (Call ideal)}
    (within : verdictsWithin [firstBlock, forkBlock] x.1 calls = true) :
    HeightVerdicts x.1 calls := by
  obtain ⟨committee, -, built⟩ := bootDuo_ok boot
  obtain ⟨-, -, state, -⟩ := newWithSigner_ok built
  have ready : Ready Set.univ x.1 := by
    rw [state]
    exact ready_of_empty rfl rfl rfl rfl rfl
  refine heightVerdicts_of_within ready (fun header mem => ?_) within
  rw [state]
  obtain rfl | rfl := mem_pair.1 mem <;> exact heightChecked_onGenesis _

/-- The second vote for the first block completes an `L`-notarization, and the block enters. -/
theorem rotationLaw_firstEpoch :
    ∃ r s : MinimmitReplica ideal, Booted r ∧ PassesChecked r s ∧ RotationLaw s ∧
      (∃ q ∈ s.processed (strayNotarize 0 firstBlock.hash), q.2.blockHash = firstBlock.hash) ∧
      firstBlock.hash ∉ s.chain.values ∧
      firstBlock.hash ∈ (s.step (strayNotarize 0 firstBlock.hash)).1.chain.values := by
  obtain ⟨⟨r, out⟩, boot, within, formed, off, enters⟩ := exists_bootDuo 0 (p := fun x =>
      verdictsWithin [firstBlock, forkBlock] x.1 (firstEpoch.take 2) = true ∧
      ((run call x.1 (firstEpoch.take 2)).1.processed (strayNotarize 0 firstBlock.hash)).any
        (fun q => decide (q.2.blockHash = firstBlock.hash)) = true ∧
      firstBlock.hash ∉ (run call x.1 (firstEpoch.take 2)).1.chain.values ∧
      firstBlock.hash ∈ ((run call x.1 (firstEpoch.take 2)).1.step
        (strayNotarize 0 firstBlock.hash)).1.chain.values) (by decide +kernel)
  obtain ⟨committee, -, built⟩ := bootDuo_ok boot
  have passes : PassesChecked r (run call r (firstEpoch.take 2)).1 :=
    ⟨_, _, _, heightVerdicts_duo boot within, .refl _⟩
  obtain ⟨q, mem, same⟩ := any_eq_true.1 formed
  refine ⟨r, _, .voting built, passes, ?_, ⟨q, mem, of_decide_eq_true same⟩, off, enters⟩
  refine rotationLaw_of_heightVerdicts ideal_collisionFree (.voting built) ?_ passes
  obtain ⟨-, -, rfl, -⟩ := newWithSigner_ok built
  exact ideal_genesisUnique

/-- The fork is `L`-notarized and connected, and stays out of the chain. -/
def forkLeftOut (s : MinimmitReplica ideal) : Bool :=
  decide (s.epoch = 1) && decide (forkNotarization.verify s.committee = .ok ()) &&
    s.isFinalizeCert forkNotarization.cert &&
    decide (s.blocks.get? forkBlock.hash = some (0, forkBlock)) &&
    decide (forkBlock.hash ∉ s.chain.values ∧ forkBlock.parentHash ∈ s.chain.values) &&
    decide (forkBlock.hash ∉ (s.step (.message (.notarization forkNotarization))).1.chain.values)

/-- After the rotation view 0 starts from genesis although the chain holds the first block,
and an `L`-notarization of a connected block of view 0 does not enter the chain. -/
theorem rotation_restarts_from_genesis :
    ∃ committee r out, MinimmitCommittee.newUnit 0 duo = .ok committee ∧
      newWithSigner committee 0 (0 : Nat) 0 (0 : Nat) = .ok (r, out) ∧
      HeightVerdicts (C := ideal) r (firstEpoch ++ secondEpoch) ∧
      (∃ x, (run call r firstEpoch).1.activateEpoch 1 = .ok x ∧
        ∃ parent, x.1.selectParent 0 = some parent ∧ ¬ IsTop x.1.chain parent.parentHash) ∧
      ∃ s, s = (run call r (firstEpoch ++ secondEpoch)).1 ∧ s.epoch = 1 ∧
        forkNotarization.verify s.committee = .ok () ∧
        s.isFinalizeCert forkNotarization.cert = true ∧ Connected s forkNotarization.blockHash ∧
        forkNotarization.blockHash ∉
          (s.step (.message (.notarization forkNotarization))).1.chain.values := by
  obtain ⟨⟨r, out⟩, boot, within, rotated⟩ := exists_bootDuo 0 (p := fun x =>
      verdictsWithin [firstBlock, forkBlock] x.1 (firstEpoch ++ secondEpoch) = true ∧
      ((run call x.1 firstEpoch).1.activateEpoch 1).toOption.map
          (fun y => (y.1.selectParent 0, y.1.chain.entries)) =
        some (some (ParentRef.genesis firstBlock.parentHash),
          [(0, firstBlock.parentHash), (1, firstBlock.hash)])) (by decide +kernel)
  obtain ⟨⟨r', out'⟩, boot', left⟩ := exists_bootDuo 0 (p := fun x =>
    forkLeftOut (run call x.1 (firstEpoch ++ secondEpoch)).1 = true) (by decide +kernel)
  simp only [forkLeftOut, Bool.and_eq_true, decide_eq_true_eq] at left
  obtain ⟨⟨⟨⟨⟨epoch, verified⟩, final⟩, stored⟩, off, root⟩, outside⟩ := left
  obtain ⟨rfl, rfl⟩ := Prod.mk.inj (Except.ok.inj (boot.symm.trans boot'))
  obtain ⟨committee, unit, built⟩ := bootDuo_ok boot
  refine ⟨committee, r, out, unit, built, heightVerdicts_duo boot within, ?_, _, rfl, epoch,
    verified, final, ⟨_, .stored off stored (.held root)⟩, outside⟩
  cases hact : (run call r firstEpoch).1.activateEpoch 1 with
  | error e =>
    rw [hact] at rotated
    cases rotated
  | ok x =>
    rw [hact] at rotated
    obtain ⟨selected, entries⟩ := Prod.mk.inj (some.inj rotated)
    refine ⟨x, rfl, _, selected, ?_⟩
    rintro ⟨top, held, above⟩
    have high : 1 ≤ top := above 1 firstBlock.hash (mem_entries.1 (by rw [entries]; simp))
    have mem := mem_entries.2 held
    rw [entries] at mem
    rcases mem_cons.1 mem with low | mem
    · obtain ⟨rfl, -⟩ := Prod.mk.inj low
      omega
    · obtain ⟨-, same⟩ := Prod.mk.inj (mem_singleton.1 mem)
      exact absurd same.symm (ideal_hashDomain_ne_zero _ _ _)

end MinimmitReplica

end Dexos.Minimmit
