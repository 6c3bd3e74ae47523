import Dexos.Minimmit.Scenario

/-!
# Mutual exclusion and agreement

Two consequences of the refinement for the network: an `L`-notarized block excludes every
other certificate of its view, so a replica never drops one, and the chains of correct
replicas agree at every height.
-/

namespace Dexos.Minimmit

open Foundations MinimmitReplica List

variable {C : Crypto} {d : Deployment C} {K : Conduct C} {Q : BlockHeader C → Prop}
  {A A' : Set (Nat × C.Hash)} {i j : Nat} {net net' : Net C} {block : C.Hash} {height view : Nat}
  {b b' : C.Hash}
  {genesisHash : C.Hash}

/-! ## Mutual exclusion -/

/-- Validators of the threshold's weight signed the digest. -/
def Deployment.SignedBy (d : Deployment C) (net : Net C) (kind : ThresholdKind)
    (digest : C.Hash) : Prop :=
  ∃ s ⊆ Finset.range d.committee.len, d.committee.threshold kind ≤ d.committee.weightOf s ∧
    ∀ i ∈ s, (i, digest) ∈ net.signed

namespace Deployment

theorem SignedBy.finalized (h : d.SignedBy net .finalize (notarizeDigest d.epoch view block)) :
    (d.protocol Q).Finalized (signedVotes d.epoch net.signed) view block := by
  rwa [Protocol.Finalized, protocol_finalize]

theorem SignedBy.notarized (h : d.SignedBy net .advance (notarizeDigest d.epoch view block)) :
    (d.protocol Q).Notarized (signedVotes d.epoch net.signed) view block := by
  rwa [Protocol.Notarized, protocol_advance]

theorem SignedBy.nullified (h : d.SignedBy net .advance (nullifyDigest C d.epoch view)) :
    (d.protocol Q).Nullified (signedVotes d.epoch net.signed) view := by
  rwa [Protocol.Nullified, protocol_advance]

/-- The proof a replica stores for the view of an `L`-notarized block is a notarization of
that block. -/
theorem Context.proofConflicts_eq_false {r : MinimmitReplica C} (context : Context d Q i A r)
    (final : (d.protocol Q).Finalized (signedVotes d.epoch A) view block) :
    r.proofConflicts view block = false := by
  have lawful := context.reachable.lawful
  unfold proofConflicts
  split
  · rfl
  · rename_i n stored
    have notarized := context.ready.notarized_of_proof (Q := Q) context.member stored
    exact decide_eq_false (not_not.2 (lawful.notarized_eq final notarized))
  · rename_i n stored
    have nullified := context.ready.nullified_of_proof (Q := Q) context.member stored
    exact absurd nullified (lawful.not_nullified final)

end Deployment

namespace MinimmitReplica

variable {P : Policy C} {r r' : MinimmitReplica C} {os : List (Output C)}

theorem Leaf.dropped_mem (move : Leaf P A r os r') {n : Notarization C} (hn : .dropped n ∈ os) :
    n.epoch = r.epoch ∧ n.verify r.committee = .ok () ∧
      r.proofConflicts n.view n.blockHash = true ∧ r.isFinalizeCert n.cert = true ∧
      Backed A n.cert := by
  cases move with
  | note os notes => exact (notes _ hn).elim
  | drop n' epoch verified conflict final backed =>
    cases mem_singleton.1 hn
    exact ⟨epoch, verified, conflict, final, backed⟩
  | extend view tip entry =>
    rcases mem_cons.1 hn with eq | hn
    · cases eq
    · obtain ⟨block, eq⟩ := complete_outputs _ _ _ hn
      cases eq
  | complete height =>
    obtain ⟨block, eq⟩ := complete_outputs _ _ _ hn
    cases eq
  | form => cases mem_singleton.1 hn
  | timeout | contradict | cast => simp at hn
  | _ => cases hn

end MinimmitReplica

/-- In every reachable network an `L`-notarized block excludes `M` nullifies and `M`
notarizes for another block in its view, the proof of that view in a correct replica does
not conflict with it, and no correct replica ever drops an `L`-notarization. -/
theorem view_mutual_exclusion (free : C.CollisionFree) (run : d.Reachable K net) :
    (∀ view block, d.SignedBy net .finalize (notarizeDigest d.epoch view block) →
      ¬ d.SignedBy net .advance (nullifyDigest C d.epoch view) ∧
      (∀ other, other ≠ block → ¬ d.SignedBy net .advance (notarizeDigest d.epoch view other)) ∧
      ∀ i ∈ d.correct, (net.replicas i).proofConflicts view block = false) ∧
    ∀ i ∈ d.correct, ∀ n, .dropped n ∉ net.outputs i := by
  have rule := run.localInvariant (d := d) (G := fun _ => True)
    (I := fun _ _ out => ∀ n : Notarization C, Output.dropped n ∉ out) (Q := fun _ => True) free
    (fun _ _ _ _ => trivial) (fun _ => trivial)
    (fun boot n dropped => by
      obtain ⟨signer, -, rfl⟩ := boot.eq_initial
      exact (viewEntryEffects_notes _ _ _ dropped).elim)
    (fun _ _ old => old)
    (fun context move old n dropped => by
      rcases mem_append.1 dropped with before | now
      · exact old n before
      · obtain ⟨epoch, verified, conflict, final, backed⟩ := move.dropped_mem now
        rw [isFinalizeCert, context.member.committee] at final
        have finalized := Deployment.finalized_of_cert (Q := fun _ => True)
          (of_decide_eq_true final)
          (by rw [(notarization_verify_ok verified).1, Notarization.digest, epoch,
            context.member.epoch]) backed
        rw [context.proofConflicts_eq_false finalized] at conflict
        cases conflict)
  obtain ⟨reachable, all⟩ := rule
  refine ⟨fun view block signed => ?_, fun i hi => (all i hi).2⟩
  have lawful := reachable.lawful
  have final := signed.finalized (Q := fun _ => True)
  refine ⟨fun nullified => lawful.not_nullified final nullified.nullified,
    fun other ne notarized => ne (lawful.notarized_eq final notarized.notarized), ?_⟩
  exact fun i hi => (all i hi).1.proofConflicts_eq_false final

/-- Both validators of the pair notarize the first block, so view 0 has no nullification. -/
theorem view_mutual_exclusion_firstBlock :
    ∃ (d : Deployment ideal) (net : Net ideal), d.Reachable firstConduct net ∧
      d.SignedBy net .finalize (notarizeDigest (C := ideal) d.epoch 0 firstBlock.hash) ∧
      ¬ d.SignedBy net .advance (nullifyDigest ideal d.epoch 0) := by
  obtain ⟨d, net, epoch, -, correct, run, all⟩ := exists_firstBlock_final
  have signed : d.SignedBy net .finalize
      (notarizeDigest (C := ideal) d.epoch 0 firstBlock.hash) := by
    refine ⟨Finset.range d.committee.len ∩ d.correct, Finset.inter_subset_left, ?_, fun i hi => ?_⟩
    · have faulty := d.faulty_le
      have sub : Finset.range d.committee.len ∩ d.correct ⊆ Finset.range d.committee.len :=
        Finset.inter_subset_left
      have split := Finset.sum_sdiff (f := d.committee.weightAt) sub
      rw [Finset.sdiff_inter_self_left] at split
      have total := d.committee.weightOf_range
      change d.committee.finalizeThreshold ≤ _
      rw [d.committee.finalizeThreshold_eq, ← total]
      unfold MinimmitCommittee.weightOf at faulty ⊢
      omega
    · rw [epoch]
      exact (all i (Finset.mem_inter.1 hi).2).1
  exact ⟨d, net, run, signed, ((view_mutual_exclusion ideal_collisionFree run).1 0 _ signed).1⟩

/-! ## Heights -/

/-- The height of a block: genesis has height 0, any other block that of its header. -/
def HeightOf (genesisHash block : C.Hash) (height : Nat) : Prop :=
  (block = genesisHash ∧ height = 0) ∨
    ∃ header : BlockHeader C, header.hash = block ∧ header.height = height

/-- The header's height is that of its parent plus one. -/
def HeightChecked (genesisHash : C.Hash) (header : BlockHeader C) : Prop :=
  ∃ height, HeightOf genesisHash header.parentHash height ∧ header.height = height + 1

/-- Only genesis has the genesis hash: a header with it would have height 0. -/
def GenesisUnique (genesisHash : C.Hash) : Prop :=
  ∀ header : BlockHeader C, header.hash = genesisHash → header.height = 0

theorem HeightOf.unique (free : C.CollisionFree) (genesis : GenesisUnique genesisHash) {m n : Nat}
    (hm : HeightOf genesisHash block m) (hn : HeightOf genesisHash block n) : m = n := by
  rcases hm with ⟨root, rfl⟩ | ⟨header, rfl, rfl⟩
  · rcases hn with ⟨-, rfl⟩ | ⟨header, rfl, rfl⟩
    · rfl
    · exact (genesis header root).symm
  · rcases hn with ⟨root, rfl⟩ | ⟨header', same, rfl⟩
    · exact genesis header root
    · rw [free.block_inj same]

open Classical in
/-- The height of a block, 0 when it has none. -/
noncomputable def heightAt (genesisHash block : C.Hash) : Nat :=
  if h : ∃ n, HeightOf genesisHash block n then h.choose else 0

theorem HeightOf.heightAt_eq (free : C.CollisionFree)
    (genesis : GenesisUnique genesisHash) {n : Nat} (h : HeightOf genesisHash block n) :
    heightAt genesisHash block = n := by
  have found : ∃ n, HeightOf genesisHash block n := ⟨n, h⟩
  rw [heightAt, dif_pos found]
  exact found.choose_spec.unique free genesis h

theorem link_unique (free : C.CollisionFree) : Relator.RightUnique (d.protocol Q).link := by
  rintro block parent parent' ⟨header, rfl, rfl, -⟩ ⟨header', same, rfl, -⟩
  rw [free.block_inj same]

theorem link_heightAt (free : C.CollisionFree) (genesis : GenesisUnique d.genesisHash)
    {parent : C.Hash} (link : (d.protocol (HeightChecked d.genesisHash)).link block parent) :
    heightAt d.genesisHash block = heightAt d.genesisHash parent + 1 := by
  obtain ⟨header, rfl, rfl, height, parentHeight, next⟩ := link
  rw [parentHeight.heightAt_eq free genesis,
    HeightOf.heightAt_eq free genesis (.inr ⟨header, rfl, next⟩)]

/-! ## Agreement -/

/-- The block is settled and its header has the height. -/
def Deployment.SettledAt (d : Deployment C) (Q : BlockHeader C → Prop) (A : Set (Nat × C.Hash))
    (height : Nat) (block : C.Hash) : Prop :=
  (d.protocol Q).Settled (signedVotes d.epoch A) block ∧
    ∃ header : BlockHeader C, header.hash = block ∧ Q header ∧ header.height = height

theorem Deployment.SettledAt.mono (h : d.SettledAt Q A height block) (sub : A ⊆ A') :
    d.SettledAt Q A' height block :=
  ⟨h.1.mono (votes_mono sub), h.2⟩

theorem Deployment.SettledAt.unique (free : C.CollisionFree) (genesis : GenesisUnique d.genesisHash)
    (reachable : (d.protocol (HeightChecked d.genesisHash)).Reachable (signedVotes d.epoch A))
    (h : d.SettledAt (HeightChecked d.genesisHash) A height b)
    (h' : d.SettledAt (HeightChecked d.genesisHash) A height b') : b = b' := by
  obtain ⟨settled, header, same, -, high⟩ := h
  obtain ⟨settled', header', same', -, high'⟩ := h'
  refine reachable.lawful.settled_unique (link_unique free)
    (fun _ _ link => link_heightAt free genesis link) settled settled' ?_
  rw [HeightOf.heightAt_eq free genesis (.inr ⟨header, same, high⟩),
    HeightOf.heightAt_eq free genesis (.inr ⟨header', same', high'⟩)]

/-- At height 0 there is only genesis. -/
theorem Deployment.SettledAt.height_pos
    (h : d.SettledAt (HeightChecked d.genesisHash) A height block) : 0 < height := by
  obtain ⟨-, header, -, ⟨parent, -, next⟩, rfl⟩ := h
  omega

/-- What a chain may hold at a height: genesis at 0, and settled blocks. -/
def Deployment.HeldAt (d : Deployment C) (Q : BlockHeader C → Prop) (A : Set (Nat × C.Hash))
    (height : Nat) (block : C.Hash) : Prop :=
  (height = 0 ∧ block = d.genesisHash) ∨ d.SettledAt Q A height block

theorem Deployment.HeldAt.mono (h : d.HeldAt Q A height block) (sub : A ⊆ A') :
    d.HeldAt Q A' height block :=
  h.imp_right fun settled => settled.mono sub

theorem Deployment.HeldAt.unique (free : C.CollisionFree) (genesis : GenesisUnique d.genesisHash)
    (reachable : (d.protocol (HeightChecked d.genesisHash)).Reachable (signedVotes d.epoch A))
    (h : d.HeldAt (HeightChecked d.genesisHash) A height b)
    (h' : d.HeldAt (HeightChecked d.genesisHash) A height b') : b = b' := by
  rcases h with ⟨rfl, rfl⟩ | settled
  · rcases h' with ⟨-, rfl⟩ | settled'
    · rfl
    · exact absurd settled'.height_pos (lt_irrefl 0)
  · rcases h' with ⟨rfl, rfl⟩ | settled'
    · exact absurd settled.height_pos (lt_irrefl 0)
    · exact settled.unique free genesis reachable settled'

namespace MinimmitReplica

variable {P : Policy C} {r r' : MinimmitReplica C} {os hist : List (Output C)}

/-- A verdict is the only way a header is learned. -/
theorem Leaf.blocks_cases (move : Leaf P A r os r') :
    r'.blocks = r.blocks ∨ ∃ view p, r.pendingProposals.get? view = some p ∧
      P.verdict r view p ∧ r'.blocks = r.blocks.insert p.blockHash (view, p.block) := by
  cases move with
  | learn view p pending verdict => exact .inr ⟨view, p, pending, verdict, rfl⟩
  | cast p signature pending verdict => exact .inr ⟨r.view, p, pending, verdict, rfl⟩
  | extend view tip entry | extendSilently view tip entry => exact .inl (complete_blocks _ _)
  | complete height => exact .inl (complete_blocks _ _)
  | park a header cert =>
    rw [park_frame]
    exact .inl rfl
  | _ => exact .inl rfl

/-- The chain grows only by blocks on the line below an `L`-notarized tip. -/
theorem Leaf.chain_cases (move : Leaf P A r os r') :
    (r'.chain = r.chain ∧ ∀ block height, .effect (.consensusFinal block height) ∉ os) ∨
      ∃ view tip entry, Certified A r.committee r.epoch view tip ∧ OnLine r.blocks tip entry ∧
        r'.chain = r.chain.insert entry.1 entry.2.2 ∧
        ∀ block height, .effect (.consensusFinal block height) ∈ os →
          height = entry.1 ∧ block = entry.2.2 := by
  cases move with
  | note os notes => exact .inl ⟨rfl, fun _ _ final => (notes _ final).elim⟩
  | form => exact .inl ⟨rfl, fun _ _ final => nomatch mem_singleton.1 final⟩
  | timeout | contradict | drop => exact .inl ⟨rfl, by simp⟩
  | cast p signature =>
    refine .inl ⟨rfl, fun block height final => ?_⟩
    split_ifs at final <;> simp at final
  | extend view tip entry certified line =>
    refine .inr ⟨view, tip, entry, certified, line, extended_chain _ _ _,
      fun block height final => ?_⟩
    rcases mem_cons.1 final with eq | final
    · cases eq
      exact ⟨rfl, rfl⟩
    · obtain ⟨b, eq⟩ := complete_outputs _ _ _ final
      cases eq
  | extendSilently view tip entry rest certified line =>
    exact .inr ⟨view, tip, entry, certified, line entry mem_cons_self,
      extended_chain _ _ _, by simp⟩
  | complete height =>
    refine .inl ⟨by rw [complete_frame], fun block n final => ?_⟩
    obtain ⟨b, eq⟩ := complete_outputs _ _ _ final
    cases eq
  | park a header cert =>
    rw [park_frame]
    exact .inl ⟨rfl, by simp⟩
  | _ => exact .inl ⟨rfl, by simp⟩

end MinimmitReplica

/-- Stored headers carry their hash and were accepted, and whatever is in the chain or was
announced as final is settled. -/
structure Placed (d : Deployment C) (Q : BlockHeader C → Prop) (A : Set (Nat × C.Hash))
    (r : MinimmitReplica C) (hist : List (Output C)) : Prop where
  blocks : ∀ hash view header, r.blocks.get? hash = some (view, header) →
    header.hash = hash ∧ Q header
  chain : ∀ height block, r.chain.get? height = some block → d.HeldAt Q A height block
  finals : ∀ height block, .effect (.consensusFinal block height) ∈ hist →
    d.SettledAt Q A height block

namespace Placed

variable {r r' : MinimmitReplica C} {os hist : List (Output C)}

theorem mono (h : Placed d Q A r hist) (sub : A ⊆ A') : Placed d Q A' r hist where
  blocks := h.blocks
  chain height block held := (h.chain height block held).mono sub
  finals height block final := (h.finals height block final).mono sub

theorem boot {out : List (Output C)} (boots : d.BootsAs i r out) : Placed d Q ∅ r out := by
  obtain ⟨signer, rfl, rfl⟩ := boots.eq_initial
  refine ⟨by simp [initial], fun height block held => ?_, fun height block final => ?_⟩
  · simp only [initial, OrdMap.get?_insert] at held
    split_ifs at held with zero
    · cases held
      exact .inl ⟨zero, rfl⟩
    · simp at held
  · exact (viewEntryEffects_notes _ _ _ final).elim

variable (h : Placed d Q A r hist)
include h

/-- Stored headers make up protocol lines. -/
theorem descends {tip : C.Hash} (reach : Reaches r.blocks tip block) :
    (d.protocol Q).Descends tip block := by
  induction reach with
  | refl => exact .refl
  | parent reach stored ih =>
    obtain ⟨hash, accepted⟩ := h.blocks _ _ _ stored
    exact ih.tail ⟨_, hash, rfl, accepted⟩

theorem settledAt (context : Deployment.Context d Q i A r) {tip : C.Hash}
    {entry : Nat × Nat × C.Hash} (certified : Certified A r.committee r.epoch view tip)
    (line : OnLine r.blocks tip entry) : d.SettledAt Q A entry.1 entry.2.2 := by
  obtain ⟨cert, verified, message, backed⟩ := certified
  rw [context.member.committee] at verified
  rw [context.member.epoch] at message
  obtain ⟨reach, header, stored, height⟩ := line
  obtain ⟨hash, accepted⟩ := h.blocks _ _ _ stored
  exact ⟨⟨view, tip, Deployment.finalized_of_cert verified message backed, h.descends reach⟩,
    header, hash, accepted, height⟩

theorem leaf {P : Policy C} (context : Deployment.Context d Q i A r)
    (accepts : ∀ r view p, P.verdict r view p → Q p.block) (move : Leaf P A r os r') :
    Placed d Q (A ∪ releasedBy os) r' (hist ++ os) := by
  have grown : Placed d Q (A ∪ releasedBy os) r hist := h.mono Set.subset_union_left
  constructor
  · intro hash view header stored
    rcases move.blocks_cases with same | ⟨view', p, pending, verdict, eq⟩
    · rw [same] at stored
      exact h.blocks hash view header stored
    · rw [eq, OrdMap.get?_insert] at stored
      split_ifs at stored with this
      · cases stored
        rw [this]
        exact ⟨(context.ready.pending _ _ pending).hash_eq, accepts _ _ _ verdict⟩
      · exact h.blocks hash view header stored
  · intro height block held
    rcases move.chain_cases with ⟨same, -⟩ | ⟨view, tip, entry, certified, line, eq, -⟩
    · rw [same] at held
      exact grown.chain height block held
    · rw [eq, OrdMap.get?_insert] at held
      split_ifs at held with this
      · cases held
        rw [this]
        exact .inr ((h.settledAt context certified line).mono Set.subset_union_left)
      · exact grown.chain height block held
  · intro height block final
    rcases mem_append.1 final with before | now
    · exact grown.finals height block before
    · rcases move.chain_cases with ⟨-, none⟩ | ⟨view, tip, entry, certified, line, -, only⟩
      · exact absurd now (none block height)
      · obtain ⟨rfl, rfl⟩ := only block height now
        exact (h.settledAt context certified line).mono Set.subset_union_left

end Placed

theorem Deployment.Reachable.placed (free : C.CollisionFree)
    (accepts : ∀ r view p, K.verdict r view p → Q p.block) (run : d.Reachable K net) :
    ∀ i ∈ d.correct, Placed d Q net.signed (net.replicas i) (net.outputs i) := by
  have rule := run.localInvariant (G := fun _ => True) (I := Placed d Q) free accepts
    (fun _ => trivial) Placed.boot (fun sub _ h => h.mono sub)
    (fun context move h => h.leaf context accepts move)
  exact fun i hi => (rule.2 i hi).2

/-- Correct replicas never hold, and never announce as final, different blocks at one
height, whenever in the run each does so. -/
theorem agreement (free : C.CollisionFree) (genesis : GenesisUnique d.genesisHash)
    (accepts : ∀ r view p, K.verdict r view p → HeightChecked d.genesisHash p.block)
    (run : d.Reachable K net) (later : d.Leads K net net') (hi : i ∈ d.correct)
    (hj : j ∈ d.correct) :
    (∀ height b b', (net.replicas i).chain.get? height = some b →
      (net'.replicas j).chain.get? height = some b' → b = b') ∧
    ∀ height b b', .effect (.consensusFinal b height) ∈ net.outputs i →
      .effect (.consensusFinal b' height) ∈ net'.outputs j → b = b' := by
  have run' := run.leads later
  have reachable := (run'.context free accepts).1
  have placed := (run.placed free accepts i hi).mono later.signed_subset
  have placed' := run'.placed free accepts j hj
  constructor
  · intro height b b' held held'
    exact (placed.chain height b held).unique free genesis reachable
      (placed'.chain height b' held')
  · intro height b b' final final'
    exact (placed.finals height b final).unique free genesis reachable
      (placed'.finals height b' final')

theorem ideal_genesisUnique : GenesisUnique (C := ideal) (0 : Nat) :=
  fun _ same => absurd same (ideal_hashDomain_ne_zero _ _ _)

theorem firstBlock_heightChecked : HeightChecked (C := ideal) (0 : Nat) firstBlock :=
  ⟨0, .inl ⟨rfl, rfl⟩, rfl⟩

/-- Both validators of the pair hold the first block at height 1. -/
theorem agreement_firstBlock :
    ∃ (d : Deployment ideal) (net : Net ideal), d.Reachable firstConduct net ∧
      (net.replicas 0).chain.get? 1 = some firstBlock.hash ∧
      ∀ b', (net.replicas 1).chain.get? 1 = some b' → firstBlock.hash = b' := by
  obtain ⟨d, net, -, genesis, correct, run, all⟩ := exists_firstBlock_final
  have zero : 0 ∈ d.correct := by rw [correct]; decide
  have one : 1 ∈ d.correct := by rw [correct]; decide
  have accepts : ∀ r view p, firstConduct.verdict r view p →
      HeightChecked d.genesisHash p.block := by
    intro r view p (same : p.block = firstBlock)
    rw [same, genesis]
    exact firstBlock_heightChecked
  have same := agreement ideal_collisionFree (by rw [genesis]; exact ideal_genesisUnique) accepts
    run .refl zero one
  exact ⟨d, net, run, (all 0 zero).2, fun b' held => same.1 1 _ b' (all 0 zero).2 held⟩

end Dexos.Minimmit
