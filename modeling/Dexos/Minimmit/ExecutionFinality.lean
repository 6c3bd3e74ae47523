import Dexos.Minimmit.Agreement

/-!
# Execution-certified finality

A height becomes consensus-final once and is finalized once, when an execution
certificate for the same block, view and root is joined with it. A certificate is parked
under its height only, so the join is right because every `L`-certificate of a height is
for the one settled block there, and because the view bound to that block does not change
in between.
-/

namespace Dexos.Minimmit

open Foundations MinimmitReplica List OrdMap

variable {C : Crypto} {d : Deployment C} {K : Conduct C} {A A' : Set (Nat × C.Hash)} {i : Nat}
  {r r' : MinimmitReplica C} {os hist : List (Output C)} {net : Net C}

/-! ## Finality events -/

/-- The effect announces a finality stage of the height. -/
def concerns (height : Nat) : Effect C → Bool
  | .consensusFinal _ h => h = height
  | .finalized _ h => h = height
  | _ => false

/-- The finality effects of a height, in order. -/
def finalityEvents (height : Nat) (outputs : List (Output C)) : List (Effect C) :=
  (effects outputs).filter (concerns height)

/-- The finality effects that lead to a stage. -/
def stageEvents (height : Nat) : Option (FinalityStage C) → List (Effect C)
  | none => []
  | some (.consensusFinal _ block) => [.consensusFinal block height]
  | some (.finalized _ block _ _) => [.consensusFinal block height, .finalized block height]

theorem finalityEvents_append (height : Nat) (os os' : List (Output C)) :
    finalityEvents height (os ++ os') = finalityEvents height os ++ finalityEvents height os' := by
  simp [finalityEvents, effects]

/-- Outputs without finality effects. -/
def Silent (os : List (Output C)) : Prop := ∀ height, finalityEvents height os = []

theorem silent_nil : Silent ([] : List (Output C)) := fun _ => rfl

theorem silent_of_forall (h : ∀ e height, .effect e ∈ os → concerns height e = false) :
    Silent os := by
  intro height
  rw [finalityEvents, filter_eq_nil_iff]
  intro e mem
  obtain ⟨o, ho, eq⟩ := mem_filterMap.1 mem
  cases o with
  | effect e' =>
    cases eq
    rw [h e height ho]
    exact Bool.false_ne_true
  | formed f => cases eq
  | dropped n => cases eq

theorem silent_of_notes (notes : ∀ o ∈ os, IsNote o) : Silent os := by
  apply silent_of_forall
  intro e height mem
  have note := notes _ mem
  cases e with
  | consensusFinal => exact note.elim
  | finalized => exact note.elim
  | _ => rfl

theorem stageEvents_prefix (height : Nat) (stage : Option (FinalityStage C)) :
    ∃ block, stageEvents height stage <+:
      [.consensusFinal block height, .finalized block height] := by
  cases stage with
  | none => exact ⟨(nullifyDigest C 0 0), nil_prefix⟩
  | some stage =>
    cases stage with
    | consensusFinal view block => exact ⟨block, prefix_append [_] [_]⟩
    | finalized view block root cert => exact ⟨block, prefix_rfl⟩

/-! ## The invariant -/

/-- The block's header is stored under the view and has the height. -/
def Bound (blocks : OrdMap C.Hash (Nat × BlockHeader C)) (height view : Nat) (block : C.Hash) :
    Prop :=
  ∃ header, blocks.get? block = some (view, header) ∧ header.height = height

/-- The certificate finalizes the execution of the block in the view with the root. -/
def Deployment.Executes (d : Deployment C) (cert : Certificate C) (view height : Nat)
    (block root : C.Hash) : Prop :=
  d.committee.verify cert .finalize = .ok () ∧
    cert.message = executionCommitmentDigest d.epoch view height block root

/-- Ordered heights and parked certificates refer to the stored view of their block,
finalized heights carry their own certificate, and the effects so far are those of the
stages reached. -/
structure Executed (d : Deployment C) (A : Set (Nat × C.Hash)) (r : MinimmitReplica C)
    (hist : List (Output C)) : Prop where
  ordered : ∀ height view block, r.finality.get? height = some (.consensusFinal view block) →
    r.chain.get? height = some block ∧ Bound r.blocks height view block
  parked : ∀ height root cert, r.execCertificates.get? height = some (root, cert) →
    (∀ v b root' cert', r.finality.get? height ≠ some (.finalized v b root' cert')) →
    ∃ view block, Bound r.blocks height view block ∧ d.Executes cert view height block root ∧
      Backed A cert
  done : ∀ height view block root cert,
    r.finality.get? height = some (.finalized view block root cert) →
    d.Executes cert view height block root
  events : ∀ height, finalityEvents height hist = stageEvents height (r.finality.get? height)

/-- Correct validators attested only settled blocks. -/
def Deployment.AttestsSettled (d : Deployment C) (A : Set (Nat × C.Hash)) : Prop :=
  ∀ j ∈ d.correct, ∀ view height block root,
    (j, executionCommitmentDigest d.epoch view height block root) ∈ A →
    d.SettledAt (HeightChecked d.genesisHash) A height block

/-- A valid verdict binds a stored block to another view only when its height is finalized,
or neither ordered nor covered by a parked certificate. -/
def RebindSafe (r : MinimmitReplica C) (view : Nat) (p : Propose C) : Prop :=
  ∀ view' header, r.blocks.get? p.blockHash = some (view', header) → view' ≠ view →
    (∃ v b root cert, r.finality.get? p.block.height = some (.finalized v b root cert)) ∨
      (r.finality.get? p.block.height = none ∧ r.execCertificates.get? p.block.height = none)

namespace Executed

theorem mono (h : Executed d A r hist) (sub : A ⊆ A') : Executed d A' r hist where
  __ := h
  parked height root cert held open_ :=
    let ⟨view, block, bound, executes, backed⟩ := h.parked height root cert held open_
    ⟨view, block, bound, executes, backed.mono sub⟩

theorem boot {out : List (Output C)} (boots : d.BootsAs i r out) : Executed d ∅ r out := by
  obtain ⟨signer, rfl, rfl⟩ := boots.eq_initial
  refine ⟨?_, ?_, ?_, fun height => ?_⟩
  · intro height view block held
    cases held
  · intro height root cert held
    cases held
  · intro height view block root cert held
    cases held
  · exact silent_of_notes (viewEntryEffects_notes _ _) height

variable (h : Executed d A r hist)
include h

section Move

variable (finality : r'.finality = r.finality) (certs : r'.execCertificates = r.execCertificates)
  (chain : r'.chain = r.chain) (silent : Silent os)
include finality certs chain silent

/-- A move that keeps the stages, the certificates, the chain and every binding in use. -/
theorem keep (kept : ∀ {height v block}, Bound r.blocks height v block →
      ((∃ v b root cert, r.finality.get? height = some (.finalized v b root cert)) ∨
        (r.finality.get? height = none ∧ r.execCertificates.get? height = none) → False) →
      Bound r'.blocks height v block) : Executed d A r' (hist ++ os) := by
  constructor
  · intro height v block held
    rw [finality] at held
    obtain ⟨inChain, bound⟩ := h.ordered height v block held
    rw [chain]
    refine ⟨inChain, kept bound ?_⟩
    rintro (⟨v', b, root, cert, final⟩ | ⟨none, -⟩)
    · simp [held] at final
    · simp [held] at none
  · intro height root cert held open_
    rw [certs] at held
    rw [finality] at open_
    obtain ⟨v, block, bound, rest⟩ := h.parked height root cert held open_
    refine ⟨v, block, kept bound ?_, rest⟩
    rintro (⟨v', b, root', cert', final⟩ | ⟨-, none⟩)
    · exact open_ v' b root' cert' final
    · simp [held] at none
  · rw [finality]
    exact h.done
  · intro height
    rw [finalityEvents_append, silent height, append_nil, finality]
    exact h.events height

theorem frame (blocks : r'.blocks = r.blocks) : Executed d A r' (hist ++ os) :=
  h.keep finality certs chain silent fun bound _ => by rwa [blocks]

theorem learn (free : C.CollisionFree)
    (stored : ∀ hash view header, r.blocks.get? hash = some (view, header) → header.hash = hash)
    {view : Nat} {p : Propose C} (hash : p.block.hash = p.blockHash) (safe : RebindSafe r view p)
    (blocks : r'.blocks = r.blocks.insert p.blockHash (view, p.block)) :
    Executed d A r' (hist ++ os) := by
  apply h.keep finality certs chain silent
  rintro height v block ⟨header, found, high⟩ used
  rw [blocks]
  by_cases same : block = p.blockHash
  · subst same
    have eq : header = p.block := free.block_inj ((stored _ _ _ found).trans hash.symm)
    subst eq
    have view_eq : v = view := by
      by_contra ne
      apply used
      rw [← high]
      exact safe v _ found ne
    rw [view_eq]
    exact ⟨p.block, get?_insert_self _ _ _, high⟩
  · exact ⟨header, by rwa [get?_insert, if_neg same], high⟩

end Move

/-- A height enters the chain as consensus-final. -/
theorem record {entry : Nat × Nat × C.Hash}
    (fresh : r.finality.get? entry.1 = none) (bound : Bound r.blocks entry.1 entry.2.1 entry.2.2) :
    Executed d A (r.recorded entry.1 entry.2.1 entry.2.2)
      (hist ++ [.effect (.consensusFinal entry.2.2 entry.1)]) := by
  constructor
  · intro height view block held
    simp only [recorded, get?_insert] at held ⊢
    split_ifs at held ⊢ with this
    · cases held
      rw [this]
      exact ⟨rfl, bound⟩
    · exact h.ordered height view block held
  · intro height root cert held open_
    refine h.parked height root cert held fun v b root' cert' final => ?_
    have other : height ≠ entry.1 := by
      rintro rfl
      simp [fresh] at final
    apply open_ v b root' cert'
    simp only [recorded, get?_insert, if_neg other]
    exact final
  · intro height view block root cert held
    simp only [recorded, get?_insert] at held
    split_ifs at held with this
    · cases held
    · exact h.done height view block root cert held
  · intro height
    rw [finalityEvents_append, h.events]
    simp only [recorded, get?_insert]
    split_ifs with this
    · rw [this, fresh]
      simp [finalityEvents, effects, concerns, stageEvents]
    · simp [finalityEvents, effects, concerns, Ne.symm this]

omit h

/-- Some correct validator signed what an execution certificate is for. -/
theorem exists_correct_signer {cert : Certificate C} {view height : Nat} {block root : C.Hash}
    (executes : d.Executes cert view height block root) (backed : Backed A cert) :
    ∃ j ∈ d.correct, (j, executionCommitmentDigest d.epoch view height block root) ∈ A := by
  obtain ⟨members, heavy, -⟩ := MinimmitCommittee.verify_ok executes.1
  have heavier : d.committee.byzantineWeight <
      d.committee.weightOf (MinimmitCommittee.signers cert.signerBitmap) := by
    have sizing := d.committee.sizing
    have threshold : d.committee.threshold .finalize =
        d.committee.finalizeSet.totalWeight - d.committee.byzantineWeight :=
      d.committee.finalizeThreshold_eq
    omega
  obtain ⟨j, signer, correct⟩ :=
    @Population.exists_correct_mem _ _ (d.protocol fun _ => True).toPopulation _ members heavier
  exact ⟨j, correct, executes.2 ▸ backed j signer⟩

/-- Joining a parked certificate with an ordered height. -/
theorem complete (h : Executed d A r hist) (free : C.CollisionFree)
    (genesis : GenesisUnique d.genesisHash)
    (reachable : (d.protocol (HeightChecked d.genesisHash)).Reachable (signedVotes d.epoch A))
    (held : ∀ height block, r.chain.get? height = some block →
      d.HeldAt (HeightChecked d.genesisHash) A height block)
    (attested : d.AttestsSettled A) (height : Nat) :
    Executed d A (r.tryCompleteFinality height).1 (hist ++ (r.tryCompleteFinality height).2) := by
  rcases r.tryCompleteFinality_cases height with
    ⟨root, cert, view, block, parked, stage, eq⟩ | ⟨-, eq⟩
  · rw [eq]
    obtain ⟨inChain, bound⟩ := h.ordered height view block stage
    obtain ⟨view', block', bound', executes, backed⟩ := h.parked height root cert parked (by
      intro v b root' cert' final
      rw [stage] at final
      cases final)
    have same : block' = block := by
      obtain ⟨j, correct, signed⟩ := exists_correct_signer executes backed
      have settled := attested j correct view' height block' root signed
      exact Deployment.HeldAt.unique free genesis reachable (.inr settled)
        (held height block inChain)
    subst same
    have sameView : view' = view := by
      obtain ⟨header, found, -⟩ := bound
      obtain ⟨header', found', -⟩ := bound'
      rw [found] at found'
      cases found'
      rfl
    subst sameView
    constructor
    · intro n v b stage'
      simp only [get?_insert] at stage'
      split_ifs at stage'
      · cases stage'
      · exact h.ordered n v b stage'
    · intro n root' cert' parked' open_
      refine h.parked n root' cert' parked' fun v b root'' cert'' final => ?_
      have other : n ≠ height := by
        rintro rfl
        simp [stage] at final
      apply open_ v b root'' cert''
      simp only [get?_insert, if_neg other]
      exact final
    · intro n v b root' cert' final
      simp only [get?_insert] at final
      split_ifs at final with this
      · cases final
        rwa [this]
      · exact h.done n v b root' cert' final
    · intro n
      rw [finalityEvents_append, h.events]
      simp only [get?_insert]
      split_ifs with this
      · rw [this, stage]
        simp [finalityEvents, effects, concerns, stageEvents]
      · simp [finalityEvents, effects, concerns, Ne.symm this]
  · rw [eq]
    exact h.frame rfl rfl rfl silent_nil rfl

end Executed

/-- A path of blocks that are unique at their heights never conflicts with the chain. -/
theorem extendChain_ne_none {G : Nat → C.Hash → Prop}
    (unique : ∀ {n b b'}, G n b → G n b' → b = b') {path : List (Nat × Nat × C.Hash)}
    (chain : ∀ n b, r.chain.get? n = some b → G n b) (line : ∀ e ∈ path, G e.1 e.2.2) :
    (r.extendChain path []).2 ≠ none := by
  induction path generalizing r with
  | nil => simp [extendChain]
  | cons entry rest ih =>
    obtain ⟨height, view, block⟩ := entry
    have here : G height block := line _ mem_cons_self
    have later : ∀ e ∈ rest, G e.1 e.2.2 := fun e he => line e (mem_cons_of_mem _ he)
    have agrees : (r.chain.get? height).any (· ≠ block) = false := by
      rw [Option.any_eq_false]
      intro b' found
      simpa using (unique (chain height b' found) here)
    by_cases fresh : r.finality.get? height = none
    · rw [@extendChain_cons _ r (height, view, block) rest agrees fresh]
      have next := ih (r := (r.extended height view block).1) (by
        rw [extended_chain]
        intro n b found
        rw [get?_insert] at found
        split_ifs at found with this
        · cases found
          rwa [this]
        · exact chain n b found) later
      simpa using next
    · have present : r.finality.contains height = true := by
        rw [← Bool.not_eq_false]
        exact fun absent => fresh (contains_eq_false.1 absent)
      simp only [extendChain, agrees, present]
      simpa using ih chain later

/-! ## Runs -/

theorem silent_broadcast (m : ConsensusMessage C) : Silent [.effect (.broadcast m)] :=
  fun _ => rfl

/-- A formed execution certificate is made of known attestations. -/
theorem MinimmitReplica.Ready.backed_execution (ready : Ready A r) {height : Nat} {digest : C.Hash}
    {cert : Certificate C}
    (formed : (r.execTally height).tryForm r.committee digest digest .finalize = some cert) :
    cert.message = digest ∧ Backed A cert := by
  obtain ⟨message, signers, -, -⟩ := Tally.tryForm_some formed
  refine ⟨message, fun j hj => ?_⟩
  rw [signers] at hj
  rw [message]
  exact ready.execs height digest j (Tally.mem_voters.1 hj)

namespace Executed

variable {P : Policy C}

theorem leaf (h : Executed d A r hist) (free : C.CollisionFree)
    (genesis : GenesisUnique d.genesisHash)
    (placed : Placed d (HeightChecked d.genesisHash) A r hist)
    (context : Deployment.Context d (HeightChecked d.genesisHash) i A r)
    (attested : d.AttestsSettled A)
    (rebinds : ∀ r view p, P.verdict r view p → RebindSafe r view p) (move : Leaf P A r os r') :
    Executed d (A ∪ releasedBy os) r' (hist ++ os) := by
  suffices here : Executed d A r' (hist ++ os) from here.mono Set.subset_union_left
  cases move with
  | note os notes => exact h.frame rfl rfl rfl (silent_of_notes notes) rfl
  | form | drop => exact h.frame rfl rfl rfl (fun _ => rfl) rfl
  | timeout | contradict => exact h.frame rfl rfl rfl (silent_broadcast _) rfl
  | learn view p pending verdict =>
    exact h.learn rfl rfl rfl silent_nil free (fun _ _ _ stored => (placed.blocks _ _ _ stored).1)
      (context.ready.pending _ _ pending).hash_eq (rebinds _ _ _ verdict) rfl
  | cast p signature pending verdict =>
    exact h.learn rfl rfl rfl (silent_broadcast _) free
      (fun _ _ _ stored => (placed.blocks _ _ _ stored).1)
      (context.ready.pending _ _ pending).hash_eq (rebinds _ _ _ verdict) rfl
  | extend view tip entry certified line fresh agrees =>
    have settled := placed.settledAt context certified line
    have recorded := h.record fresh line.2
    have held : ∀ n b, (r.recorded entry.1 entry.2.1 entry.2.2).chain.get? n = some b →
        d.HeldAt (HeightChecked d.genesisHash) A n b := by
      intro n b found
      simp only [MinimmitReplica.recorded, get?_insert] at found
      split_ifs at found with this
      · cases found
        rw [this]
        exact .inr settled
      · exact placed.chain n b found
    have completed := recorded.complete free genesis context.reachable held attested entry.1
    rwa [append_assoc] at completed
  | extendSilently view tip entry rest certified line fresh agrees conflict =>
    refine absurd conflict (extendChain_ne_none (G := d.HeldAt (HeightChecked d.genesisHash) A)
      (fun hb hb' => hb.unique free genesis context.reachable hb') placed.chain ?_)
    exact fun e he => .inr (placed.settledAt context certified (line e he))
  | park a header cert epoch stored height formed verified =>
    unfold parkCertificate
    split_ifs with present
    · exact h.frame rfl rfl rfl silent_nil rfl
    · obtain ⟨message, backed⟩ := context.ready.backed_execution formed
      rw [context.member.committee] at verified
      rw [ExecAttest.digest, epoch, context.member.epoch] at message
      rw [append_nil]
      refine ⟨h.ordered, fun n root cert' held open_ => ?_, h.done, h.events⟩
      simp only [get?_insert] at held
      split_ifs at held with this
      · cases held
        subst this
        exact ⟨a.view, a.blockHash, ⟨header, stored, height⟩, ⟨verified, message⟩, backed⟩
      · exact h.parked n root cert' held open_
  | complete height => exact h.complete free genesis context.reachable placed.chain attested height
  | _ => exact h.frame rfl rfl rfl silent_nil rfl

end Executed

/-- A replica itself signs no attestation. -/
theorem releasedBy_ne_exec (free : C.CollisionFree) {x : Nat × C.Hash} (hx : x ∈ releasedBy os)
    (epoch view height : Nat) (block root : C.Hash) :
    x.2 ≠ executionCommitmentDigest epoch view height block root := by
  obtain ⟨o, -, released⟩ := hx
  unfold Minimmit.released at released
  split at released
  · rcases released with rfl | rfl
    · exact free.notarize_ne_exec
    · exact fun same => free.exec_ne_propose same.symm
  · rw [Set.mem_singleton_iff.1 released]
    exact free.notarize_ne_exec
  · rw [Set.mem_singleton_iff.1 released]
    exact free.nullify_ne_exec
  · exact released.elim

namespace Deployment

theorem AttestsSettled.union {B : Set (Nat × C.Hash)} (h : d.AttestsSettled A)
    (settled : ∀ j ∈ d.correct, ∀ view height block root,
      (j, executionCommitmentDigest d.epoch view height block root) ∈ B →
      d.SettledAt (HeightChecked d.genesisHash) A height block) : d.AttestsSettled (A ∪ B) := by
  intro j correct view height block root signed
  apply SettledAt.mono _ Set.subset_union_left
  rcases signed with old | new
  · exact h j correct view height block root old
  · exact settled j correct view height block root new

theorem AttestsSettled.released (free : C.CollisionFree) (h : d.AttestsSettled A) :
    d.AttestsSettled (A ∪ releasedBy os) :=
  h.union fun _ _ _ _ _ _ signed => absurd rfl (releasedBy_ne_exec free signed _ _ _ _ _)

/-- When correct nodes attest only what their replica announced, they attest settled
blocks. -/
theorem Reachable.attestsSettled (free : C.CollisionFree)
    (heights : ∀ r view p, K.verdict r view p → HeightChecked d.genesisHash p.block)
    (signing : ∀ out view height block root,
      K.signs out (executionCommitmentDigest d.epoch view height block root) →
      .effect (.consensusFinal block height) ∈ out)
    (run : d.Reachable K net) : d.AttestsSettled net.signed := by
  obtain ⟨start, boots, leads⟩ := run
  induction leads with
  | refl =>
    rw [boots.signed]
    intro j _ _ _ _ _ signed
    exact signed.elim
  | tail before step ih =>
    cases step with
    | deliver i input => exact ih.released free
    | sign i digest correct _ signs =>
      apply ih.union
      intro j _ view height block root signed
      obtain ⟨rfl, rfl⟩ := Prod.mk.inj (Set.mem_singleton_iff.1 signed)
      have placed := Reachable.placed free heights ⟨start, boots, before⟩ j correct
      exact placed.finals height block (signing _ view height block root signs)
    | corrupt i digest faulty =>
      apply ih.union
      intro j correct view height block root signed
      obtain ⟨rfl, -⟩ := Prod.mk.inj (Set.mem_singleton_iff.1 signed)
      exact absurd correct faulty

end Deployment

/-- In every reachable network whose nodes accept headers one above their parent, do not
rebind a block in use to another view, and attest only blocks their replica announced, a
correct replica announces each height at most as consensus-final and then as finalized,
for one block, and each finalized stage carries the execution certificate of exactly its
view, block and root. -/
theorem execution_finality (free : C.CollisionFree) (genesis : GenesisUnique d.genesisHash)
    (heights : ∀ r view p, K.verdict r view p → HeightChecked d.genesisHash p.block)
    (rebinds : ∀ r view p, K.verdict r view p → RebindSafe r view p)
    (signing : ∀ out view height block root,
      K.signs out (executionCommitmentDigest d.epoch view height block root) →
      .effect (.consensusFinal block height) ∈ out)
    (run : d.Reachable K net) (hi : i ∈ d.correct) :
    (∀ height, ∃ block, finalityEvents height (net.outputs i) <+:
      [.consensusFinal block height, .finalized block height]) ∧ ∀ height view block root cert,
      (net.replicas i).finality.get? height = some (.finalized view block root cert) →
      d.committee.verify cert .finalize = .ok () ∧
        cert.message = executionCommitmentDigest d.epoch view height block root := by
  have rule := run.localInvariant (G := d.AttestsSettled)
    (I := fun A r hist => d.AttestsSettled A ∧
      Placed d (HeightChecked d.genesisHash) A r hist ∧ Executed d A r hist)
    free heights (fun run => run.attestsSettled free heights signing)
    (fun boot => ⟨fun _ _ _ _ _ _ signed => signed.elim, .boot boot, .boot boot⟩)
    (fun sub attests inv => ⟨attests, inv.2.1.mono sub, inv.2.2.mono sub⟩)
    (fun context move inv =>
      ⟨inv.1.released free, inv.2.1.leaf context heights move,
        inv.2.2.leaf free genesis inv.2.1 context inv.1 rebinds move⟩)
  obtain ⟨-, -, executed⟩ := (rule.2 i hi).2
  constructor
  · intro height
    rw [executed.events height]
    exact stageEvents_prefix height _
  · exact executed.done

/-- The node attests only blocks its replica announced. -/
def signsAnnounced (out : List (Output ideal)) (digest : ideal.Hash) : Prop :=
  ∀ view height block root,
    digest = executionCommitmentDigest (C := ideal) 0 view height block root →
    .effect (.consensusFinal block height) ∈ out

def announced (out : List (Output ideal)) (a : ExecAttest ideal) : Bool :=
  decide (.effect (.consensusFinal a.blockHash a.height) ∈ out)

theorem signsAnnounced_of_announced {out : List (Output ideal)} {a : ExecAttest ideal}
    (h : announced out a = true) : signsAnnounced out a.digest := by
  intro view height block root same
  obtain ⟨-, -, rfl, rfl, -⟩ := ideal_collisionFree.exec_inj same
  exact of_decide_eq_true h

/-- The attestation of the first block in a view. -/
def attestIn (view validator : Nat) : ExecAttest ideal :=
  ⟨0, view, 1, firstBlock.hash, (5 : Nat), validator,
    (validator, executionCommitmentDigest (C := ideal) 0 view 1 firstBlock.hash (5 : Nat))⟩

/-- A node that accepts the first block once. -/
def carefulConduct : Conduct ideal where
  verdict r _ p := p.block = firstBlock ∧ r.blocks.get? p.blockHash = none
  attest _ _ := True
  signs := signsAnnounced

/-- The first block becomes final and both nodes attest its execution. -/
def finalScript : List (Event ideal) :=
  firstScript ++ [.attest 0 (attestIn 0 0), .attest 1 (attestIn 0 1),
      .deliver 0 (.message (.execAttest (attestIn 0 0))),
      .deliver 0 (.message (.execAttest (attestIn 0 1)))]

/-- A stored stage is final and shows something. -/
def finalShows (shows : Nat → ideal.Hash → ideal.Hash → Certificate ideal → Bool) :
    Option (FinalityStage ideal) → Bool
  | some (.finalized view block root cert) => shows view block root cert
  | _ => false

theorem execution_finality_firstBlock :
    ∃ (d : Deployment ideal) (net : Net ideal), d.Reachable carefulConduct net ∧ ∃ view root cert,
        (net.replicas 0).finality.get? 1 = some (.finalized view firstBlock.hash root cert) ∧
        cert.message = executionCommitmentDigest d.epoch view 1 firstBlock.hash root := by
  obtain ⟨d, net, bench, epoch, genesis, correct, run, shown, reached⟩ :=
    exists_duoRun
      (fun r _ p => decide (p.block = firstBlock ∧ r.blocks.get? p.blockHash = none))
      announced finalScript (K := carefulConduct)
      (fun r _ p h =>
        (of_decide_eq_true h : p.block = firstBlock ∧ r.blocks.get? p.blockHash = none))
      (fun _ _ => trivial) (fun _ _ h => signsAnnounced_of_announced h)
      (q := fun bench => bench.holds 0 fun r _ =>
        finalShows (fun _ block _ _ => decide (block = firstBlock.hash)) (r.finality.get? 1))
      (by decide +kernel)
  have zero : 0 ∈ d.correct := by rw [correct]; decide
  have final := (execution_finality (K := carefulConduct) ideal_collisionFree
    (by rw [genesis]; exact ideal_genesisUnique)
    (fun r view p accepted => by rw [accepted.1, genesis]; exact firstBlock_heightChecked)
    (fun r view p accepted view' header found => by rw [accepted.2] at found; cases found)
    (fun out view height block root signs => by
      rw [epoch] at signs
      exact signs view height block root rfl) run zero).2
  have passed := shown.holds reached
  unfold finalShows at passed
  split at passed
  · rename_i view block root cert stage
    obtain rfl := of_decide_eq_true passed
    exact ⟨d, net, run, view, root, cert, stage, (final 1 view _ root cert stage).2⟩
  · cases passed

/-- The first block again, proposed by validator 1 in view 1 after view 0 timed out. -/
def repeatedProposal : Propose ideal where
  epoch := 0
  view := 1
  block := firstBlock
  blockHash := firstBlock.hash
  parent := ParentRef.genesis (0 : Nat)
  proposerIndex := 1
  notarizeSig := ((1 : Nat), notarizeDigest (C := ideal) 0 1 firstBlock.hash)
  proposeSig := ((1 : Nat), proposeAuth (C := ideal) 0 1 firstBlock.hash (0 : Nat) bottomView)

def secondBlock : BlockHeader ideal := ⟨2, firstBlock.hash, (0 : Nat)⟩

/-- A child of the first block as notarized in view 1. -/
def secondProposal : Propose ideal where
  epoch := 0
  view := 2
  block := secondBlock
  blockHash := secondBlock.hash
  parent := ⟨firstBlock.hash, 1⟩
  proposerIndex := 0
  notarizeSig := ((0 : Nat), notarizeDigest (C := ideal) 0 2 secondBlock.hash)
  proposeSig := ((0 : Nat), proposeAuth (C := ideal) 0 2 secondBlock.hash firstBlock.hash 1)

/-- Validator 0 orders the first block under view 0, then learns it again under view 1,
and both nodes attest it in view 1. -/
def rebindScript : List (Event ideal) :=
  [.deliver 0 (.message (.propose firstProposal)),
    .deliver 0 (.proposalVerified 0 firstBlock.hash true), .deliver 1 (.timerFired 0),
    .deliver 1 (.message (.propose repeatedProposal)),
    .deliver 1 (.proposalVerified 1 firstBlock.hash true),
    .deliver 0 (strayNotarize 1 firstBlock.hash), .deliver 0 (.message (.propose secondProposal)),
    .deliver 0 (.proposalVerified 2 secondBlock.hash true),
    .deliver 1 (.message (.propose secondProposal)),
    .deliver 1 (.proposalVerified 2 secondBlock.hash true),
    .deliver 0 (strayNotarize 2 secondBlock.hash),
    .deliver 0 (.message (.propose repeatedProposal)),
    .deliver 0 (.proposalVerified 1 firstBlock.hash true),
    .attest 0 (attestIn 1 0), .attest 1 (attestIn 1 1),
    .deliver 0 (.message (.execAttest (attestIn 1 0))),
    .deliver 0 (.message (.execAttest (attestIn 1 1)))]

/-- A node that accepts the two blocks, each one above its parent. -/
def chainConduct : Conduct ideal where
  verdict _ _ p := p.block = firstBlock ∨ p.block = secondBlock
  attest _ _ := True
  signs := signsAnnounced

/-- The finalized stage names view 0, its certificate was signed for view 1. -/
theorem finalized_under_other_view :
    ∃ (d : Deployment ideal) (net : Net ideal), d.Reachable chainConduct net ∧
      (∀ r view p, chainConduct.verdict r view p → HeightChecked d.genesisHash p.block) ∧
      (∀ out view height block root,
        chainConduct.signs out (executionCommitmentDigest d.epoch view height block root) →
        .effect (.consensusFinal block height) ∈ out) ∧
      ∃ i ∈ d.correct, ∃ height view block root cert,
        (net.replicas i).finality.get? height = some (.finalized view block root cert) ∧
        cert.message ≠ executionCommitmentDigest d.epoch view height block root := by
  obtain ⟨d, net, bench, epoch, genesis, correct, run, shown, reached⟩ :=
    exists_duoRun (fun _ _ p => decide (p.block = firstBlock ∨ p.block = secondBlock))
      announced rebindScript (K := chainConduct)
      (fun _ _ p h => (of_decide_eq_true h : p.block = firstBlock ∨ p.block = secondBlock))
      (fun _ _ => trivial) (fun _ _ h => signsAnnounced_of_announced h)
      (q := fun bench => bench.holds 0 fun r _ => finalShows (fun view block root cert =>
        decide (cert.message ≠ executionCommitmentDigest (C := ideal) 0 view 1 block root))
        (r.finality.get? 1))
      (by decide +kernel)
  refine ⟨d, net, run, ?_, ?_, 0, by rw [correct]; decide, 1, ?_⟩
  · intro r view p accepted
    rw [genesis]
    rcases accepted with first | second
    · rw [first]
      exact firstBlock_heightChecked
    · rw [second]
      exact ⟨1, .inr ⟨firstBlock, rfl, rfl⟩, rfl⟩
  · intro out view height block root signs
    rw [epoch] at signs
    exact signs view height block root rfl
  · have passed := shown.holds reached
    unfold finalShows at passed
    split at passed
    · rename_i view block root cert stage
      rw [epoch]
      exact ⟨view, block, root, cert, stage, of_decide_eq_true passed⟩
    · cases passed

end Dexos.Minimmit
