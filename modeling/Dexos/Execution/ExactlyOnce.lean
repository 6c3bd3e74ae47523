import Dexos.Execution.Roots

/-!
# Exactly-once commands

An order or a withdrawal carries a key of its account. Over a whole run at most one command with a
key is executed. A later one is refused for its sequence number, or it is answered with the receipt
of the first, or it is refused by the replay guard, and it changes nothing but the last sequence
number. The guard keeps the receipts of the last executions, in their order.
-/

namespace Dexos.Execution

open Foundations Clob Risk List Option OrdMap

/-- A keyed command that was executed. -/
structure KeyedExecution where
  command : Command
  binding : KeyBinding
  receipt : ExecutionReceipt

/-- The bytes that the digest of a keyed command covers. -/
def payload : Command → List UInt8
  | .placeOrder c => placeOrderBytes c
  | .requestWithdrawal c => withdrawalBytes c
  | _ => []

def slots (log : List KeyedExecution) : List Slot := log.map fun x => x.binding.slot

/-! ## The guard -/

variable {x : KeyedExecution}

namespace ReplayGuard

variable {g : ReplayGuard} {b : KeyBinding} {log : List KeyedExecution} {b' : KeyBinding}

/-- A key at or below the mark of its owner. -/
def Marked (g : ReplayGuard) (b : KeyBinding) : Prop :=
  ∃ mark, g.watermark.get? b.owner = some mark ∧ b.key ≤ mark

/-- What the guard knows of the executed commands. -/
structure Guards (g : ReplayGuard) (log : List KeyedExecution) : Prop where
  once : (slots log).Nodup
  suffix : g.order <:+ slots log
  size : g.order.length ≤ g.window
  listed : ∀ s, (g.records.get? s).isSome = true ↔ s ∈ g.order
  stored : ∀ s d r, g.records.get? s = some (d, r) →
    ∃ x ∈ log, x.binding.slot = s ∧ x.binding.digest = d ∧ x.receipt = r
  marked : ∀ x ∈ log, g.Marked x.binding

/-- Eviction makes room for one receipt and forgets the oldest ones. -/
theorem evict_spec {window : Nat} (positive : 0 < window) {order : List Slot} (once : order.Nodup)
    {records : OrdMap Slot (Digest × ExecutionReceipt)}
    (listed : ∀ s, (records.get? s).isSome = true ↔ s ∈ order) :
    (evict window records order).2 <:+ order ∧ (evict window records order).2.length < window ∧
      (∀ s, ((evict window records order).1.get? s).isSome = true ↔
        s ∈ (evict window records order).2) ∧
      ∀ s v, (evict window records order).1.get? s = some v → records.get? s = some v := by
  induction order generalizing records with
  | nil => exact ⟨suffix_rfl, positive, listed, fun s v => id⟩
  | cons oldest rest ih =>
    rw [evict]
    split_ifs with full
    · obtain ⟨fresh, once⟩ := nodup_cons.1 once
      have fewer : ∀ s, ((records.erase oldest).get? s).isSome = true ↔ s ∈ rest := by
        intro s
        rw [get?_erase]
        split_ifs with same
        · exact iff_of_false Bool.false_ne_true (same ▸ fresh)
        · rw [listed, mem_cons, or_iff_right same]
      obtain ⟨suffix, room, kept, among⟩ := ih once fewer
      refine ⟨suffix.trans (suffix_cons _ _), room, kept, fun s v found => ?_⟩
      have before := among s v found
      rw [get?_erase] at before
      split_ifs at before
      exact before
    · exact ⟨suffix_rfl, Nat.lt_of_not_le full, listed, fun s v => id⟩

theorem slot_inj {b : KeyBinding} (same : b.slot = b'.slot) : b.owner = b'.owner ∧ b.key = b'.key :=
  Prod.mk.inj same

theorem Marked.congr (marked : g.Marked b) (same : b.slot = b'.slot) : g.Marked b' := by
  obtain ⟨owner, key⟩ := slot_inj same
  rwa [Marked, ← owner, ← key]

theorem Guards.not_mem_of_fresh (guards : Guards g log) (fresh : g.classify b = .fresh) :
    b.slot ∉ slots log := by
  intro executed
  obtain ⟨x, listed, same⟩ := mem_map.1 executed
  obtain ⟨mark, found, below⟩ := (guards.marked x listed).congr same
  rw [classify] at fresh
  split at fresh
  · split_ifs at fresh
  · simp [found, any_some, decide_eq_true below] at fresh

/-- How the guard classifies the key of an executed command. -/
theorem Guards.classify_executed (guards : Guards g log) (listed : x ∈ log)
    (same : x.binding.slot = b.slot) :
    (g.classify b = .replay x.receipt ∧ x.binding.digest = b.digest ∧ b.slot ∈ g.order) ∨
      (g.classify b = .conflict ∧ x.binding.digest ≠ b.digest ∧ b.slot ∈ g.order) ∨
      (g.classify b = .expired ∧ b.slot ∉ g.order) := by
  have recorded := guards.listed b.slot
  rw [classify]
  cases found : g.records.get? b.slot with
  | none =>
    obtain ⟨mark, at_owner, below⟩ := (guards.marked x listed).congr same
    rw [found] at recorded
    refine .inr (.inr ⟨by simp [at_owner, below], fun kept => ?_⟩)
    cases recorded.2 kept
  | some record =>
    obtain ⟨digest, receipt⟩ := record
    obtain ⟨y, listed', same', rfl, rfl⟩ := guards.stored _ _ _ found
    have equal : y = x := inj_on_of_nodup_map guards.once listed' listed (same'.trans same.symm)
    subst equal
    have kept := recorded.1 (isSome_iff_exists.2 ⟨_, found⟩)
    dsimp only
    split_ifs with digests
    · exact .inl ⟨rfl, digests, kept⟩
    · exact .inr (.inl ⟨rfl, digests, kept⟩)

theorem marked_reserve (g : ReplayGuard) (b : KeyBinding) : (g.reserve b).Marked b := by
  refine ⟨_, get?_insert_self _ _ _, ?_⟩
  cases g.watermark.get? b.owner with
  | none => exact le_rfl
  | some mark =>
    simp only [map_some, getD_some]
    split_ifs with higher
    · exact le_rfl
    · exact not_lt.1 higher

theorem Marked.reserve (marked : g.Marked b') : (g.reserve b).Marked b' := by
  obtain ⟨mark, found, below⟩ := marked
  by_cases same : b'.owner = b.owner
  · rw [Marked, same]
    refine ⟨_, get?_insert_self _ _ _, ?_⟩
    rw [← same, found]
    simp only [map_some, getD_some]
    split_ifs with higher
    · exact below.trans higher.le
    · exact below
  · exact ⟨mark, (get?_insert_ne _ _ same).trans found, below⟩

theorem Guards.reserve (guards : Guards g log) (b : KeyBinding) : Guards (g.reserve b) log :=
  { guards with marked := fun x listed => (guards.marked x listed).reserve }

theorem Guards.finalize (guards : Guards g log) (unseen : x.binding.slot ∉ slots log)
    (mark : g.Marked x.binding) : Guards (g.finalize x.binding x.receipt) (log ++ [x]) := by
  have appended : slots (log ++ [x]) = slots log ++ [x.binding.slot] := map_append
  have once : (slots (log ++ [x])).Nodup := by
    rw [appended]
    exact nodup_snoc.2 ⟨guards.once, unseen⟩
  have marked : ∀ y ∈ log ++ [x], g.Marked y.binding := forall_mem_snoc.2 ⟨guards.marked, mark⟩
  rw [ReplayGuard.finalize]
  split_ifs with nothing
  · -- Without a window nothing is recorded.
    have empty : g.order = [] := length_eq_zero_iff.1 (Nat.le_zero.1 (nothing ▸ guards.size))
    refine ⟨once, ?_, guards.size, guards.listed, fun s d r found => ?_, marked⟩
    · rw [empty]
      exact nil_suffix
    · have listed := (guards.listed s).1 (isSome_iff_exists.2 ⟨_, found⟩)
      simp [empty] at listed
  · obtain ⟨suffix, room, kept, among⟩ := evict_spec (Nat.pos_of_ne_zero nothing)
      (guards.suffix.sublist.nodup guards.once) guards.listed
    generalize evict g.window g.records g.order = left at suffix room kept among
    refine ⟨once, ?_, ?_, fun s => ?_, fun s d r found => ?_, marked⟩
    · rw [appended]
      exact suffix_append_self_iff.2 (suffix.trans guards.suffix)
    · rwa [length_append]
    · rw [get?_insert, mem_append, mem_singleton]
      split_ifs with same
      · exact iff_of_true rfl (.inr same)
      · rw [kept, or_iff_left same]
    · rw [get?_insert] at found
      split_ifs at found with same
      · cases found
        exact ⟨x, mem_append_right _ (mem_singleton_self x), same.symm, rfl, rfl⟩
      · obtain ⟨y, listed, rest⟩ := guards.stored s d r (among s _ found)
        exact ⟨y, mem_append_left _ listed, rest⟩

end ReplayGuard

/-! ## Runs -/

namespace Engine

variable {sha256 : Sha256} {config : EngineConfig} {e e' : Engine sha256} {seq : U64}
  {command : Command} {log : List KeyedExecution}

/-- What a command adds to the log: a keyed command that the guard calls fresh and that returns. -/
def logged (e : Engine sha256) (command : Command) :
    Except ExecutionError ExecutionReceipt → List KeyedExecution
  | .ok receipt => ((commandBinding sha256 command).filter fun b =>
    e.replay.classify b = .fresh).toList.map fun b => ⟨command, b, receipt⟩
  | .error _ => []

/-- The states of a run with the keyed commands that were executed, in order. -/
inductive Logged (sha256 : Sha256) (config : EngineConfig) :
    Engine sha256 → List KeyedExecution → Prop
  | new : Logged sha256 config (.new sha256 config) []
  | step {e e' : Engine sha256} {seq : U64} {command : Command} {log : List KeyedExecution}
      {result : Except ExecutionError ExecutionReceipt} (before : Logged sha256 config e log)
      (executed : e.execute seq command = some (result, e')) :
      Logged sha256 config e' (log ++ e.logged command result)

theorem Logged.reachable (run : Logged sha256 config e log) : Reachable sha256 config e := by
  induction run with
  | new => exact .new
  | step before executed ih => exact ih.step executed

theorem Reachable.exists_logged (reached : Reachable sha256 config e) :
    ∃ log, Logged sha256 config e log := by
  induction reached with
  | new => exact ⟨[], .new⟩
  | step before executed ih =>
    obtain ⟨log, run⟩ := ih
    exact ⟨_, run.step executed⟩

theorem Logged.guards (run : Logged sha256 config e log) :
    e.replay.Guards log ∧ e.replay.window = config.replayWindow ∧
      ∀ x ∈ log, commandBinding sha256 x.command = some x.binding := by
  induction run with
  | new =>
    refine ⟨⟨nodup_nil, suffix_rfl, Nat.zero_le _, fun s => ?_, ?_, ?_⟩, rfl, ?_⟩
    · exact iff_of_false Bool.false_ne_true not_mem_nil
    · rintro s d r ⟨⟩
    · exact fun x listed => absurd listed not_mem_nil
    · exact fun x listed => absurd listed not_mem_nil
  | @step e e' seq command log result before executed ih =>
    obtain ⟨guards, window, bound⟩ := ih
    cases executes before.reachable.healthy executed with
    | rejected err =>
      rw [logged, append_nil]
      exact ⟨guards, window, bound⟩
    | replayed later bound' recorded =>
      rw [logged, bound', filter_some, if_neg (by simp [recorded])]
      rw [toList_none, map_nil, append_nil]
      exact ⟨guards, window, bound⟩
    | @executed txn kind later unseen ran =>
      have kept : txn.replay = _ := (ran.handled (before.reachable.healthy.opened seq _)).replay
      cases key : commandBinding sha256 command with
      | none =>
        rw [key] at kept
        rw [logged, key]
        rw [filter_none, toList_none, map_nil, append_nil]
        change ReplayGuard.Guards txn.replay log ∧ txn.replay.window = _ ∧ _
        rw [kept]
        exact ⟨guards, window, bound⟩
      | some b =>
        have fresh := unseen b key
        rw [key] at kept
        rw [logged, key, filter_some, if_pos (by simp [fresh])]
        change ReplayGuard.Guards (txn.replay.finalize b _) (log ++ [_]) ∧
          (txn.replay.finalize b _).window = _ ∧ _
        rw [kept]
        refine ⟨(guards.reserve b).finalize (x := ⟨command, b, _⟩)
          (guards.not_mem_of_fresh fresh) (ReplayGuard.marked_reserve _ b), ?_,
          forall_mem_snoc.2 ⟨bound, key⟩⟩
        rw [ReplayGuard.finalize]
        split_ifs <;> exact window

theorem digest_of_binding {b : KeyBinding} (bound : commandBinding sha256 command = some b) :
    b.digest = hashDomain sha256 domainCommand (payload command) := by
  cases command with
  | placeOrder c | requestWithdrawal c =>
    cases bound
    rfl
  | _ => cases bound

/-- The answers to a command whose key has been executed: out of order it is refused; otherwise it
gets the receipt in the window if its payload is the same, a conflict if it is not, and it has
expired if the window has forgotten the key. -/
inductive Answered (e : Engine sha256) (seq : U64) (command : Command) (x : KeyedExecution) :
    Except ExecutionError ExecutionReceipt → Engine sha256 → Prop
  | outOfOrder {last : U64} (stale : e.lastSeq = some last ∧ seq ≤ last) :
      Answered e seq command x (.error (.nonMonotonicSequence last seq)) e
  | replay (next : ∀ last, e.lastSeq = some last → last < seq)
      (same : payload x.command = payload command) (kept : x.binding.slot ∈ e.replay.order) :
      Answered e seq command x (.ok x.receipt) { e with lastSeq := some seq }
  | conflict (next : ∀ last, e.lastSeq = some last → last < seq)
      (other : payload x.command ≠ payload command) (kept : x.binding.slot ∈ e.replay.order) :
      Answered e seq command x (.error .idempotencyConflict) e
  | expired (next : ∀ last, e.lastSeq = some last → last < seq)
      (gone : x.binding.slot ∉ e.replay.order) : Answered e seq command x (.error .replayExpired) e

theorem Logged.answered (run : Logged sha256 config e log) {b : KeyBinding}
    (bound : commandBinding sha256 command = some b)
    (free : ∀ x ∈ log, x.binding.digest = b.digest → payload x.command = payload command)
    (listed : x ∈ log) (same : x.binding.slot = b.slot) (seq : U64) :
    ∃ result e', e.execute seq command = some (result, e') ∧
      Answered e seq command x result e' := by
  obtain ⟨guards, -, keyed⟩ := run.guards
  have answers (next : ∀ last, e.lastSeq = some last → last < seq) : ∃ result e',
      e.executeNext seq command = some (result, e') ∧ Answered e seq command x result e' := by
    rw [executeNext, bound, map_some]
    obtain ⟨replay, digests, kept⟩ | ⟨conflict, digests, kept⟩ | ⟨expired, gone⟩ :=
      guards.classify_executed listed same
    · rw [replay]
      exact ⟨_, _, rfl, .replay next (free x listed digests) (same ▸ kept)⟩
    · rw [conflict]
      refine ⟨_, _, rfl, .conflict next (fun payloads => digests ?_) (same ▸ kept)⟩
      rw [digest_of_binding (keyed x listed), digest_of_binding bound, payloads]
    · rw [expired]
      exact ⟨_, _, rfl, .expired next (same ▸ gone)⟩
  rw [execute]
  cases last : e.lastSeq with
  | none => exact answers (by rw [last]; rintro _ ⟨⟩)
  | some l =>
    dsimp only
    split_ifs with stale
    · exact ⟨_, _, rfl, .outOfOrder ⟨last, stale⟩⟩
    · refine answers fun l' same => ?_
      cases last.symm.trans same
      exact not_le.1 stale

/-- Over every run and for every window, a key is executed at most once, its later commands are
answered without effect, and the window holds the last receipts in the order of execution. -/
theorem exactly_once (run : Logged sha256 config e log) :
    (slots log).Nodup ∧ (∀ seq command result e', (commandBinding sha256 command).isSome = true →
        e.execute seq command = some (result, e') → e.logged command result = [] →
        e' = e ∨ e' = { e with lastSeq := some seq }) ∧
      (∀ command b, commandBinding sha256 command = some b →
        (∀ x ∈ log, x.binding.digest = b.digest → payload x.command = payload command) →
        ∀ x ∈ log, x.binding.slot = b.slot → ∀ seq, ∃ result e',
          e.execute seq command = some (result, e') ∧ Answered e seq command x result e') ∧
      e.replay.order <:+ slots log ∧ e.replay.order.length ≤ config.replayWindow ∧
      ∀ s, (e.replay.records.get? s).isSome = true ↔ s ∈ e.replay.order := by
  obtain ⟨guards, window, bound⟩ := run.guards
  refine ⟨guards.once, fun seq command result e' keyed executed unlogged => ?_,
    fun command b key free x listed same seq => run.answered key free listed same seq,
      guards.suffix, window ▸ guards.size, guards.listed⟩
  cases executes run.reachable.healthy executed with
  | rejected err => exact .inl rfl
  | replayed later key recorded => exact .inr rfl
  | executed later unseen ran =>
    obtain ⟨b, key⟩ := isSome_iff_exists.1 keyed
    rw [logged, key, filter_some, if_pos (by simp [unseen b key])] at unlogged
    cases unlogged

/-! ## A concrete run -/

def firstOrder : Command := .placeOrder (limitOrder 0 0 1 .ask 100000000 20000000)

/-- A run that executes the order as its third command. -/
theorem exists_firstOrder : ∃ e x, Logged flatHash smallConfig e [x] ∧ x.command = firstOrder ∧
    commandBinding flatHash firstOrder = some x.binding ∧ e.lastSeq = some 3 ∧
      x.binding.slot ∈ e.replay.order := by
  obtain ⟨results, e, -, reached, shown⟩ := exists_run flatHash smallConfig
    [(1, .createAccount ⟨micros 1000000000⟩),
      (2, .createMarket ⟨0, .perpetual, 0, units 100000000⟩)]
    (fun _ e => decide (e.replay = .withWindow 4) && e.returnsWith 3 firstOrder fun _ e' =>
      e'.lastSeq = some 3 ∧ ∀ b ∈ commandBinding flatHash firstOrder, b.slot ∈ e'.replay.order)
    (by decide +kernel)
  obtain ⟨clean, returns⟩ := (Bool.and_eq_true _ _).mp shown
  obtain ⟨receipt, e', executed, after⟩ := returnsWith_iff.1 returns
  obtain ⟨last, kept⟩ := of_decide_eq_true after
  obtain ⟨log, run⟩ := reached.exists_logged
  have guards := run.guards.1
  rw [of_decide_eq_true clean] at guards
  -- Nothing was logged before: the guard has no mark.
  obtain rfl : log = [] := eq_nil_iff_forall_not_mem.2 fun x listed => by
    obtain ⟨mark, found, -⟩ := guards.marked x listed
    cases found
  have key : commandBinding flatHash firstOrder = some _ := rfl
  have next := run.step executed
  rw [logged, key, filter_some, if_pos (by rw [of_decide_eq_true clean]; decide)] at next
  exact ⟨e', ⟨firstOrder, _, receipt⟩, next, rfl, key, last, kept _ key⟩

/-- The order is submitted again and gets its first receipt. -/
theorem exactly_once_firstOrder : ∃ e x, Logged flatHash smallConfig e [x] ∧
    x.command = firstOrder ∧ e.replay.order.length ≤ 4 ∧
    e.execute 4 firstOrder = some (.ok x.receipt, { e with lastSeq := some 4 }) := by
  obtain ⟨e, x, run, command, bound, last, kept⟩ := exists_firstOrder
  obtain ⟨-, -, answers, -, size, -⟩ := exactly_once run
  obtain ⟨result, e', executed, answered⟩ := answers _ _ bound
    (fun y listed _ => by rw [mem_singleton.1 listed, command]) x mem_cons_self rfl 4
  refine ⟨e, x, run, command, size, ?_⟩
  rw [executed]
  cases answered with
  | outOfOrder stale =>
    obtain ⟨same, late⟩ := stale
    cases last.symm.trans same
    exact absurd late (by decide)
  | replay => rfl
  | conflict _ other => exact absurd (congrArg payload command) other
  | expired _ gone => exact absurd kept gone

/-- The same command with the same sequence number is refused for the latter. -/
theorem retry_out_of_order : ∃ e x, Logged flatHash smallConfig e [x] ∧ x.command = firstOrder ∧
    commandBinding flatHash firstOrder = some x.binding ∧
      e.execute 3 firstOrder = some (.error (.nonMonotonicSequence 3 3), e) := by
  obtain ⟨e, x, run, command, bound, last, -⟩ := exists_firstOrder
  refine ⟨e, x, run, command, bound, ?_⟩
  rw [execute, last]
  exact if_pos le_rfl

end Engine

end Dexos.Execution
