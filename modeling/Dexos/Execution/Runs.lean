import Dexos.Execution.Transactions

/-!
# Runs

The states that commands reach from a new engine are healthy, and the tree commits to their
leaves. A run records the result of every command.
-/

namespace Dexos.Execution

open Foundations Clob Risk Option

namespace Engine

variable {sha256 : Sha256} {config : EngineConfig} {e e' : Engine sha256} {seq : U64}
  {command : Command} {result : Except ExecutionError ExecutionReceipt}

/-! ## Leaves -/

/-- The tree commits to the leaf of every account and of every market. -/
abbrev Fresh (e : Engine sha256) : Prop := Stale (fun _ => False) (fun _ => False) e

/-- Leaves depend on the marks of the replay guard and not on its records. -/
theorem Fresh.replay (fresh : Fresh e) {replay : ReplayGuard} {last : Option U64}
    (marks : replay.watermark = e.replay.watermark) :
    Fresh { e with replay := replay, lastSeq := last } := by
  have changed : Stale (fun _ => False ∨ False) (fun _ => False ∨ False)
      { e with replay := replay, lastSeq := last } := by
    refine fresh.change rfl (fun a _ _ => ?_) fun m _ _ => rfl
    refine accountLeaf_congr rfl rfl (fun _ => rfl) (fun _ => rfl) (fun _ _ => rfl) fun d => ?_
    exact congrArg (OrdMap.get? · _) marks
  exact changed.mono (fun _ h => h.elim id id) fun _ h => h.elim id id

theorem commandBinding_principal {b : KeyBinding} (bound : commandBinding sha256 command = some b) :
    Engine.principal command = some b.principal := by
  cases command with
  | placeOrder c =>
    cases bound
    rfl
  | requestWithdrawal c =>
    cases bound
    rfl
  | _ => cases bound

theorem reserve_mark (g : ReplayGuard) (b : KeyBinding) {a : AccountId} (other : a ≠ b.principal)
    (d : KeyDomain) : (g.reserve b).mark a d = g.mark a d := by
  refine OrdMap.get?_insert_ne _ _ fun same => other ?_
  exact congrArg (fun p : Principal => (ofLex p).1) same

/-- Opening a transaction makes at most the leaf of the command's principal stale. -/
theorem Fresh.opened (fresh : Fresh e) (seq : U64) (command : Command) :
    Stale (fun a => Engine.principal command = some a) (fun _ => False)
      (e.opened seq (commandBinding sha256 command)) := by
  have changed : Stale (fun a => False ∨ Engine.principal command = some a) (fun _ => False ∨ False)
      (e.opened seq (commandBinding sha256 command)) := by
    refine fresh.change rfl (fun a _ other => ?_) fun m _ _ => rfl
    refine accountLeaf_congr rfl rfl (fun _ => rfl) (fun _ => rfl) (fun _ _ => rfl) fun d => ?_
    cases bound : commandBinding sha256 command with
    | none => rfl
    | some b =>
      refine reserve_mark e.replay b ?_ d
      rintro rfl
      exact other (commandBinding_principal bound)
  exact changed.mono (fun _ h => h.resolve_left id) fun _ h => h.elim id id

theorem finalize_watermark (g : ReplayGuard) (b : KeyBinding) (receipt : ExecutionReceipt) :
    (g.finalize b receipt).watermark = g.watermark := by
  rw [ReplayGuard.finalize]
  split_ifs <;> rfl

theorem Fresh.sealed (fresh : Fresh e) (binding : Option KeyBinding) (receipt : ExecutionReceipt) :
    Fresh (e.sealed binding receipt) := by
  cases binding with
  | none => exact fresh
  | some b => exact fresh.replay (finalize_watermark e.replay b receipt)

/-! ## Reachable states -/

theorem new_healthy (sha256 : Sha256) (config : EngineConfig) :
    Healthy (Engine.new sha256 config) where
  matched := {
    reserved := fun a => rfl
    columns := ⟨fun k => rfl, fun k => rfl, by rintro k x ⟨⟩, by rintro k x ⟨⟩, by rintro k r ⟨⟩⟩
    funded := ⟨by rintro q ⟨⟩, rfl, fun a => rfl, fun a => rfl, fun a => rfl⟩
    conserved := ⟨by rintro k v ⟨⟩, by rintro k x ⟨⟩, by rintro k x ⟨⟩, by rintro m info ⟨⟨⟩, -⟩⟩
    aligned := ⟨rfl, ⟨by rintro a x ⟨⟩, by rintro a x ⟨⟩, by rintro m a ⟨⟩, by rintro a x ⟨⟩⟩⟩
    free := by rintro m info ⟨⟩ }
  backed k := ⟨rfl, rfl⟩
  shaped := ⟨fun k => ⟨by rintro ⟨⟩, by rintro ⟨info, ⟨⟩, -⟩⟩, by rintro m info ⟨⟩⟩
  rooted := ⟨by rintro a ⟨⟩, by rintro m info ⟨⟩⟩

theorem new_fresh (sha256 : Sha256) (config : EngineConfig) :
    Fresh (Engine.new sha256 config) where
  accounts _ _ := MerkleTree.leaf_new _ _
  markets _ _ := MerkleTree.leaf_new _ _
  unused _ _ := ⟨MerkleTree.leaf_new _ _, MerkleTree.leaf_new _ _⟩

theorem Executes.healthy (healthy : Healthy e) (done : Executes e seq command result e') :
    Healthy e' := by
  cases done with
  | rejected err => exact healthy
  | replayed later bound recorded =>
    exact ⟨{ healthy.matched with }, healthy.backed, { healthy.shaped with },
      { healthy.rooted with }⟩
  | executed later fresh ran => exact (ran.handled (healthy.opened seq _)).healthy.sealed _ _

theorem Executes.fresh (healthy : Healthy e) (fresh : Fresh e)
    (done : Executes e seq command result e') : Fresh e' := by
  cases done with
  | rejected err => exact fresh
  | replayed later bound recorded => exact Fresh.replay fresh rfl
  | executed later unseen ran =>
    have handled := ran.handled (healthy.opened seq _)
    exact Fresh.sealed (handled.fresh _ (fun _ h => h) (Fresh.opened fresh seq command)) _ _

/-- Executing a command on a healthy state ends in one of three ways. -/
theorem executes (healthy : Healthy e) (executed : e.execute seq command = some (result, e')) :
    Executes e seq command result e' := by
  obtain ⟨result', e'', same, done⟩ := execute_cases healthy seq command
  rw [executed] at same
  cases same
  exact done

variable (reached : Reachable sha256 config e)
include reached

theorem Reachable.healthy : Healthy e := by
  induction reached with
  | new => exact new_healthy sha256 config
  | step before executed ih => exact (executes ih executed).healthy ih

theorem Reachable.fresh : Fresh e := by
  induction reached with
  | new => exact new_fresh sha256 config
  | step before executed ih => exact (executes before.healthy executed).fresh before.healthy ih

omit reached

/-- The marks of the listed markets are those of the risk engine. -/
theorem Executes.follows (healthy : Healthy e) (done : Executes e seq command result e') :
    Follows e e' := by
  cases done with
  | rejected err => exact .refl e
  | replayed later bound recorded => exact ⟨fun _ => .refl, id⟩
  | executed later fresh ran =>
    have follows := (ran.handled (healthy.opened seq _)).follows
    exact ⟨follows.path, follows.marks⟩

theorem Reachable.follows (reached : Reachable sha256 config e) :
    (RiskEngine.new config.risk).Path e.risk ∧ Marked e := by
  induction reached with
  | new => exact ⟨.refl, by rintro m info ⟨⟩⟩
  | step before executed ih =>
    have follows := (executes before.healthy executed).follows before.healthy
    exact ⟨ih.1.trans (follows.path ih.2), follows.marks ih.2⟩

/-! ## Runs -/

/-- Execute commands one after another, with the result of each. -/
def run (e : Engine sha256) : List (U64 × Command) →
    Option (List (Except ExecutionError ExecutionReceipt) × Engine sha256)
  | [] => some ([], e)
  | (seq, command) :: rest => do
      let (result, e) ← e.execute seq command
      let (results, e) ← e.run rest
      return (result :: results, e)

/-- The commands of a run that succeeded. -/
def succeeding (commands : List (U64 × Command))
    (results : List (Except ExecutionError ExecutionReceipt)) : List (U64 × Command) :=
  (commands.zip results).filterMap fun x => if returned x.2 then some x.1 else none

variable {commands : List (U64 × Command)} {last : Engine sha256}
  {results : List (Except ExecutionError ExecutionReceipt)}

theorem run_cons :
    e.run ((seq, command) :: commands) = some (results, last) ↔
      ∃ result e' rest, e.execute seq command = some (result, e') ∧
        e'.run commands = some (rest, last) ∧ results = result :: rest := by
  simp only [run, bind_eq_bind, bind_eq_some_iff, pure_def, some.injEq, Prod.mk.injEq, Prod.exists]
  constructor
  · rintro ⟨result, e', executed, rest, last, ran, rfl, rfl⟩
    exact ⟨result, e', rest, executed, ran, rfl⟩
  · rintro ⟨result, e', rest, executed, ran, rfl⟩
    exact ⟨result, e', executed, rest, last, ran, rfl, rfl⟩

/-- A run without its failing commands ends in the same state with the same receipts. -/
theorem run_succeeding (healthy : Healthy e) (ran : e.run commands = some (results, last)) :
    e.run (succeeding commands results) = some (results.filter returned, last) := by
  induction commands generalizing e results with
  | nil =>
    cases ran
    rfl
  | cons x rest ih =>
    obtain ⟨seq, command⟩ := x
    obtain ⟨result, e', results', executed, ran', rfl⟩ := run_cons.1 ran
    have done := executes healthy executed
    have after := ih (done.healthy healthy) ran'
    cases result with
    | error err =>
      cases done
      exact after
    | ok receipt => exact run_cons.2 ⟨_, _, _, executed, after, rfl⟩

theorem run_reachable (reached : Reachable sha256 config e)
    (ran : e.run commands = some (results, last)) : Reachable sha256 config last := by
  induction commands generalizing e results with
  | nil =>
    cases ran
    exact reached
  | cons x rest ih =>
    obtain ⟨seq, command⟩ := x
    obtain ⟨result, e', results', executed, ran', -⟩ := run_cons.1 ran
    exact ih (reached.step executed) ran'

/-! ## Concrete runs -/

theorem exists_run (sha256 : Sha256) (config : EngineConfig)
    (commands : List (U64 × Command))
    (shows : List (Except ExecutionError ExecutionReceipt) → Engine sha256 → Bool)
    (shown : ((Engine.new sha256 config).run commands).any (fun r => shows r.1 r.2) = true) :
    ∃ results e, (Engine.new sha256 config).run commands = some (results, e) ∧
      Reachable sha256 config e ∧ shows results e = true := by
  obtain ⟨⟨results, e⟩, ran, holds⟩ := (any_eq_true _ _).1 shown
  exact ⟨results, e, ran, run_reachable .new ran, holds⟩

/-- The hash of the concrete runs whose roots do not matter. -/
def flatHash : Sha256 := fun _ => 0

/-- Four accounts and two markets at ten times leverage: a tenth of the exposure as initial margin
and a twentieth as maintenance margin. -/
def smallConfig : EngineConfig where
  accountCapacity := 4
  marketCapacity := 2
  replayWindow := 4
  risk := ⟨units 100000, units 50000, units 10000000, 4, 2⟩
  accountsFit := by decide
  marketsFit := by decide

/-- A limit order of a master key. -/
def limitOrder (account : AccountId) (market : MarketId) (id : OrderId) (side : Side)
    (price quantity : Int) : PlaceOrder :=
  ⟨account, market, id, side, .limit, .gtc, units price, units quantity, id, false, 0, .master⟩

/-- Two accounts trade a perpetual and one of them offers claims of a binary market; one command
fails. -/
def smallRun : List (U64 × Command) :=
  [(1, .createAccount ⟨micros 1000000000⟩), (2, .createAccount ⟨micros 1000000000⟩),
    (3, .createMarket ⟨0, .perpetual, 0, units 100000000⟩),
    (4, .createMarket ⟨1, .binaryPrediction, 2, units 500000⟩),
    (5, .placeOrder (limitOrder 0 0 1 .ask 100000000 20000000)),
    (6, .placeOrder (limitOrder 1 0 2 .bid 100000000 10000000)),
    (7, .placeOrder (limitOrder 1 0 3 .bid 100000000 900000000)),
    (8, .mintCompleteSet ⟨0, 1, micros 50000000⟩),
    (9, .placeOrder (limitOrder 0 1 4 .ask 400000 20000000))]

theorem exists_smallRun : ∃ results e,
    (Engine.new flatHash smallConfig).run smallRun = some (results, e) ∧
      Reachable flatHash smallConfig e ∧
      results.map returned = [true, true, true, true, true, true, false, true, true] ∧
      (e.ledger.totalSupply.val = 2000000000 ∧ e.ledger.balance 0 .locked = 50000000) ∧
      ((e.resting ⟨0, 0, 1⟩).isSome = true ∧ (e.resting ⟨1, 0, 4⟩).isSome = true) ∧
      (e.mintLocked.total fun k x => if k.market = 1 then x.val else 0) = 50000000 := by
  obtain ⟨results, e, ran, reached, shown⟩ := exists_run flatHash smallConfig smallRun
    (fun results e => decide (
      results.map returned = [true, true, true, true, true, true, false, true, true] ∧
      (e.ledger.totalSupply.val = 2000000000 ∧ e.ledger.balance 0 .locked = 50000000) ∧
      ((e.resting ⟨0, 0, 1⟩).isSome = true ∧ (e.resting ⟨1, 0, 4⟩).isSome = true) ∧
      (e.mintLocked.total fun k x => if k.market = 1 then x.val else 0) = 50000000))
    (by decide +kernel)
  exact ⟨results, e, ran, reached, of_decide_eq_true shown⟩

/-- A command never panics, a failed command leaves the state as it was, and a run without its
failing commands ends in the same state with the same receipts. -/
theorem execute_atomic (reached : Reachable sha256 config e) :
    (∀ seq command, ∃ result e', e.execute seq command = some (result, e')) ∧
      (∀ seq command err e', e.execute seq command = some (.error err, e') → e' = e) ∧
      ∀ commands results last, e.run commands = some (results, last) →
        e.run (succeeding commands results) = some (results.filter returned, last) := by
  have healthy := reached.healthy
  refine ⟨fun seq command => ?_, fun seq command err e' failed => ?_,
    fun commands results last ran => run_succeeding healthy ran⟩
  · obtain ⟨result, e', executed, -⟩ := execute_cases healthy seq command
    exact ⟨result, e', executed⟩
  · cases executes healthy failed
    rfl

theorem execute_atomic_smallRun : ∃ results e,
    (Engine.new flatHash smallConfig).run smallRun = some (results, e) ∧
      results.map returned = [true, true, true, true, true, true, false, true, true] ∧
      (∀ seq command, ∃ result e', e.execute seq command = some (result, e')) ∧
      ∀ seq command err e', e.execute seq command = some (.error err, e') → e' = e := by
  obtain ⟨results, e, ran, reached, shown, -⟩ := exists_smallRun
  have atomic := execute_atomic reached
  exact ⟨results, e, ran, shown, atomic.1, atomic.2.1⟩

end Engine

end Dexos.Execution
