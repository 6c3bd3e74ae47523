import Dexos.Execution.Runs

/-!
# Committed roots

After every command the tree holds the digest of the current leaf of every account and of every
market, so its root is that of a tree rebuilt from the leaves, and the path of every account
verifies. The receipt of a command that was executed carries that root. A retry is answered with
the recorded receipt, which carries the root at the time of its execution.
-/

namespace Dexos.Execution

open Foundations Clob Risk

namespace Engine

variable {sha256 : Sha256} {config : EngineConfig} {e e' : Engine sha256} {seq : U64}
  {command : Command} {receipt : ExecutionReceipt}

/-- The digest of an account's current leaf, by index. -/
def accountDigest (e : Engine sha256) (i : Nat) : Digest :=
  if h : i < 2 ^ 32 then committed (hashAccountLeaf sha256) (e.accountLeaf ⟨i, h⟩) else 0

/-- The digest of a market's current leaf, by index. -/
def marketDigest (e : Engine sha256) (i : Nat) : Digest :=
  if h : i < 2 ^ 32 then committed (hashMarketLeaf sha256) (e.marketLeaf ⟨i, h⟩) else 0

/-- A tree of the same capacity, rebuilt from the current leaves. -/
def rebuilt (e : Engine sha256) : StateTree (stateHashes sha256) :=
  e.tree.rebuilt fun
    | .accounts => e.accountDigest
    | .markets => e.marketDigest

theorem Fresh.root_eq_rebuilt (fresh : Fresh e) : e.tree.root = e.rebuilt.root := by
  have accounts : ∀ i, e.tree.accounts.leaf i = e.accountDigest i := by
    intro i
    rw [accountDigest]
    split_ifs with small
    · exact fresh.accounts ⟨i, small⟩ id
    · exact (fresh.unused i (Nat.le_of_not_lt small)).1
  have markets : ∀ i, e.tree.markets.leaf i = e.marketDigest i := by
    intro i
    rw [marketDigest]
    split_ifs with small
    · exact fresh.markets ⟨i, small⟩ id
    · exact (fresh.unused i (Nat.le_of_not_lt small)).2
  refine e.tree.root_eq_rebuilt fun h i => ?_
  cases h with
  | accounts => exact accounts i
  | markets => exact markets i

theorem Healthy.accountLeaf_ok (healthy : Healthy e) {a : AccountId}
    (listed : a.val < e.ledger.accounts.length) : ∃ leaf, e.accountLeaf a = .ok leaf := by
  have aligned := healthy.matched.aligned
  have purse : e.ledger.idx a = .ok e.ledger.accounts[a.val] := by
    rw [Ledger.idx, Ledger.purse, List.getElem?_eq_getElem listed]
    rfl
  have slot : e.risk.slot a = some (e.risk.accounts.get ⟨a.val, aligned.size ▸ listed⟩) :=
    List.getElem?_eq_getElem _
  have read : e.risk.read a = .ok (e.risk.accounts.get ⟨a.val, aligned.size ▸ listed⟩) := by
    rw [RiskEngine.read, slot]
    exact if_pos (aligned.sound.used a _ slot)
  rw [accountLeaf, purse, read]
  exact ⟨_, rfl⟩

theorem marketLeaf_ok {m : MarketId} {info : MarketMeta} (found : e.markets.get? m = some info) :
    ∃ leaf, e.marketLeaf m = .ok leaf := by
  rw [marketLeaf, found]
  exact ⟨_, rfl⟩

/-- After every command that returns, every account and every market is committed, the root is that
of a rebuilt tree, and the receipt carries it unless it answers a retry. -/
theorem root_current (reached : Reachable sha256 config e)
    (executed : e.execute seq command = some (.ok receipt, e')) :
    (∀ a : AccountId, a.val < e'.ledger.accounts.length → ∃ leaf proof,
        e'.accountLeaf a = .ok leaf ∧ e'.tree.accounts.leaf a.val = hashAccountLeaf sha256 leaf ∧
          e'.tree.accountProof a.val = .ok proof ∧
          StateTree.verifyAccount (stateHashes sha256) e'.tree.root a.val leaf proof = true) ∧
      (∀ m info, e'.markets.get? m = some info → ∃ leaf,
        e'.marketLeaf m = .ok leaf ∧
          e'.tree.markets.leaf m.val = hashMarketLeaf sha256 leaf) ∧
      e'.tree.root = e'.rebuilt.root ∧
      ((∀ b ∈ commandBinding sha256 command, e.replay.classify b ≠ .replay receipt) →
        receipt.stateRoot = e'.rebuilt.root) := by
  have after := reached.step executed
  have healthy := after.healthy
  have fresh := after.fresh
  refine ⟨fun a listed => ?_, fun m info found => ?_, fresh.root_eq_rebuilt, fun unrecorded => ?_⟩
  · obtain ⟨leaf, shown⟩ := healthy.accountLeaf_ok listed
    have stored := fresh.accounts a id
    rw [shown] at stored
    have made : e'.tree.accountProof a.val = .ok _ := if_pos (healthy.rooted.accounts a listed)
    exact ⟨leaf, _, shown, stored, made, StateTree.verifies_proof made stored⟩
  · obtain ⟨leaf, shown⟩ := marketLeaf_ok found
    have stored := fresh.markets m id
    rw [shown] at stored
    exact ⟨leaf, shown, stored⟩
  · cases executes reached.healthy executed with
    | replayed later bound recorded => exact absurd recorded (unrecorded _ bound)
    | executed later unseen ran => exact fresh.root_eq_rebuilt

/-- Whether a command returns with a receipt and a state that show something. -/
def returnsWith (e : Engine sha256) (seq : U64) (command : Command)
    (shows : ExecutionReceipt → Engine sha256 → Bool) : Bool :=
  match e.execute seq command with
  | some (.ok receipt, e') => shows receipt e'
  | _ => false

theorem returnsWith_iff {shows : ExecutionReceipt → Engine sha256 → Bool} :
    e.returnsWith seq command shows = true ↔
      ∃ receipt e', e.execute seq command = some (.ok receipt, e') ∧ shows receipt e' = true := by
  unfold returnsWith
  split <;> simp_all

/-- What a concrete run shows of the command that follows it. -/
theorem exists_next (sha256 : Sha256) (config : EngineConfig)
    (commands : List (U64 × Command)) (seq : U64) (command : Command)
    (shows : ExecutionReceipt → Engine sha256 → Bool)
    (shown : ((Engine.new sha256 config).run commands).any
      (fun r => r.2.returnsWith seq command shows) = true) :
    ∃ e receipt e', Reachable sha256 config e ∧
      e.execute seq command = some (.ok receipt, e') ∧ shows receipt e' = true := by
  obtain ⟨results, e, -, reached, next⟩ := exists_run sha256 config commands
    (fun _ e => e.returnsWith seq command shows) shown
  obtain ⟨receipt, e', returned⟩ := returnsWith_iff.1 next
  exact ⟨e, receipt, e', reached, returned⟩

theorem root_current_smallRun : ∃ e receipt e', Reachable flatHash smallConfig e ∧
    e.execute 10 (.createAccount ⟨micros 5⟩) = some (.ok receipt, e') ∧
      e'.ledger.accounts.length = 3 ∧ receipt.stateRoot = e'.rebuilt.root := by
  obtain ⟨e, receipt, e', reached, executed, shown⟩ := exists_next flatHash smallConfig smallRun 10
    (.createAccount ⟨micros 5⟩) (fun _ e' => decide (e'.ledger.accounts.length = 3))
      (by decide +kernel)
  obtain ⟨-, -, -, carried⟩ := root_current reached executed
  exact ⟨e, receipt, e', reached, executed, of_decide_eq_true shown, carried (by rintro b ⟨⟩)⟩

/-- A hash that tells the leaves of the concrete runs apart. -/
def mixHash : Sha256 := fun bytes =>
  bytes.foldl (fun h b => h * 257 + BitVec.ofNat 256 b.toNat + 1) 7

/-- A retry of an order after another account was created is answered with an old root. -/
theorem retry_carries_old_root : ∃ e receipt e', Reachable mixHash smallConfig e ∧
    e.execute 5 (.placeOrder (limitOrder 0 0 1 .ask 100000000 20000000)) = some (.ok receipt, e') ∧
      receipt.stateRoot ≠ e'.rebuilt.root := by
  obtain ⟨e, receipt, e', reached, executed, shown⟩ := exists_next mixHash smallConfig
    [(1, .createAccount ⟨micros 1000000000⟩),
      (2, .createMarket ⟨0, .perpetual, 0, units 100000000⟩),
      (3, .placeOrder (limitOrder 0 0 1 .ask 100000000 20000000)),
      (4, .createAccount ⟨micros 1000000000⟩)]
    5 (.placeOrder (limitOrder 0 0 1 .ask 100000000 20000000))
    (fun receipt e' => decide (receipt.stateRoot ≠ e'.rebuilt.root)) (by decide +kernel)
  exact ⟨e, receipt, e', reached, executed, of_decide_eq_true shown⟩

end Engine

end Dexos.Execution
