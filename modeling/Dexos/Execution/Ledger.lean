import Dexos.Foundations.MapSum
import Dexos.Execution.Command

/-!
# The ledger

The stablecoin of every account, in four partitions, and the total supply. An operation
shifts an amount between two partitions of one account, pays it to another account, or
moves it across the boundary of the ledger.
-/

namespace Dexos.Execution

open Foundations Clob List Scalar

/-- The partitions of an account's stablecoin. -/
inductive Partition where
  | available
  | reserved
  | locked
  | escrowed
deriving DecidableEq

/-- One account of the ledger. -/
structure Purse where
  available : Amount
  reserved : Amount
  locked : Amount
  escrowed : Amount
  authEpoch : U64
deriving DecidableEq

namespace Purse

def get (q : Purse) : Partition → Amount
  | .available => q.available
  | .reserved => q.reserved
  | .locked => q.locked
  | .escrowed => q.escrowed

def set (q : Purse) (p : Partition) (x : Amount) : Purse :=
  match p with
  | .available => { q with available := x }
  | .reserved => { q with reserved := x }
  | .locked => { q with locked := x }
  | .escrowed => { q with escrowed := x }

def worth (q : Purse) : Int :=
  q.available.val + q.reserved.val + q.locked.val + q.escrowed.val

theorem get_set (q : Purse) (p p' : Partition) (x : Amount) :
    (q.set p x).get p' = if p' = p then x else q.get p' := by
  cases p <;> cases p' <;> rfl

theorem worth_set (q : Purse) (p : Partition) (x : Amount) :
    (q.set p x).worth = q.worth - (q.get p).val + x.val := by
  cases p <;> simp only [set, get, worth] <;> ring

end Purse

structure Ledger where
  accounts : List Purse
  totalSupply : Amount
deriving DecidableEq

def nonNegative (amount : Amount) : Attempt Unit :=
  require (0 ≤ amount.val) .negativeAmount

/-- The error of a partition that does not cover an amount. -/
def shortage (p : Partition) (required held : Amount) : ExecutionError :=
  match p with
  | .available => .insufficientAvailable required held
  | _ => .insufficientReserved

namespace Ledger

def new : Ledger := ⟨[], I128.zero⟩

section

variable (l : Ledger) (account : AccountId)

def purse : Option Purse := l.accounts[account.val]?

def setPurse (q : Purse) : Ledger :=
  { l with accounts := l.accounts.set account.val q }

/-- `Ledger::idx`: the purse of an allocated account. -/
def idx : Attempt Purse :=
  orError (l.purse account) .unknownAccount

def contains : Bool := decide (account.val < l.accounts.length)

def take (p : Partition) (amount : Amount) : Attempt Ledger := do
  let q ← l.idx account
  require (amount.val ≤ (q.get p).val) (shortage p amount (q.get p))
  let left ← liftArith (checkedSub (q.get p) amount)
  return l.setPurse account (q.set p left)

def put (p : Partition) (amount : Amount) : Attempt Ledger := do
  let q ← l.idx account
  let sum ← liftArith (checkedAdd (q.get p) amount)
  return l.setPurse account (q.set p sum)

/-- Move an amount between two partitions of one account. -/
def shift (source target : Partition) (account : AccountId) (amount : Amount) : Attempt Ledger := do
  nonNegative amount
  let l ← l.take account source amount
  l.put account target amount

def reserve (amount : Amount) : Attempt Ledger :=
  l.shift .available .reserved account amount

def release (amount : Amount) : Attempt Ledger :=
  l.shift .reserved .available account amount

def lock (amount : Amount) : Attempt Ledger :=
  l.shift .available .locked account amount

def unlock (amount : Amount) : Attempt Ledger :=
  l.shift .locked .available account amount

def escrow (amount : Amount) : Attempt Ledger :=
  l.shift .available .escrowed account amount

def releaseEscrow (amount : Amount) : Attempt Ledger :=
  l.shift .escrowed .available account amount

/-- Pay an amount out of a partition into the available balance of another account. -/
def pay (source : Partition) (payer payee : AccountId) (amount : Amount) : Attempt Ledger := do
  nonNegative amount
  if amount.val = 0 then return l
  else do
    -- The payee is resolved before the payer is debited.
    let _ ← l.idx payer
    let _ ← l.idx payee
    let l ← l.take payer source amount
    l.put payee .available amount

def settleEscrow (payer payee : AccountId) (amount : Amount) : Attempt Ledger :=
  l.pay .escrowed payer payee amount

def transferAvailable (payer payee : AccountId) (amount : Amount) : Attempt Ledger :=
  l.pay .available payer payee amount

def consumeLocked (amount : Amount) : Attempt Ledger := do
  nonNegative amount
  l.take account .locked amount

def creditAvailable (amount : Amount) : Attempt Ledger := do
  nonNegative amount
  l.put account .available amount

def credit (amount : Amount) : Attempt Ledger := do
  nonNegative amount
  let l ← l.put account .available amount
  let supply ← liftArith (checkedAdd l.totalSupply amount)
  return { l with totalSupply := supply }

def settleWithdrawal (amount : Amount) : Attempt Ledger := do
  nonNegative amount
  let l ← l.take account .reserved amount
  let supply ← liftArith (checkedSub l.totalSupply amount)
  return { l with totalSupply := supply }

def nextId : Attempt AccountId :=
  if h : l.accounts.length < 2 ^ 32 then .ok ⟨l.accounts.length, h⟩
  else .error .accountExists

def createAccount (initial : Amount) : Attempt (Ledger × AccountId) := do
  nonNegative initial
  let id ← l.nextId
  let supply ← liftArith (checkedAdd l.totalSupply initial)
  return (⟨l.accounts ++ [⟨initial, I128.zero, I128.zero, I128.zero, 0⟩], supply⟩, id)

def bumpAuthEpoch (account : AccountId) : Attempt Ledger := do
  let q ← l.idx account
  return l.setPurse account { q with authEpoch := q.authEpoch + 1 }

/-! ## Balances -/

def balance (account : AccountId) (p : Partition) : Int :=
  weightOf (fun q => (q.get p).val) (l.purse account)

def worth : Int := columnTotal l.accounts Purse.worth

/-- No partition is overdrawn. -/
def Nonneg : Prop := ∀ q ∈ l.accounts, ∀ p, 0 ≤ (q.get p).val

end

variable {l l' : Ledger} {account id : AccountId} {t : AccountId → Prop} {amount : Amount} {g : Int}
  {d : AccountId → Partition → Int} {q : Purse}

section

variable (found : l.purse account = some q)
include found

theorem purse_eq_some : account.val < l.accounts.length :=
  (List.getElem?_eq_some_iff.1 found).1

theorem purse_mem : q ∈ l.accounts :=
  mem_of_getElem? found

theorem purse_setPurse (q' : Purse) (b : AccountId) :
    (l.setPurse account q').purse b = if b = account then some q' else l.purse b := by
  have inside := purse_eq_some found
  change (l.accounts.set account.val q')[b.val]? = _
  rw [getElem?_set]
  by_cases same : b = account
  · subst same
    rw [if_pos rfl, if_pos rfl, if_pos inside]
  · rw [if_neg (fun h => same (Fin.ext h.symm)), if_neg same]
    rfl

theorem balance_setPurse (p : Partition) (x : Amount) (b : AccountId) (p' : Partition) :
    (l.setPurse account (q.set p x)).balance b p' =
      if b = account ∧ p' = p then x.val else l.balance b p' := by
  rw [balance, purse_setPurse found]
  by_cases same : b = account
  · subst same
    rw [if_pos rfl, weightOf_some, Purse.get_set]
    by_cases part : p' = p
    · rw [if_pos part, if_pos ⟨rfl, part⟩]
    · rw [if_neg part, if_neg (fun h => part h.2), balance, found, weightOf_some]
  · rw [if_neg same, if_neg (fun h => same h.1), balance]

theorem worth_setPurse (q' : Purse) :
    (l.setPurse account q').worth = l.worth - q.worth + q'.worth :=
  columnTotal_set Purse.worth found q'

theorem balance_eq (p : Partition) : l.balance account p = (q.get p).val := by
  rw [balance, found, weightOf_some]

end

theorem balance_nonneg (nonneg : l.Nonneg) (account : AccountId) (p : Partition) :
    0 ≤ l.balance account p := by
  rw [balance]
  cases found : l.purse account with
  | none => exact le_rfl
  | some q => exact nonneg q (purse_mem found) p

theorem Nonneg.setPurse (nonneg : l.Nonneg) (positive : ∀ p, 0 ≤ (q.get p).val)
    (account : AccountId) : (l.setPurse account q).Nonneg := by
  intro r hr
  rcases mem_or_eq_of_mem_set hr with old | rfl
  · exact nonneg r old
  · exact positive

/-! ## What each operation does -/

/-- The effect of an operation: the change of every balance, the change of the total worth,
and the accounts it may touch. -/
structure Moved (l l' : Ledger) (delta : AccountId → Partition → Int) (gain : Int)
    (touched : AccountId → Prop) : Prop where
  size : l'.accounts.length = l.accounts.length
  balance : ∀ a p, l'.balance a p = l.balance a p + delta a p
  worth : l'.worth = l.worth + gain
  others : ∀ a, ¬ touched a → l'.purse a = l.purse a
  nonneg : l.Nonneg → l'.Nonneg

/-- An amount at one account and partition. -/
def entryAt (account : AccountId) (p : Partition) (x : Int) : AccountId → Partition → Int :=
  fun a p' => if a = account ∧ p' = p then x else 0

theorem take_ok {p : Partition} (done : l.take account p amount = .ok l') :
    l.Moved l' (entryAt account p (-amount.val)) (-amount.val) (· = account) ∧
      l'.totalSupply = l.totalSupply ∧ amount.val ≤ l.balance account p := by
  simp only [take, idx, ok_iff, liftArith_eq_ok, checkedSub_eq_ok] at done
  obtain ⟨q, found, -, covered, left, difference, rfl⟩ := done
  refine ⟨⟨?_, ?_, ?_, ?_, ?_⟩, rfl, ?_⟩
  · exact length_set
  · intro a p'
    rw [balance_setPurse found, entryAt]
    split_ifs with here
    · rw [here.1, here.2, balance_eq found, difference]
      ring
    · rw [add_zero]
  · rw [worth_setPurse found, Purse.worth_set, difference]
    ring
  · intro a other
    rw [purse_setPurse found, if_neg other]
  · intro nonneg
    refine nonneg.setPurse (fun p' => ?_) account
    rw [Purse.get_set]
    split_ifs
    · omega
    · exact nonneg q (purse_mem found) p'
  · rwa [balance_eq found]

theorem put_ok {p : Partition} (done : l.put account p amount = .ok l')
    (positive : 0 ≤ amount.val) :
    l.Moved l' (entryAt account p amount.val) amount.val (· = account) ∧
      l'.totalSupply = l.totalSupply := by
  simp only [put, idx, ok_iff, liftArith_eq_ok, checkedAdd_eq_ok] at done
  obtain ⟨q, found, sum, total, rfl⟩ := done
  refine ⟨⟨?_, ?_, ?_, ?_, ?_⟩, rfl⟩
  · exact length_set
  · intro a p'
    rw [balance_setPurse found, entryAt]
    split_ifs with here
    · rw [here.1, here.2, balance_eq found, total]
    · rw [add_zero]
  · rw [worth_setPurse found, Purse.worth_set, total]
    ring
  · intro a other
    rw [purse_setPurse found, if_neg other]
  · intro nonneg
    refine nonneg.setPurse (fun p' => ?_) account
    rw [Purse.get_set]
    have held := nonneg q (purse_mem found)
    split_ifs
    · have := held p
      omega
    · exact held p'

theorem Moved.trans {l'' : Ledger} {d' : AccountId → Partition → Int} {g' : Int}
    {t' : AccountId → Prop} (first : l.Moved l' d g t) (second : l'.Moved l'' d' g' t') :
    l.Moved l'' (fun a p => d a p + d' a p) (g + g') fun a => t a ∨ t' a where
  size := second.size.trans first.size
  balance a p := by
    rw [second.balance, first.balance]
    ring
  worth := by
    rw [second.worth, first.worth]
    ring
  others a other := by
    rw [second.others a fun h => other (.inr h), first.others a fun h => other (.inl h)]
  nonneg held := second.nonneg (first.nonneg held)

theorem Moved.refl (l : Ledger) : l.Moved l (fun _ _ => 0) 0 fun _ => False where
  size := rfl
  balance _ _ := (add_zero _).symm
  worth := (add_zero _).symm
  others _ _ := rfl
  nonneg held := held

theorem Moved.restate {d' : AccountId → Partition → Int} {g' : Int} {t' : AccountId → Prop}
    (moved : l.Moved l' d g t) (changes : ∀ a p, d a p = d' a p) (gain : g = g')
    (more : ∀ a, t a → t' a) : l.Moved l' d' g' t' where
  __ := moved
  balance a p := by rw [moved.balance, changes]
  worth := by rw [moved.worth, gain]
  others a other := moved.others a fun h => other (more a h)

theorem shift_ok {source target : Partition}
    (done : l.shift source target account amount = .ok l') :
    l.Moved l'
      (fun a p => entryAt account source (-amount.val) a p + entryAt account target amount.val a p)
        0 (· = account) ∧ l'.totalSupply = l.totalSupply ∧ 0 ≤ amount.val ∧
      amount.val ≤ l.balance account source := by
  simp only [shift, nonNegative, ok_iff] at done
  obtain ⟨-, positive, l₁, taken, done⟩ := done
  obtain ⟨out, supply, covered⟩ := take_ok taken
  obtain ⟨into, supply'⟩ := put_ok done positive
  refine ⟨(out.trans into).restate (fun _ _ => rfl) (by ring) fun a => ?_,
    supply'.trans supply, positive, covered⟩
  exact or_self_iff.1

theorem pay_ok {source : Partition} {payer payee : AccountId}
    (done : l.pay source payer payee amount = .ok l') :
    l.Moved l'
        (fun a p => entryAt payer source (-amount.val) a p +
          entryAt payee .available amount.val a p)
        0 (fun a => a = payer ∨ a = payee) ∧ l'.totalSupply = l.totalSupply ∧ 0 ≤ amount.val := by
  simp only [pay, nonNegative, ok_iff] at done
  obtain ⟨-, positive, done⟩ := done
  split_ifs at done with nothing
  · cases done
    refine ⟨(Moved.refl l).restate (fun a p => ?_) rfl fun _ h => h.elim, rfl, positive⟩
    rw [entryAt, entryAt, nothing]
    simp
  · simp only [bind_eq_ok] at done
    obtain ⟨-, -, -, -, l₁, taken, done⟩ := done
    obtain ⟨out, supply, -⟩ := take_ok taken
    obtain ⟨into, supply'⟩ := put_ok done positive
    exact ⟨(out.trans into).restate (fun _ _ => rfl) (by ring) fun _ h => h,
      supply'.trans supply, positive⟩

theorem consumeLocked_ok (done : l.consumeLocked account amount = .ok l') :
    l.Moved l' (entryAt account .locked (-amount.val)) (-amount.val) (· = account) ∧
      l'.totalSupply = l.totalSupply ∧ 0 ≤ amount.val := by
  simp only [consumeLocked, nonNegative, ok_iff] at done
  obtain ⟨-, positive, done⟩ := done
  obtain ⟨out, supply, -⟩ := take_ok done
  exact ⟨out, supply, positive⟩

theorem creditAvailable_ok (done : l.creditAvailable account amount = .ok l') :
    l.Moved l' (entryAt account .available amount.val) amount.val (· = account) ∧
      l'.totalSupply = l.totalSupply ∧ 0 ≤ amount.val := by
  simp only [creditAvailable, nonNegative, ok_iff] at done
  obtain ⟨-, positive, done⟩ := done
  obtain ⟨into, supply⟩ := put_ok done positive
  exact ⟨into, supply, positive⟩

theorem Moved.supply (moved : l.Moved l' d g t) (supply : Amount) :
    l.Moved { l' with totalSupply := supply } d g t :=
  ⟨moved.size, moved.balance, moved.worth, moved.others, moved.nonneg⟩

theorem credit_ok (done : l.credit account amount = .ok l') :
    l.Moved l' (entryAt account .available amount.val) amount.val (· = account) ∧
      l'.totalSupply.val = l.totalSupply.val + amount.val ∧ 0 ≤ amount.val := by
  simp only [credit, nonNegative, ok_iff, liftArith_eq_ok, checkedAdd_eq_ok] at done
  obtain ⟨-, positive, l₁, stored, supply, total, rfl⟩ := done
  obtain ⟨into, kept⟩ := put_ok stored positive
  exact ⟨into.supply supply, by rw [total, kept], positive⟩

theorem settleWithdrawal_ok (done : l.settleWithdrawal account amount = .ok l') :
    l.Moved l' (entryAt account .reserved (-amount.val)) (-amount.val) (· = account) ∧
      l'.totalSupply.val = l.totalSupply.val - amount.val ∧ 0 ≤ amount.val := by
  simp only [settleWithdrawal, nonNegative, ok_iff, liftArith_eq_ok, checkedSub_eq_ok] at done
  obtain ⟨-, positive, l₁, taken, supply, total, rfl⟩ := done
  obtain ⟨out, kept, -⟩ := take_ok taken
  exact ⟨out.supply supply, by rw [total, kept], positive⟩

theorem bumpAuthEpoch_ok (done : l.bumpAuthEpoch account = .ok l') :
    l.Moved l' (fun _ _ => 0) 0 (· = account) ∧ l'.totalSupply = l.totalSupply := by
  simp only [bumpAuthEpoch, idx, ok_iff] at done
  obtain ⟨q, found, rfl⟩ := done
  refine ⟨⟨length_set, fun a p => ?_, ?_, fun a other => ?_, fun nonneg => ?_⟩, rfl⟩
  · rw [add_zero, balance, balance, purse_setPurse found]
    split_ifs with here
    · rw [here, found]
      cases p <;> rfl
    · rfl
  · rw [worth_setPurse found, add_zero]
    change l.worth - q.worth + q.worth = l.worth
    ring
  · rw [purse_setPurse found, if_neg other]
  · refine nonneg.setPurse (fun p => ?_) account
    have held := nonneg q (purse_mem found) p
    cases p <;> exact held

theorem nextId_ok (done : l.nextId = .ok id) : id.val = l.accounts.length := by
  rw [nextId] at done
  split_ifs at done
  cases done
  rfl

/-- A new account holds its initial collateral, and the others keep what they hold. -/
theorem createAccount_ok {initial : Amount} (done : l.createAccount initial = .ok (l', id)) :
    0 ≤ initial.val ∧ id.val = l.accounts.length ∧
      l'.totalSupply.val = l.totalSupply.val + initial.val ∧
      l'.accounts = l.accounts ++ [⟨initial, I128.zero, I128.zero, I128.zero, 0⟩] := by
  simp only [createAccount, nonNegative, ok_iff, liftArith_eq_ok, checkedAdd_eq_ok] at done
  obtain ⟨-, positive, id', next, supply, total, rfl, rfl⟩ := done
  exact ⟨positive, nextId_ok next, total, rfl⟩

theorem createAccount_purse {initial : Amount} (done : l.createAccount initial = .ok (l', id))
    (b : AccountId) :
    l'.purse b =
      if b = id then some ⟨initial, I128.zero, I128.zero, I128.zero, 0⟩ else l.purse b := by
  obtain ⟨-, next, -, accounts⟩ := createAccount_ok done
  rw [purse, accounts]
  by_cases same : b = id
  · rw [if_pos same, same, next]
    exact getElem?_concat_length
  · have apart : b.val ≠ l.accounts.length := fun equal => same (Fin.ext (equal.trans next.symm))
    rw [if_neg same, purse]
    by_cases inside : b.val < l.accounts.length
    · exact getElem?_append_left inside
    · rw [getElem?_eq_none_iff.2 (not_lt.1 inside), getElem?_eq_none_iff,
        length_append, length_singleton]
      omega

end Ledger

end Dexos.Execution
