import Dexos.Custody.Bindings
import Dexos.Custody.Controller

/-!
# Custody signs at most once and accounts exactly

The counters of a chain against the history of a run: the pending amount is the sum of the signed
and unsettled withdrawals of the chain, and the count is their number. A call has one of five
effects; only a signature and a settlement touch the accounts, and only a switch the halt.
-/

namespace Dexos.Custody

open Foundations Minimmit Clob OrdMap List WalletRegistry

variable {C : Crypto}

/-- A signed withdrawal, as the accounts see it. -/
structure Withdrawal (C : Crypto) where
  id : C.Hash
  chain : Nat
  amount : Amount
deriving DecidableEq

/-- What a run records: the signatures, the settlements, the halts and the resumptions, in their
order. -/
inductive Event (C : Crypto) where
  | signed (w : Withdrawal C)
  | settled (w : Withdrawal C)
  | switched (halted : Bool)

section

variable (events : List (Event C))

def signedIn : List (Withdrawal C) :=
  events.filterMap fun | .signed w => some w | _ => none

def settledIn : List (Withdrawal C) :=
  events.filterMap fun | .settled w => some w | _ => none

def unsettled : List (Withdrawal C) :=
  (signedIn events).filter fun w => w ∉ settledIn events

def unsettledOf (chain : Nat) : List (Withdrawal C) :=
  (unsettled events).filter fun w => w.chain = chain

/-- The halt flag after an event. -/
def Event.halts (halted : Bool) : Event C → Bool
  | .switched on => on
  | _ => halted

/-- Whether the last switch of a history was a halt. -/
def haltedIn : Bool := events.foldl Event.halts false

end

/-! ## Histories -/

section

variable {events : List (Event C)} {w : Withdrawal C} {on : Bool}

@[simp] theorem signedIn_signed : signedIn (events ++ [.signed w]) = signedIn events ++ [w] := by
  simp [signedIn]

@[simp] theorem signedIn_settled : signedIn (events ++ [.settled w]) = signedIn events := by
  simp [signedIn]

@[simp] theorem signedIn_switched : signedIn (events ++ [.switched on]) = signedIn events := by
  simp [signedIn]

@[simp] theorem settledIn_switched : settledIn (events ++ [.switched on]) = settledIn events := by
  simp [settledIn]

@[simp] theorem settledIn_signed : settledIn (events ++ [.signed w]) = settledIn events := by
  simp [settledIn]

@[simp] theorem settledIn_settled :
    settledIn (events ++ [.settled w]) = settledIn events ++ [w] := by
  simp [settledIn]

theorem unsettled_signed (fresh : w ∉ settledIn events) :
    unsettled (events ++ [.signed w]) = unsettled events ++ [w] := by
  simp [unsettled, fresh]

theorem haltedIn_snoc (event : Event C) :
    haltedIn (events ++ [event]) = event.halts (haltedIn events) := by
  simp [haltedIn]

theorem unsettled_settled :
    unsettled (events ++ [.settled w]) = (unsettled events).filter fun v => v ≠ w := by
  rw [unsettled, unsettled]
  simp [and_comm]

theorem unsettledOf_signed (fresh : w ∉ settledIn events) (chain : Nat) :
    unsettledOf (events ++ [.signed w]) chain =
      unsettledOf events chain ++ if w.chain = chain then [w] else [] := by
  rw [unsettledOf, unsettled_signed fresh, unsettledOf]
  split_ifs with here
  · simp [here]
  · simp [here]

theorem unsettledOf_settled (once : (signedIn events).Nodup) (chain : Nat) :
    unsettledOf (events ++ [.settled w]) chain = (unsettledOf events chain).erase w := by
  have nodup : (unsettledOf events chain).Nodup := (once.filter _).filter _
  rw [nodup.erase_eq_filter, unsettledOf, unsettled_settled, unsettledOf, filter_filter,
    filter_filter]
  apply filter_congr
  intro v _
  rw [Bool.and_comm]
  simp [bne, BEq.beq]

end

namespace CustodyController

variable {D : Digests C} {W : WalletScheme C} {c : CustodyController C} {events : List (Event C)}
  {amount newPending : Amount} {id : C.Hash} {chain newCount : Nat} {cert : WithdrawalCertificate C}
  {userAuth : UserWithdrawalAuth C}

/-- The event of a successful call. -/
def Call.event : Call C → List (Event C)
  | .authorize cert _ _ _ => [.signed ⟨cert.withdrawalId, cert.request.chain, cert.request.amount⟩]
  | .settle chain id amount _ => [.settled ⟨id, chain, amount⟩]
  | .halt | .control .halt => [.switched true]
  | .resume | .control .resume => [.switched false]
  | _ => []

/-- The events that a call adds to the history. -/
def Call.recorded (call : Call C) : Except Failure Unit → List (Event C)
  | .ok () => call.event
  | .error _ => []

/-- The states that calls reach, succeeding or failing, with the history of the run. -/
inductive Run (D : Digests C) (W : WalletScheme C) (start : CustodyController C) :
    List (Event C) → CustodyController C → Prop
  | start : Run D W start [] start
  | call {events : List (Event C)} {c : CustodyController C} (call : Call C)
      (before : Run D W start events c) :
      Run D W start (events ++ call.recorded (c.perform D W call).1) (c.perform D W call).2

/-! ## What a call does -/

/-- Two controllers with the same accounts. -/
structure SameAccounts (c c' : CustodyController C) : Prop where
  signedIds : c'.signedIds = c.signedIds
  pendingById : c'.pendingById = c.pendingById
  pending : c'.pending = c.pending
  pendingCount : c'.pendingCount = c.pendingCount

/-- The results of a call together with the states that it leaves. -/
inductive Effect (D : Digests C) (W : WalletScheme C) (c : CustodyController C) :
    Call C → Except Failure Unit × CustodyController C → Prop
  | failed (call : Call C) (failure : Failure) : Effect D W c call (.error failure, c)
  | administered (call : Call C) (c' : CustodyController C) (quiet : call.event = [])
      (same : SameAccounts c c') (halted : c'.halted = c.halted) : Effect D W c call (.ok (), c')
  | switched (call : Call C) (on : Bool) (c' : CustodyController C)
      (event : call.event = [.switched on]) (same : SameAccounts c c') (halted : c'.halted = on) :
      Effect D W c call (.ok (), c')
  | signed (cert : WithdrawalCertificate C) (userAuth : UserWithdrawalAuth C) (indices : List Nat)
      (now : Nat) (policy : ChainPolicy) (newPending : Amount) (newCount : Nat)
      (running : c.halted = false) (found : c.policies.get? cert.request.chain = some policy)
      (nonneg : 0 ≤ cert.request.amount.val)
      (pending : newPending.val = (c.policiesPending cert.request.chain).val +
        cert.request.amount.val) (capped : newPending.val ≤ policy.maxPending.val)
      (count : newCount = c.countOf cert.request.chain + 1) (limited : newCount ≤ policy.rateLimit)
      (fresh : cert.withdrawalId ∉ c.signedIds) :
      Effect D W c (.authorize cert userAuth indices now)
        (.ok (), c.record D cert newPending newCount)
  | settled (chain : Nat) (id : C.Hash) (amount : Amount) (finality : SettlementFinality C)
      (found : c.pendingById.get? id = some ⟨chain, amount⟩) :
      Effect D W c (.settle chain id amount finality) (.ok (), c.release D chain id amount finality)

theorem orFail_eq_ok {A : Type} {x : Except CustodyError A} {a : A} :
    orFail x = .ok a ↔ x = .ok a :=
  mapError_eq_ok

theorem liftArith_eq_ok {A : Type} {x : Except ArithError A} {a : A} :
    liftArith x = .ok a ↔ x = .ok a :=
  mapError_eq_ok

theorem nextCount_eq_ok {count next : Nat} (done : nextCount count = .ok next) :
    next = count + 1 := by
  rw [nextCount] at done
  split_ifs at done
  cases done
  rfl

theorem check_eq_ok {policy : ChainPolicy} {pending : Amount} {confirmations count : Nat}
    (passed : policy.check amount confirmations pending count = .ok ()) :
    0 ≤ amount.val ∧ pending.val + amount.val ≤ policy.maxPending.val ∧
      count + 1 ≤ policy.rateLimit := by
  simp only [ChainPolicy.check, ok_iff] at passed
  obtain ⟨_, nonneg, _, _, _, _, sum, added, _, capped, next, counted, limited⟩ := passed
  rw [liftArith_eq_ok, Scalar.checkedAdd_eq_ok] at added
  rw [added] at capped
  rw [nextCount_eq_ok counted] at limited
  exact ⟨nonneg, capped, limited⟩

theorem precheck_eq_ok {now : Nat} :
    c.precheck D W cert userAuth now = .ok () ↔
      c.halted = false ∧ verifyUserAuth W cert userAuth now = .ok () ∧
      verifyCertificate D cert c.consensus now = .ok () ∧
      (∃ policy, c.policies.get? cert.request.chain = some policy ∧
        policy.check cert.request.amount cert.confirmations (c.policiesPending cert.request.chain)
          (c.countOf cert.request.chain) = .ok ()) ∧ cert.withdrawalId ∉ c.signedIds := by
  simp only [precheck, ok_iff]
  constructor
  · rintro ⟨_, running, _, user, _, certified, policy, found, _, passed, fresh⟩
    exact ⟨running, user, certified, ⟨policy, found, passed⟩, fresh⟩
  · rintro ⟨running, user, certified, ⟨policy, found, passed⟩, fresh⟩
    exact ⟨(), running, (), user, (), certified, policy, found, (), passed, fresh⟩

theorem withdrawalId_of_certified {now : Nat} {validators : ValidatorSet C}
    (certified : verifyCertificate D cert validators now = .ok ()) :
    cert.withdrawalId = cert.request.id D := by
  simp only [verifyCertificate, ok_iff] at certified
  exact certified.choose_spec.1

theorem sign_message {s : SignerSet C} {message : C.Hash} {indices : List Nat} {qc : Certificate C}
    (made : s.sign message indices = .ok qc) : qc.message = message := by
  simp only [SignerSet.sign, ok_iff] at made
  obtain ⟨_, _, same⟩ := made
  rw [← same]

/-- What is handed out is a certificate of the signers over the certified id. -/
theorem authorizeWithdrawal_eq_ok {indices : List Nat} {now : Nat} {signed : SignedWithdrawal C}
    (done : (c.authorizeWithdrawal D W cert userAuth indices now).1 = .ok signed) :
    c.precheck D W cert userAuth now = .ok () ∧ signed.withdrawalId = cert.withdrawalId ∧
      signed.epoch = c.signers.epoch ∧
      c.signers.sign cert.withdrawalId indices = .ok signed.certificate ∧
      ∃ set, c.signers.validatorSet = some set ∧ set.verify signed.certificate = .ok () := by
  rw [authorizeWithdrawal] at done
  cases approved : c.approve D W cert userAuth indices now with
  | error failure => simp [approved] at done
  | ok result =>
    simp only [approved, Except.ok.injEq] at done
    subst done
    simp only [approve, ok_iff, orFail_eq_ok, mapError_eq_ok] at approved
    obtain ⟨_, admitted, qc, made, set, built, _, verified, _, _, _, _, same⟩ := approved
    cases same
    exact ⟨admitted, rfl, rfl, made, set, built, verified⟩

theorem authorizeWithdrawal_effect (cert : WithdrawalCertificate C)
    (userAuth : UserWithdrawalAuth C) (indices : List Nat) (now : Nat) :
    Effect D W c (.authorize cert userAuth indices now)
      (c.perform D W (.authorize cert userAuth indices now)) := by
  rw [perform, authorizeWithdrawal]
  cases approved : c.approve D W cert userAuth indices now with
  | error failure => exact Effect.failed _ _
  | ok result =>
    obtain ⟨qc, newPending, newCount⟩ := result
    simp only [approve, bind_eq_ok, orFail_eq_ok, liftArith_eq_ok,
      Scalar.checkedAdd_eq_ok] at approved
    obtain ⟨_, admitted, _, _, _, _, _, _, sum, added, next, counted, same⟩ := approved
    cases same
    obtain ⟨running, _, _, ⟨policy, found, passed⟩, fresh⟩ := precheck_eq_ok.1 admitted
    obtain ⟨nonneg, capped, limited⟩ := check_eq_ok passed
    have count := nextCount_eq_ok counted
    apply Effect.signed cert userAuth indices now policy newPending newCount running found nonneg
      added _ count _ fresh
    · rwa [added]
    · rwa [count]

theorem settle_effect (chain : Nat) (id : C.Hash) (amount : Amount)
    (finality : SettlementFinality C) : Effect D W c (.settle chain id amount finality)
      (c.perform D W (.settle chain id amount finality)) := by
  have effect : Effect D W c (.settle chain id amount finality)
      (orFail (c.settle D chain id amount finality).1,
        (c.settle D chain id amount finality).2) := by
    apply commitAfter_cases (P := fun out => Effect D W c (.settle chain id amount finality)
      (orFail out.1, out.2))
    · exact fun err => Effect.failed _ _
    · intro _ checked
      simp only [ok_iff] at checked
      obtain ⟨auth, found, _, ⟨rfl, rfl⟩, -⟩ := checked
      exact Effect.settled _ id _ finality found
  exact effect

theorem rotate_effect (newSigners : SignerSet C) (call : Call C) (quiet : call.event = []) :
    Effect D W c call (orFail (c.rotate D newSigners).1, (c.rotate D newSigners).2) := by
  apply commitAfter_cases (P := fun out => Effect D W c call (orFail out.1, out.2))
  · exact fun err => Effect.failed _ _
  · intro _ _
    exact Effect.administered call _ quiet ⟨rfl, rfl, rfl, rfl⟩ rfl

theorem perform_effect (D : Digests C) (W : WalletScheme C) (c : CustodyController C)
    (call : Call C) : Effect D W c call (c.perform D W call) := by
  cases call with
  | authorize cert userAuth indices now =>
    exact authorizeWithdrawal_effect cert userAuth indices now
  | settle chain id amount finality => exact settle_effect chain id amount finality
  | halt | resume => exact Effect.switched _ _ _ rfl ⟨rfl, rfl, rfl, rfl⟩ rfl
  | setPolicy => exact Effect.administered _ _ rfl ⟨rfl, rfl, rfl, rfl⟩ rfl
  | rotate newSigners => exact rotate_effect newSigners _ rfl
  | control cmd =>
    rw [perform]
    cases cmd with
    | rotate epoch threshold keys =>
      rw [applyControl]
      cases c.commandSet epoch threshold keys with
      | error err => exact Effect.failed _ _
      | ok set => exact rotate_effect set _ rfl
    | halt | resume => exact Effect.switched _ _ _ rfl ⟨rfl, rfl, rfl, rfl⟩ rfl
    | setPolicy => exact Effect.administered _ _ rfl ⟨rfl, rfl, rfl, rfl⟩ rfl

/-! ## Invariant -/

/-- The accounts agree with the history. -/
structure Balanced (events : List (Event C)) (c : CustodyController C) : Prop where
  ids : ∀ id, id ∈ c.signedIds ↔ ∃ w ∈ signedIn events, w.id = id
  once : ((signedIn events).map Withdrawal.id).Nodup
  matched : ∀ w ∈ settledIn events, w ∈ signedIn events
  settledOnce : (settledIn events).Nodup
  records : ∀ id auth, c.pendingById.get? id = some auth ↔
    ⟨id, auth.chain, auth.amount⟩ ∈ unsettled events
  nonneg : ∀ w ∈ signedIn events, 0 ≤ w.amount.val
  pending : ∀ chain,
    (c.policiesPending chain).val = ((unsettledOf events chain).map fun w => w.amount.val).sum
  count : ∀ chain, c.countOf chain = (unsettledOf events chain).length
  halted : c.halted = haltedIn events

theorem Balanced.new (backend : HsmBackend C) (signers : SignerSet C) (consensus : ValidatorSet C) :
    Balanced [] (new D backend signers consensus) where
  ids := by simp [CustodyController.new, signedIn]
  once := nodup_nil
  matched := by simp [settledIn]
  settledOnce := nodup_nil
  records := by simp [CustodyController.new, unsettled, signedIn]
  nonneg := by simp [signedIn]
  pending := fun chain => rfl
  count := fun chain => rfl
  halted := rfl

/-- The invariant speaks of the signatures, the settlements, the accounts and the halt flag. -/
theorem Balanced.congr {events' : List (Event C)} {c' : CustodyController C} (h : Balanced events c)
    (signed : signedIn events' = signedIn events) (settled : settledIn events' = settledIn events)
    (same : SameAccounts c c') (halted : c'.halted = haltedIn events') : Balanced events' c' := by
  have kept : unsettled events' = unsettled events := by rw [unsettled, unsettled, signed, settled]
  constructor
  · rw [same.signedIds, signed]
    exact h.ids
  · rw [signed]
    exact h.once
  · rw [settled, signed]
    exact h.matched
  · rw [settled]
    exact h.settledOnce
  · rw [same.pendingById, kept]
    exact h.records
  · rw [signed]
    exact h.nonneg
  · intro chain
    rw [policiesPending, same.pending, unsettledOf, kept]
    exact h.pending chain
  · intro chain
    rw [countOf, same.pendingCount, unsettledOf, kept]
    exact h.count chain
  · exact halted

theorem policiesPending_record (chain : Nat) :
    (c.record D cert newPending newCount).policiesPending chain =
      if chain = cert.request.chain then newPending else c.policiesPending chain := by
  change ((c.pending.insert _ _).get? chain).getD I128.zero = _
  rw [get?_insert]
  split_ifs <;> rfl

theorem countOf_record (chain : Nat) : (c.record D cert newPending newCount).countOf chain =
      if chain = cert.request.chain then newCount else c.countOf chain := by
  change ((c.pendingCount.insert _ _).get? chain).getD 0 = _
  rw [get?_insert]
  split_ifs <;> rfl

variable (h : Balanced events c)
include h

theorem Balanced.record (nonneg : 0 ≤ cert.request.amount.val)
    (pending : newPending.val = (c.policiesPending cert.request.chain).val +
      cert.request.amount.val) (count : newCount = c.countOf cert.request.chain + 1)
    (fresh : cert.withdrawalId ∉ c.signedIds) :
    Balanced (events ++ [.signed ⟨cert.withdrawalId, cert.request.chain, cert.request.amount⟩])
      (c.record D cert newPending newCount) := by
  have unseen : ∀ w ∈ signedIn events, w.id ≠ cert.withdrawalId :=
    fun w mem same => fresh ((h.ids _).2 ⟨w, mem, same⟩)
  have open_ : (⟨cert.withdrawalId, cert.request.chain, cert.request.amount⟩ : Withdrawal C) ∉
      settledIn events := fun mem => unseen _ (h.matched _ mem) rfl
  constructor
  · intro id
    change id ∈ cert.withdrawalId :: c.signedIds ↔ _
    rw [mem_cons, h.ids, signedIn_signed]
    simp only [mem_append, mem_singleton]
    constructor
    · rintro (rfl | ⟨w, mem, rfl⟩)
      · exact ⟨_, .inr rfl, rfl⟩
      · exact ⟨w, .inl mem, rfl⟩
    · rintro ⟨w, mem | rfl, rfl⟩
      · exact .inr ⟨w, mem, rfl⟩
      · exact .inl rfl
  · rw [signedIn_signed, map_append]
    refine nodup_snoc.2 ⟨h.once, fun mem => ?_⟩
    obtain ⟨w, listed, same⟩ := mem_map.1 mem
    exact unseen w listed same
  · intro w mem
    rw [settledIn_signed] at mem
    rw [signedIn_signed]
    exact mem_append_left _ (h.matched w mem)
  · rw [settledIn_signed]
    exact h.settledOnce
  · intro id auth
    change (c.pendingById.insert _ _).get? id = _ ↔ _
    rw [get?_insert, unsettled_signed open_, mem_append, mem_singleton]
    split_ifs with here
    · subst here
      constructor
      · intro same
        cases same
        exact .inr rfl
      · rintro (old | same)
        · exact absurd rfl (unseen _ (mem_of_mem_filter old))
        · simp only [Withdrawal.mk.injEq, true_and] at same
          obtain ⟨chain, amount⟩ := same
          rw [← chain, ← amount]
    · rw [h.records]
      constructor
      · exact .inl
      · rintro (old | same)
        · exact old
        · exact absurd (congrArg Withdrawal.id same) here
  · rw [signedIn_signed]
    exact forall_mem_snoc.2 ⟨h.nonneg, nonneg⟩
  · intro chain
    rw [policiesPending_record, unsettledOf_signed open_, map_append, sum_append, ← h.pending]
    by_cases here : chain = cert.request.chain
    · rw [if_pos here, pending, here]
      simp
    · rw [if_neg here, if_neg (Ne.symm here)]
      simp
  · intro chain
    rw [countOf_record, unsettledOf_signed open_, length_append, ← h.count]
    by_cases here : chain = cert.request.chain
    · rw [if_pos here, if_pos here.symm, count, here]
      rfl
    · rw [if_neg here, if_neg (Ne.symm here)]
      rfl
  · rw [haltedIn_snoc]
    exact h.halted

theorem Balanced.mem_unsettledOf (found : c.pendingById.get? id = some ⟨chain, amount⟩) :
    (⟨id, chain, amount⟩ : Withdrawal C) ∈ unsettledOf events chain :=
  mem_filter.2 ⟨(h.records id ⟨chain, amount⟩).1 found, decide_eq_true rfl⟩

theorem Balanced.sum_nonneg {l : List (Withdrawal C)}
    (sub : ∀ w ∈ l, w ∈ unsettledOf events chain) : 0 ≤ (l.map fun w => w.amount.val).sum := by
  apply List.sum_nonneg
  intro x mem
  obtain ⟨w, inside, rfl⟩ := mem_map.1 mem
  exact h.nonneg w (mem_of_mem_filter (mem_of_mem_filter (sub w inside)))

theorem Balanced.release (finality : SettlementFinality C)
    (found : c.pendingById.get? id = some ⟨chain, amount⟩) :
    Balanced (events ++ [.settled ⟨id, chain, amount⟩]) (c.release D chain id amount finality) := by
  have listed := (h.records id ⟨chain, amount⟩).1 found
  obtain ⟨signed, open_⟩ := mem_filter.1 listed
  have inChain := h.mem_unsettledOf found
  have distinct : (signedIn events).Nodup := List.Nodup.of_map _ h.once
  have absent : ∀ other, other ≠ chain → (unsettledOf events other).erase ⟨id, chain, amount⟩ =
      unsettledOf events other := fun other apart =>
    erase_of_not_mem fun mem => apart (of_decide_eq_true (mem_filter.1 mem).2).symm
  constructor
  · rw [signedIn_settled]
    exact h.ids
  · rw [signedIn_settled]
    exact h.once
  · rw [settledIn_settled, signedIn_settled]
    exact forall_mem_snoc.2 ⟨h.matched, signed⟩
  · rw [settledIn_settled]
    exact nodup_snoc.2 ⟨h.settledOnce, of_decide_eq_true open_⟩
  · intro id' auth
    change (c.pendingById.erase id).get? id' = _ ↔ _
    rw [get?_erase, unsettled_settled, mem_filter]
    split_ifs with here
    · subst here
      refine iff_of_false (by simp) ?_
      rintro ⟨old, other⟩
      apply of_decide_eq_true other
      have stored := (h.records id' auth).2 old
      rw [found] at stored
      cases stored
      rfl
    · rw [h.records]
      constructor
      · intro old
        refine ⟨old, decide_eq_true ?_⟩
        intro same
        cases same
        exact here rfl
      · exact fun old => old.1
  · rw [signedIn_settled]
    exact h.nonneg
  · intro other
    change (((c.pending.insert _ _).get? other).getD I128.zero).val = _
    rw [get?_insert, unsettledOf_settled distinct]
    split_ifs with here
    · subst here
      have whole := sum_map_erase (fun w : Withdrawal C => w.amount.val) inChain
      rw [← h.pending] at whole
      have rest := h.sum_nonneg
        fun w (inside : w ∈ (unsettledOf events other).erase ⟨id, other, amount⟩) =>
          mem_of_mem_erase inside
      have bounds := (c.policiesPending other).property
      have amountNonneg := h.nonneg _ signed
      rw [Option.getD_some, Bounded.saturatingSub_val]
      · dsimp only at whole
        omega
      · dsimp only at whole amountNonneg
        omega
      · dsimp only at whole amountNonneg
        omega
    · rw [absent other here]
      exact h.pending other
  · intro other
    change ((c.pendingCount.insert _ _).get? other).getD 0 = _
    rw [get?_insert, unsettledOf_settled distinct]
    split_ifs with here
    · subst here
      rw [Option.getD_some, length_erase_of_mem inChain, h.count]
    · rw [absent other here]
      exact h.count other
  · rw [haltedIn_snoc]
    exact h.halted

theorem Balanced.perform (call : Call C) :
    Balanced (events ++ call.recorded (c.perform D W call).1) (c.perform D W call).2 := by
  have effect := perform_effect D W c call
  generalize c.perform D W call = out at effect
  cases effect with
  | failed => simpa [Call.recorded] using h
  | administered _ c' quiet same halted =>
    rw [Call.recorded, quiet, append_nil]
    exact h.congr rfl rfl same (halted.trans h.halted)
  | switched _ on c' event same halted =>
    rw [Call.recorded, event]
    refine h.congr signedIn_switched settledIn_switched same ?_
    rw [haltedIn_snoc]
    exact halted
  | signed cert userAuth indices now policy newPending newCount _ _ nonneg pending _
      count _ fresh =>
    exact h.record nonneg pending count fresh
  | settled chain id amount finality found => exact h.release finality found

omit h

theorem Run.balanced {backend : HsmBackend C} {signers : SignerSet C} {consensus : ValidatorSet C}
    (run : Run D W (new D backend signers consensus) events c) : Balanced events c := by
  induction run with
  | start => exact Balanced.new backend signers consensus
  | call call before ih => exact ih.perform call

/-! ## The laws of the controller -/

theorem perform_error {call : Call C} {failure : Failure}
    (failed : (c.perform D W call).1 = .error failure) : (c.perform D W call).2 = c := by
  have effect := perform_effect D W c call
  generalize c.perform D W call = out at effect failed
  cases effect with
  | failed => rfl
  | _ => cases failed

/-- A signature is made while the controller runs, of an id never signed before, within the policy
in force. -/
theorem Balanced.of_signed (h : Balanced events c) {indices : List Nat} {now : Nat}
    (done : (c.perform D W (.authorize cert userAuth indices now)).1 = .ok ()) :
    c.halted = false ∧ (∀ w ∈ signedIn events, w.id ≠ cert.withdrawalId) ∧
    ∃ policy, c.policies.get? cert.request.chain = some policy ∧
      ((c.perform D W (.authorize cert userAuth indices now)).2.policiesPending
        cert.request.chain).val ≤ policy.maxPending.val ∧
      (c.perform D W (.authorize cert userAuth indices now)).2.countOf cert.request.chain ≤
        policy.rateLimit := by
  have effect := perform_effect D W c (.authorize cert userAuth indices now)
  generalize c.perform D W (.authorize cert userAuth indices now) = out at effect done
  cases effect with
  | failed => cases done
  | administered _ _ quiet => cases quiet
  | switched _ _ _ event => cases event
  | signed _ _ _ _ policy newPending newCount running found nonneg pending capped count
      limited fresh =>
    refine ⟨running, fun w mem same => fresh ((h.ids _).2 ⟨w, mem, same⟩), policy, found, ?_, ?_⟩
    · rwa [policiesPending_record, if_pos rfl]
    · rwa [countOf_record, if_pos rfl]

/-- A settlement matches exactly one earlier signature, which is not settled yet. -/
theorem Balanced.of_settled (h : Balanced events c) {finality : SettlementFinality C}
    (done : (c.perform D W (.settle chain id amount finality)).1 = .ok ()) :
    ((signedIn events).filter fun w => w.id = id) = [⟨id, chain, amount⟩] ∧
      ⟨id, chain, amount⟩ ∉ settledIn events := by
  have effect := perform_effect D W c (.settle chain id amount finality)
  generalize c.perform D W (.settle chain id amount finality) = out at effect done
  cases effect with
  | failed => cases done
  | administered _ _ quiet => cases quiet
  | switched _ _ _ event => cases event
  | settled _ _ _ _ found =>
    obtain ⟨signed, open_⟩ := mem_filter.1 ((h.records id ⟨chain, amount⟩).1 found)
    refine ⟨?_, of_decide_eq_true open_⟩
    apply perm_singleton.1
    apply (perm_ext_iff_of_nodup ((List.Nodup.of_map _ h.once).filter _) (nodup_singleton _)).2
    intro w
    rw [mem_filter, mem_singleton]
    constructor
    · rintro ⟨mem, same⟩
      exact inj_on_of_nodup_map h.once mem signed (of_decide_eq_true same)
    · rintro rfl
      exact ⟨signed, decide_eq_true rfl⟩

/-- In every run: an id is signed at most once, the pending amount and count of a chain are the sum
and the number of its signed and unsettled withdrawals, the controller is halted exactly when its
last switch was a halt, a signature is made while the controller runs and within the policy in force
and is handed out for the id of the request, a settlement matches exactly one earlier signature, and
a call that fails changes nothing. -/
theorem signs_once_and_accounts_exactly {backend : HsmBackend C} {signers : SignerSet C}
    {consensus : ValidatorSet C} (run : Run D W (new D backend signers consensus) events c) :
    ((signedIn events).map Withdrawal.id).Nodup ∧ (∀ chain,
      (c.policiesPending chain).val = ((unsettledOf events chain).map fun w => w.amount.val).sum ∧
      c.countOf chain = (unsettledOf events chain).length ∧ 0 ≤ (c.policiesPending chain).val) ∧
    c.halted = haltedIn events ∧
    (∀ cert userAuth indices now signed,
      (c.authorizeWithdrawal D W cert userAuth indices now).1 = .ok signed →
      signed.withdrawalId = cert.request.id D ∧ signed.certificate.message = cert.request.id D ∧
      signed.epoch = c.signers.epoch ∧ cert.withdrawalId = cert.request.id D) ∧
    (∀ cert userAuth indices now,
      (c.perform D W (.authorize cert userAuth indices now)).1 = .ok () →
      c.halted = false ∧ (∀ w ∈ signedIn events, w.id ≠ cert.withdrawalId) ∧
      ∃ policy, c.policies.get? cert.request.chain = some policy ∧
        ((c.perform D W (.authorize cert userAuth indices now)).2.policiesPending
          cert.request.chain).val ≤ policy.maxPending.val ∧
        (c.perform D W (.authorize cert userAuth indices now)).2.countOf cert.request.chain ≤
          policy.rateLimit) ∧
    (∀ chain id amount finality, (c.perform D W (.settle chain id amount finality)).1 = .ok () →
      ((signedIn events).filter fun w => w.id = id) = [⟨id, chain, amount⟩] ∧
      ⟨id, chain, amount⟩ ∉ settledIn events) ∧
    (∀ call failure, (c.perform D W call).1 = .error failure → (c.perform D W call).2 = c) := by
  have balanced := run.balanced
  refine ⟨balanced.once, ?_, balanced.halted, ?_, ?_, ?_, ?_⟩
  · intro chain
    refine ⟨balanced.pending chain, balanced.count chain, ?_⟩
    rw [balanced.pending chain]
    exact balanced.sum_nonneg fun _ listed => listed
  · intro cert userAuth indices now signed done
    obtain ⟨admitted, same, epoch, made, -⟩ := authorizeWithdrawal_eq_ok done
    have id := withdrawalId_of_certified (precheck_eq_ok.1 admitted).2.2.1
    exact ⟨same.trans id, (sign_message made).trans id, epoch, id⟩
  · exact fun cert userAuth indices now done => balanced.of_signed done
  · exact fun chain id amount finality done => balanced.of_settled done
  · exact fun call failure failed => perform_error failed

/-! ## A run -/

/-- A backend in which the handle of a key is the byte of its number. -/
def idealHsm : HsmBackend ideal where
  publicKey handle := .ok (handle.headD 0).toNat
  sign handle message := .ok ((handle.headD 0).toNat, message)

/-- Signers by the numbers of their keys. -/
def idealSigners (keys : List UInt8) : List (HsmSigner ideal) :=
  keys.map fun k => ⟨idealHsm, [k], k.toNat⟩

/-- Two signers, both of which are needed. -/
def pairSigners : SignerSet ideal := ⟨idealSigners [20, 21], 2, 1, by decide, by decide⟩

/-- A policy with room for the sample withdrawal. -/
def samplePolicy : ChainPolicy := ⟨1, ⟨1000, by decide⟩, ⟨2000, by decide⟩, 6, 5⟩

/-- The wallets of account 1. -/
def sampleWallets : WalletRegistry ideal :=
  ((WalletRegistry.new 4).establishMaster WalletRegistry.idealWallets (idealBind 1 10 true 0) 1).2

/-- The wallet 10 of account 1 authorizes the sample withdrawal. -/
def sampleAuth : UserWithdrawalAuth ideal :=
  .wallet sampleWallets (.svm (10 : Nat))
    (idealProof 10 (userAuthMessage ((sampleRequest 0).id idealDigests) 1))

/-- A signature refused while halted, one made after the resumption, one refused as a repetition and
the settlement. -/
def sampleCalls : List (Call ideal) :=
  [.setPolicy samplePolicy, .halt, .authorize (sampleCertificate 10) sampleAuth [0, 1] 4,
    .control .resume, .authorize (sampleCertificate 10) sampleAuth [0, 1] 5,
    .authorize (sampleCertificate 10) sampleAuth [0, 1] 6,
    .settle 1 ((sampleRequest 0).id idealDigests) (sampleRequest 0).amount ⟨7, (1 : Nat), 6⟩]

/-- The history and the state after a list of calls. -/
def replay (D : Digests C) (W : WalletScheme C) (c : CustodyController C) (calls : List (Call C)) :
    List (Event C) × CustodyController C :=
  calls.foldl
    (fun s call => (s.1 ++ call.recorded (s.2.perform D W call).1, (s.2.perform D W call).2))
    ([], c)

/-- The state with the sample policy. -/
def samplePolicySet : CustodyController ideal :=
  (replay idealDigests idealWallets (new idealDigests idealHsm pairSigners sixVoters)
    [.setPolicy samplePolicy]).2

theorem Run.replay (D : Digests C) (W : WalletScheme C) (c : CustodyController C)
    (calls : List (Call C)) : Run D W c (replay D W c calls).1 (replay D W c calls).2 := by
  have extend : ∀ (s : List (Event C) × CustodyController C), Run D W c s.1 s.2 →
      Run D W c (calls.foldl (fun s call => (s.1 ++ call.recorded (s.2.perform D W call).1,
        (s.2.perform D W call).2)) s).1 (calls.foldl (fun s call =>
        (s.1 ++ call.recorded (s.2.perform D W call).1, (s.2.perform D W call).2)) s).2 := by
    induction calls with
    | nil => exact fun s before => before
    | cons call rest ih => exact fun s before => ih _ (before.call call)
  exact extend ([], c) Run.start

theorem signs_once_and_accounts_exactly_sample :
    let s := replay idealDigests WalletRegistry.idealWallets
      (new idealDigests idealHsm pairSigners sixVoters) sampleCalls
    (signedIn s.1).length = 1 ∧ (settledIn s.1).length = 1 ∧ s.1.length = 4 ∧
    s.2.halted = haltedIn s.1 ∧
    (s.2.policiesPending 1).val = ((unsettledOf s.1 1).map fun w => w.amount.val).sum := by
  have run := Run.replay idealDigests WalletRegistry.idealWallets
    (new idealDigests idealHsm pairSigners sixVoters) sampleCalls
  obtain ⟨-, counters, halted, -⟩ := signs_once_and_accounts_exactly run
  exact ⟨by decide +kernel, by decide +kernel, by decide +kernel, halted, (counters 1).1⟩

end CustodyController

end Dexos.Custody
