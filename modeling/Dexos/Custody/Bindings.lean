import Dexos.Crypto.Ideal
import Dexos.Custody.Wallets

/-!
# Bindings are exclusive and controlled by the master

The laws of the wallet registry over every run of its five operations. An operation that succeeds
has one of five effects; each effect keeps the invariant, which counts the bindings that are not
revoked.

With non-decreasing sequence numbers a binding is active exactly when it is not revoked: no
revocation lies in the future.
-/

namespace Dexos.Custody

open Foundations Minimmit List Nat

variable {C : Crypto}

section

variable {α : Type} {i : Nat} {l : List α}

theorem countP_modify (p : α → Bool) (f : α → α) {a : α} (found : l[i]? = some a) :
    (l.modify i f).countP p + (if p a then 1 else 0) = l.countP p + (if p (f a) then 1 else 0) := by
  induction l generalizing i with
  | nil => cases found
  | cons b rest ih =>
    cases i with
    | zero =>
      cases found
      simp only [modify_zero_cons, countP_cons]
      omega
    | succ i =>
      have tail := ih (i := i) found
      simp only [modify_succ_cons, countP_cons]
      omega

theorem forall_modify {P : α → Prop} {f : α → α} (all : ∀ a ∈ l, P a)
    (changed : ∀ a, l[i]? = some a → P (f a)) : ∀ a ∈ l.modify i f, P a := by
  intro a mem
  obtain ⟨j, inside, rfl⟩ := mem_iff_getElem.1 mem
  rw [getElem_modify]
  split_ifs with here
  · subst here
    exact changed _ (getElem?_eq_getElem _)
  · exact all _ (getElem_mem _)

end

namespace WalletRegistry

variable {W : WalletScheme C} {r : WalletRegistry C} {maxPerAccount last seq : Nat} {c : Call C}
  {message : Message C} {b : WalletBinding C} {proof : WalletProof C}

/-! ## What a call does -/

/-- The current master of the account has signed the message. -/
def Authorized (W : WalletScheme C) (r : WalletRegistry C) (account : Nat) (proof : WalletProof C)
    (message : Message C) (seq : Nat) : Prop :=
  ∃ master, r.master account seq = some master ∧ proof.key = master.key ∧
    proof.verify W message = .ok ()

theorem verifyMasterAuthorization_eq_ok {account : Nat} :
    r.verifyMasterAuthorization W account proof message seq = .ok () ↔
      r.Authorized W account proof message seq := by
  simp only [verifyMasterAuthorization, Authorized, master, ok_iff]
  constructor
  · rintro ⟨master, found, _, key, signed⟩
    exact ⟨master, found, key, signed⟩
  · rintro ⟨master, found, key, signed⟩
    exact ⟨master, found, (), key, signed⟩

/-- The results of a call together with the registries that it leaves. -/
inductive Effect (W : WalletScheme C) (r : WalletRegistry C) (seq : Nat) :
    Call C → Except CustodyError Unit × WalletRegistry C → Prop
  | failed (c : Call C) (err : CustodyError) : Effect W r seq c (.error err, r)
  | established (cmd : BindWallet C) (first : ∀ b ∈ r.bindings, b.account ≠ cmd.account)
      (designated : cmd.isMaster = true) (fresh : (cmd.account, cmd.nonce) ∉ r.usedNonces)
      (free : r.checkCrossAccount cmd.account cmd.address = .ok ()) :
      Effect W r seq (.establishMaster cmd) (.ok (), r.commitBinding cmd seq)
  | bound (cmd : BindWallet C) (proof : WalletProof C) (plain : cmd.isMaster = false)
      (fresh : (cmd.account, cmd.nonce) ∉ r.usedNonces)
      (authorized : r.Authorized W cmd.account proof
        (bindAuthorizationMessage cmd.account cmd.nonce cmd.address cmd.withdrawalsAllowed) seq)
      (free : r.checkCrossAccount cmd.account cmd.address = .ok ())
      (unbound : r.activeIndexOf cmd.account cmd.address seq = none)
      (room : r.activeCount cmd.account seq < r.maxPerAccount) :
      Effect W r seq (.bind cmd proof) (.ok (), r.commitBinding cmd seq)
  | changed (account : Nat) (address : WalletAddress C) (allowed : Bool) (proof : WalletProof C)
      (nonce i : Nat) (fresh : (account, nonce) ∉ r.usedNonces)
      (found : r.activeIndexOf account address seq = some i)
      (authorized : r.Authorized W account proof
        (setPrivilegesAuthorizationMessage account nonce address allowed) seq) :
      Effect W r seq (.setPrivileges account address allowed proof nonce)
        (.ok (), r.update account nonce i fun b => { b with withdrawalsAllowed := allowed })
  | revoked (account : Nat) (address : WalletAddress C) (proof : WalletProof C)
      (nonce i : Nat) (fresh : (account, nonce) ∉ r.usedNonces)
      (found : r.activeIndexOf account address seq = some i)
      (plain : ((r.bindings[i]?).any fun b => b.isMaster) = false)
      (authorized : r.Authorized W account proof
        (revokeAuthorizationMessage account nonce address) seq) :
      Effect W r seq (.revoke account address proof nonce)
        (.ok (), r.update account nonce i fun b => { b with revokedAt := some seq })
  | rotated (account : Nat) (newMaster : WalletAddress C) (proof : WalletProof C)
      (nonce current next : Nat) (fresh : (account, nonce) ∉ r.usedNonces)
      (held : r.activeMasterIndex account seq = some current)
      (found : r.activeIndexOf account newMaster seq = some next)
      (authorized : r.Authorized W account proof
        (rotateMasterAuthorizationMessage account nonce newMaster) seq) :
      Effect W r seq (.rotateMaster account newMaster proof nonce) (.ok (), { r with
        usedNonces := (account, nonce) :: r.usedNonces
        bindings := (r.bindings.modify current fun b => { b with isMaster := false }).modify next
          fun b => { b with isMaster := true } })

theorem perform_effect (W : WalletScheme C) (r : WalletRegistry C) (seq : Nat) (c : Call C) :
    Effect W r seq c (r.perform W seq c) := by
  cases c
  all_goals
    apply commitAfter_cases
    · exact fun err => .failed _ err
    intro i checked
    simp only [ok_iff, checkNonce] at checked
  case establishMaster cmd =>
    obtain ⟨_, first, _, designated, _, fresh, _, _, free⟩ := checked
    apply Effect.established cmd _ designated fresh free
    simpa using first
  case bind cmd proof =>
    obtain ⟨_, plain, _, fresh, _, authorized, _, _, _, free, _, unbound, room⟩ := checked
    apply Effect.bound cmd proof plain fresh _ free unbound room
    exact verifyMasterAuthorization_eq_ok.1 authorized
  case setPrivileges =>
    obtain ⟨_, fresh, i', found, _, authorized, same⟩ := checked
    cases same
    apply Effect.changed _ _ _ _ _ i fresh found
    exact verifyMasterAuthorization_eq_ok.1 authorized
  case revoke =>
    obtain ⟨_, fresh, i', found, _, plain, _, authorized, same⟩ := checked
    cases same
    apply Effect.revoked _ _ _ _ i fresh found plain
    exact verifyMasterAuthorization_eq_ok.1 authorized
  case rotateMaster =>
    obtain ⟨_, fresh, current, held, next, found, _, authorized, same⟩ := checked
    cases same
    apply Effect.rotated _ _ _ _ current next fresh held found
    exact verifyMasterAuthorization_eq_ok.1 authorized

/-! ## Invariant -/

/-- A binding that is not revoked. -/
def standing (b : WalletBinding C) : Bool := b.revokedAt.isNone

variable (r : WalletRegistry C)

/-- The masters of an account that are not revoked. -/
def masters (account : Nat) : Nat :=
  r.bindings.countP fun b => b.account = account ∧ b.isMaster ∧ standing b

def copies (account : Nat) (address : WalletAddress C) : Nat :=
  r.bindings.countP fun b => b.account = account ∧ b.address = address ∧ standing b

def wallets (account : Nat) : Nat :=
  r.bindings.countP fun b => b.account = account ∧ standing b

def history (account : Nat) : Nat :=
  r.bindings.countP fun b => b.account = account

variable {r} {cmd : BindWallet C}

/-- The invariant after calls up to the sequence number `last`. -/
structure Kept (last : Nat) (r : WalletRegistry C) : Prop where
  past : ∀ b ∈ r.bindings, ∀ t, b.revokedAt = some t → t ≤ last
  oneMaster : ∀ account, 0 < r.history account → r.masters account = 1
  owned : ∀ b ∈ r.bindings, r.ownerOf b.address = some b.account
  distinct : ∀ account address, r.copies account address ≤ 1
  capped : ∀ account, r.wallets account ≤ max 1 r.maxPerAccount

theorem Kept.new (maxPerAccount : Nat) : Kept 0 (new maxPerAccount : WalletRegistry C) where
  past := by simp [WalletRegistry.new]
  oneMaster := fun account bound => absurd bound (lt_irrefl 0)
  owned := by simp [WalletRegistry.new]
  distinct := fun account address => zero_le 1
  capped := fun account => zero_le _

/-- No revocation lies in the future, so the active bindings are those not revoked. -/
theorem Kept.isActive (h : Kept last r) (later : last ≤ seq) (mem : b ∈ r.bindings) :
    b.isActive seq = standing b := by
  rw [WalletBinding.isActive, standing]
  cases at_revoked : b.revokedAt with
  | none => rfl
  | some t =>
    have bound := h.past b mem t at_revoked
    simpa using bound.trans later

theorem Kept.activeCount_eq (h : Kept last r) (later : last ≤ seq) (account : Nat) :
    r.activeCount account seq = r.wallets account := by
  apply countP_congr
  intro b mem
  rw [h.isActive later mem]

theorem activeIndexOf_eq_some {account : Nat} {address : WalletAddress C}
    (found : r.activeIndexOf account address seq = some i) :
    ∃ b, r.bindings[i]? = some b ∧ b.account = account ∧ b.address = address ∧
      b.isActive seq = true := by
  obtain ⟨inside, holds, -⟩ := findIdx?_eq_some_iff_getElem.1 found
  exact ⟨_, getElem?_eq_getElem inside, by simpa using holds⟩

theorem activeMasterIndex_eq_some {account : Nat}
    (found : r.activeMasterIndex account seq = some i) :
    ∃ b, r.bindings[i]? = some b ∧ b.account = account ∧ b.isMaster = true ∧
      b.isActive seq = true := by
  obtain ⟨inside, holds, -⟩ := findIdx?_eq_some_iff_getElem.1 found
  exact ⟨_, getElem?_eq_getElem inside, by simpa using holds⟩

/-! ## Steps -/

theorem ownerOf_commitBinding (free : r.checkCrossAccount cmd.account cmd.address = .ok ())
    (address : WalletAddress C) :
    (r.commitBinding cmd seq).ownerOf address =
      if address = cmd.address then some cmd.account else r.ownerOf address := by
  rw [checkCrossAccount] at free
  change (List.find? _ (if _ then _ else _)).map _ = _
  cases owner : r.ownerOf cmd.address with
  | none =>
    by_cases same : address = cmd.address
    · simp [same]
    · simp [same, Ne.symm same, ownerOf]
  | some account =>
    rw [owner] at free
    dsimp only at free
    split_ifs at free with other
    simp only [Option.isSome_some, if_true]
    split_ifs with same
    · rw [same, ← not_not.1 other, ← owner]
      rfl
    · rfl

theorem countP_commitBinding (p : WalletBinding C → Bool) (cmd : BindWallet C) :
    (r.commitBinding cmd seq).bindings.countP p =
      r.bindings.countP p + if p (bindingOf cmd seq) then 1 else 0 := by
  rw [WalletRegistry.commitBinding, countP_append, countP_singleton]

/-- A new binding keeps the invariant when it leaves one master and no second copy. -/
theorem Kept.commitBinding (h : Kept last r) (later : last ≤ seq)
    (free : r.checkCrossAccount cmd.account cmd.address = .ok ())
    (oneMaster : r.masters cmd.account + (if cmd.isMaster then 1 else 0) = 1)
    (unbound : r.copies cmd.account cmd.address = 0)
    (room : r.wallets cmd.account + 1 ≤ max 1 r.maxPerAccount) :
    Kept seq (r.commitBinding cmd seq) where
  past := by
    refine forall_mem_snoc.2 ⟨fun b old t at_revoked => ?_, nofun⟩
    exact (h.past b old t at_revoked).trans later
  oneMaster := by
    intro account known
    rw [masters, countP_commitBinding]
    rw [history, countP_commitBinding] at known
    by_cases own : cmd.account = account
    · subst own
      simpa [masters, bindingOf, standing] using oneMaster
    · have kept := h.oneMaster account (by simpa [history, bindingOf, own] using known)
      simpa [masters, bindingOf, own] using kept
  owned := by
    simp only [ownerOf_commitBinding free]
    refine forall_mem_snoc.2 ⟨fun b old => ?_, if_pos rfl⟩
    split_ifs with same
    · have owner := h.owned b old
      rw [same] at owner
      rw [checkCrossAccount, owner] at free
      dsimp only at free
      split_ifs at free with other
      rw [not_not.1 other]
    · exact h.owned b old
  distinct := by
    intro account address
    rw [copies, countP_commitBinding]
    by_cases here : cmd.account = account ∧ cmd.address = address
    · obtain ⟨rfl, rfl⟩ := here
      rw [copies] at unbound
      split_ifs <;> omega
    · rw [if_neg (by simpa [bindingOf, standing] using here)]
      exact h.distinct account address
  capped := by
    intro account
    rw [wallets, countP_commitBinding]
    by_cases here : cmd.account = account
    · subst here
      rw [wallets] at room
      refine le_trans ?_ room
      split_ifs <;> omega
    · rw [if_neg (by simp [bindingOf, here])]
      exact h.capped account

/-- Changing a binding in place keeps the invariant when the change keeps the account and the
address and neither makes nor unmakes a master. -/
theorem Kept.update (h : Kept last r) (later : last ≤ seq) {account nonce : Nat}
    {change : WalletBinding C → WalletBinding C} (found : r.bindings[i]? = some b)
    (sameAccount : (change b).account = b.account) (sameAddress : (change b).address = b.address)
    (master : (change b).isMaster = true ∧ standing (change b) = true ↔
      b.isMaster = true ∧ standing b = true)
    (fewer : standing (change b) = true → standing b = true)
    (past : ∀ t, (change b).revokedAt = some t → t ≤ seq) :
    Kept seq (r.update account nonce i change) := by
  have counted := fun p => countP_modify p change found
  have mem := mem_of_getElem? found
  constructor
  · apply forall_modify
    · exact fun a listed t at_revoked => (h.past a listed t at_revoked).trans later
    · intro a at_i
      rw [found] at at_i
      cases at_i
      exact past
  · intro owner known
    have total := counted fun b => b.account = owner
    have held := counted fun b => b.account = owner ∧ b.isMaster ∧ standing b
    simp only [sameAccount, master, add_right_cancel_iff] at total held
    rw [history, WalletRegistry.update, total] at known
    rw [masters, WalletRegistry.update, held]
    exact h.oneMaster owner known
  · apply forall_modify
    · exact h.owned
    · intro a at_i
      rw [found] at at_i
      cases at_i
      rw [sameAccount, sameAddress]
      exact h.owned b mem
  · intro owner address
    have held := counted fun b => b.account = owner ∧ b.address = address ∧ standing b
    have bound := h.distinct owner address
    rw [copies] at bound ⊢
    rw [WalletRegistry.update]
    split_ifs at held with before after after <;> grind
  · intro owner
    have held := counted fun b => b.account = owner ∧ standing b
    have bound := h.capped owner
    rw [wallets] at bound ⊢
    rw [WalletRegistry.update]
    split_ifs at held with before after after <;> grind

/-- The binding without its designation. -/
def plain (b : WalletBinding C) : WalletBinding C := { b with isMaster := false }

theorem map_plain_modify (l : List (WalletBinding C)) (i : Nat) (designated : Bool) :
    (l.modify i fun b => { b with isMaster := designated }).map plain = l.map plain := by
  induction l generalizing i with
  | nil => cases i <;> rfl
  | cons b rest ih =>
    cases i with
    | zero => rfl
    | succ i => rw [modify_succ_cons, map_cons, ih, map_cons]

/-- Only designations change. -/
theorem Kept.redesignate (h : Kept last r) (later : last ≤ seq) {bindings : List (WalletBinding C)}
    {nonces : List (Nat × Nat)} (same : bindings.map plain = r.bindings.map plain)
    (oneMaster : ∀ account, 0 < r.history account →
      (bindings.countP fun b => b.account = account ∧ b.isMaster ∧ standing b) = 1) :
    Kept seq { r with usedNonces := nonces, bindings := bindings } := by
  have counted : ∀ p : WalletBinding C → Bool, (∀ b, p (plain b) = p b) →
      bindings.countP p = r.bindings.countP p := by
    intro p blind
    have counts := congrArg (List.countP p) same
    rw [countP_map, countP_map] at counts
    have strip : p ∘ plain = p := funext blind
    rwa [strip] at counts
  have listed : ∀ b ∈ bindings, ∃ b' ∈ r.bindings, plain b = plain b' := by
    intro b mem
    have kept : plain b ∈ r.bindings.map plain := same ▸ mem_map_of_mem mem
    obtain ⟨b', mem', equal⟩ := mem_map.1 kept
    exact ⟨b', mem', equal.symm⟩
  constructor
  · intro b mem t at_revoked
    obtain ⟨b', mem', equal⟩ := listed b mem
    have revoked : b.revokedAt = b'.revokedAt := by
      change (plain b).revokedAt = _
      rw [equal]
      rfl
    exact (h.past b' mem' t (revoked ▸ at_revoked)).trans later
  · intro account known
    rw [history, counted _ fun _ => rfl] at known
    exact oneMaster account known
  · intro b mem
    obtain ⟨b', mem', equal⟩ := listed b mem
    change r.ownerOf (plain b).address = some (plain b).account
    rw [equal]
    exact h.owned b' mem'
  · intro account address
    rw [copies, counted _ fun _ => rfl]
    exact h.distinct account address
  · intro account
    rw [wallets, counted _ fun _ => rfl]
    exact h.capped account

/-- Moving the designation from the current master to a wallet of the account leaves one master. -/
theorem Kept.masters_rotated (h : Kept last r) {account current next : Nat} {b' : WalletBinding C}
    (held : r.bindings[current]? = some b) (own : b.account = account) (master : b.isMaster = true)
    (active : standing b = true) (found : r.bindings[next]? = some b') (own' : b'.account = account)
    (active' : standing b' = true) (other : Nat) (known : 0 < r.history other) :
    (((r.bindings.modify current fun b => { b with isMaster := false }).modify next
      fun b => { b with isMaster := true }).countP
        fun b => b.account = other ∧ b.isMaster ∧ standing b) = 1 := by
  have one := h.oneMaster other known
  rw [masters] at one
  have dismissed := countP_modify (fun b => b.account = other ∧ b.isMaster ∧ standing b)
    (fun b => { b with isMaster := false }) held
  obtain ⟨b'', found'', account'', active''⟩ : ∃ b'',
      (r.bindings.modify current fun b => { b with isMaster := false })[next]? = some b'' ∧
      b''.account = account ∧ standing b'' = true := by
    rw [getElem?_modify, found]
    split_ifs
    · exact ⟨_, rfl, own', active'⟩
    · exact ⟨_, rfl, own', active'⟩
  have designated := countP_modify (fun b => b.account = other ∧ b.isMaster ∧ standing b)
    (fun b => { b with isMaster := true }) found''
  by_cases same : account = other
  · subst same
    rw [if_pos (by simp [own, master, active]), if_neg (by simp), one] at dismissed
    have none_left := add_right_cancel (dismissed.trans (add_comm 1 0))
    have ordinary := countP_eq_zero.1 none_left b'' (mem_of_getElem? found'')
    have promoted : decide (b''.account = account ∧ true = true ∧
        standing { b'' with isMaster := true } = true) = true :=
      decide_eq_true ⟨account'', rfl, active''⟩
    rwa [if_neg ordinary, if_pos promoted, none_left] at designated
  · rw [if_neg (by simp [own, same]), if_neg (by simp), one] at dismissed
    rw [if_neg (by simp [account'', same]), if_neg (by simp [account'', same])] at designated
    exact designated.trans dismissed

theorem Kept.perform (h : Kept last r) (later : last ≤ seq) (W : WalletScheme C) (c : Call C) :
    Kept seq (r.perform W seq c).2 := by
  have effect := perform_effect W r seq c
  generalize r.perform W seq c = out at effect
  cases effect with
  | failed _ err =>
    exact ⟨fun b mem t revoked => (h.past b mem t revoked).trans later, h.oneMaster, h.owned,
      h.distinct, h.capped⟩
  | established cmd first designated fresh free =>
    have none_of : ∀ p : WalletBinding C → Bool,
        (r.bindings.countP fun b => b.account = cmd.account ∧ p b) = 0 := by
      intro p
      apply countP_eq_zero.2
      intro b mem
      simp [first b mem]
    apply h.commitBinding later free
    · rw [designated, masters]
      have none := none_of fun b => b.isMaster ∧ standing b
      simp only [decide_eq_true_eq] at none
      rw [none]
      rfl
    · have none := none_of fun b => b.address = cmd.address ∧ standing b
      simp only [decide_eq_true_eq] at none
      exact none
    · have none := none_of standing
      rw [wallets, none]
      exact le_max_left _ _
  | bound cmd proof plain fresh authorized free unbound room =>
    obtain ⟨master, found, -⟩ := authorized
    obtain ⟨i, at_i, stored⟩ := Option.bind_eq_some_iff.1 found
    obtain ⟨b, at_b, own, -⟩ := activeMasterIndex_eq_some at_i
    have known : 0 < r.history cmd.account :=
      countP_pos_iff.2 ⟨b, mem_of_getElem? at_b, by simpa using own⟩
    apply h.commitBinding later free
    · rw [plain, h.oneMaster _ known]
      rfl
    · apply countP_eq_zero.2
      intro b mem
      have inactive := findIdx?_eq_none_iff.1 unbound b mem
      rw [h.isActive later mem] at inactive
      simpa using inactive
    · rw [h.activeCount_eq later] at room
      exact room.trans_le (le_max_right _ _)
  | changed account address allowed proof nonce i fresh found authorized =>
    obtain ⟨b, at_i, -, -, -⟩ := activeIndexOf_eq_some found
    apply h.update later at_i rfl rfl Iff.rfl id
    intro t revoked
    exact (h.past b (mem_of_getElem? at_i) t revoked).trans later
  | revoked account address proof nonce i fresh found plain authorized =>
    obtain ⟨b, at_i, -, -, -⟩ := activeIndexOf_eq_some found
    rw [at_i] at plain
    have ordinary : b.isMaster = false := plain
    apply h.update later at_i rfl rfl
    · simp [ordinary]
    · simp [standing]
    · intro t revoked
      cases revoked
      exact le_rfl
  | rotated account newMaster proof nonce current next fresh held found authorized =>
    obtain ⟨b, at_current, own, master, active⟩ := activeMasterIndex_eq_some held
    obtain ⟨b', at_next, own', -, active'⟩ := activeIndexOf_eq_some found
    rw [h.isActive later (mem_of_getElem? at_current)] at active
    rw [h.isActive later (mem_of_getElem? at_next)] at active'
    apply h.redesignate later
    · rw [map_plain_modify, map_plain_modify]
    · exact h.masters_rotated at_current own master active at_next own' active'

theorem Reached.kept (run : Reached W maxPerAccount last r) :
    Kept last r ∧ r.maxPerAccount = maxPerAccount := by
  induction run with
  | start => exact ⟨Kept.new maxPerAccount, rfl⟩
  | @call last seq r c before later ih =>
    refine ⟨ih.1.perform later W c, ?_⟩
    rw [← ih.2]
    have effect := perform_effect W r seq c
    generalize r.perform W seq c = out at effect
    cases effect <;> rfl

/-! ## Authorization messages -/

/-- What a master authorizes, with its arguments. -/
inductive Operation (C : Crypto) where
  | establish
  | bind (address : WalletAddress C) (withdrawalsAllowed : Bool)
  | revoke (address : WalletAddress C)
  | setPrivileges (address : WalletAddress C) (withdrawalsAllowed : Bool)
  | rotate (newMaster : WalletAddress C)

namespace Operation

def tag : Operation C → UInt8
  | .establish => 0
  | .bind _ _ => opBind
  | .revoke _ => opRevoke
  | .setPrivileges _ _ => opSetPrivileges
  | .rotate _ => opRotate

def body : Operation C → List (Datum C)
  | .establish => []
  | .bind address withdrawalsAllowed => address.encode ++ [flag withdrawalsAllowed]
  | .revoke address => address.encode
  | .setPrivileges address withdrawalsAllowed => address.encode ++ [flag withdrawalsAllowed]
  | .rotate newMaster => newMaster.encode

end Operation

namespace Call

def account : Call C → Nat
  | .establishMaster cmd => cmd.account
  | .bind cmd _ => cmd.account
  | .setPrivileges account _ _ _ _ => account
  | .revoke account _ _ _ => account
  | .rotateMaster account _ _ _ => account

def nonce : Call C → Nat
  | .establishMaster cmd => cmd.nonce
  | .bind cmd _ => cmd.nonce
  | .setPrivileges _ _ _ _ nonce => nonce
  | .revoke _ _ _ nonce => nonce
  | .rotateMaster _ _ _ nonce => nonce

end Call

theorem perform_error {err : CustodyError} (failed : (r.perform W seq c).1 = .error err) :
    (r.perform W seq c).2 = r := by
  have effect := perform_effect W r seq c
  generalize r.perform W seq c = out at effect failed
  cases effect with
  | failed => rfl
  | _ => cases failed

/-- Ed25519 wallets of the ideal cryptography; no other wallet signs. -/
def idealWallets : WalletScheme ideal where
  verifySecp256k1Evm _ _ _ := .error .invalidSignature
  verifyEd25519 key message signature :=
    if ideal.verify key (idealDigests.hashData message.domain message.fields) signature then .ok ()
    else .error .invalidSignature
  keccakAddress _ := 0

/-- The proof of an ideal wallet over a message. -/
def idealProof (key : Nat) (message : Message ideal) : WalletProof ideal :=
  .ed25519 key ((key, idealDigests.hashData message.domain message.fields) : Nat × Nat)

/-- A command to bind an ideal wallet, with its proof of control. -/
def idealBind (account key : Nat) (isMaster : Bool) (nonce : Nat) : BindWallet ideal :=
  let cmd : BindWallet ideal := ⟨account, .svm key, isMaster, true, nonce, .ed25519 key (0, 0)⟩
  { cmd with proof := idealProof key cmd.bindingMessage }

end WalletRegistry

end Dexos.Custody
