import Mathlib.Algebra.Group.Int.Defs
import Mathlib.Data.Prod.Lex
import Dexos.Foundations.Attempt
import Dexos.Foundations.OrdMap

/-!
# Gossip about peers

A table keeps one signed record for each peer, and a reputation. A record that fails to verify costs
the peer that it names, not the one that sent it: whoever sends forged records of a peer evicts it.
Records that name other peers leave a peer alone, and so do those that name it and fail for another
reason than the signature or the key.
-/

namespace Dexos.Discovery

open Foundations OrdMap

/-- What the table takes from outside: keys, the encoding of a record and its signatures. -/
structure Gossip where
  Key : Type
  Signature : Type
  /-- The fields of a record that are only bounded and signed. -/
  Details : Type
  [keyOrder : LinearOrder Key]
  boundsOk : Details → List Nat → Bool
  encode : Key → Key → Details → List Nat → Nat → Option (List UInt8)
  verify : Key → List UInt8 → Signature → Bool

attribute [instance] Gossip.keyOrder

variable {G : Gossip}

structure PeerRecord (G : Gossip) where
  nodeId : G.Key
  publicKey : G.Key
  details : G.Details
  marketIds : List Nat
  expiresAt : Nat
  signature : G.Signature

inductive RecordError where
  | expired
  | nodeIdMismatch
  | badSignature
  | oversizedField
  | codec
deriving DecidableEq

namespace PeerRecord

variable (record : PeerRecord G) (now : Nat)

def signingBytes : Option (List UInt8) :=
  G.encode record.nodeId record.publicKey record.details record.marketIds record.expiresAt

def verify : Except RecordError Unit := do
  require (G.boundsOk record.details record.marketIds) .oversizedField
  require (record.nodeId = record.publicKey) .nodeIdMismatch
  require (now < record.expiresAt) .expired
  let bytes ← orError record.signingBytes .codec
  require (G.verify record.publicKey bytes record.signature) .badSignature

/-- The failures for which the named peer loses reputation. -/
def Penalized : Prop :=
  record.verify now = .error .badSignature ∨ record.verify now = .error .nodeIdMismatch

end PeerRecord

inductive Liveness where
  | alive
  | stale
  | dead
deriving DecidableEq

structure PeerEntry (G : Gossip) where
  record : PeerRecord G
  reputation : Int
  liveness : Liveness
  missedChecks : Nat
  isSeed : Bool
  lastAnnounceAt : Nat

structure PeerConfig where
  maxPeers : Nat
  minReputation : Int
  announceMinInterval : Nat

inductive IngestOutcome where
  | admitted
  | updated
  | suppressed
  | rejected (err : RecordError)

/-- The stored peers. The market index follows their records and is not read here. -/
structure PeerTable (G : Gossip) where
  config : PeerConfig
  peers : OrdMap G.Key (PeerEntry G)

namespace PeerTable

variable (t : PeerTable G) (id : G.Key)

def evictBelowMin : PeerTable G :=
  { t with peers := t.peers.filter fun _ e => e.isSeed || t.config.minReputation < e.reputation }

/-- The key by which `make_room` chooses its victim. -/
def rank (e : PeerEntry G) : Int ×ₗ Bool := toLex (e.reputation, e.liveness = .alive)

/-- Evict the first peer of least rank that is not a seed. -/
def makeRoom : Option (PeerTable G) := do
  let victim ← (t.peers.filter fun _ e => !e.isSeed).entries.foldl (fun best x =>
    match best with
    | some b => if rank x.2 < rank b.2 then some x else best
    | none => some x) none
  return { t with peers := t.peers.erase victim.1 }

/-- `admit_verified` of a record of a new peer. -/
def admitVerified (record : PeerRecord G) : PeerTable G :=
  match if t.config.maxPeers ≤ t.peers.size then t.makeRoom else some t with
  | none => t
  | some t => { t with peers := t.peers.insert record.nodeId ⟨record, 0, .alive, 0, false, 0⟩ }

def touch (f : PeerEntry G → PeerEntry G) : PeerTable G :=
  match t.peers.get? id with
  | none => t
  | some entry => { t with peers := t.peers.insert id (f entry) }

def ingestAnnouncement (record : PeerRecord G) (now : Nat) : PeerTable G × IngestOutcome :=
  match record.verify now with
  | .error err =>
    if err = .badSignature ∨ err = .nodeIdMismatch then
      ((t.touch record.nodeId fun e =>
        ({ e with reputation := max (-2 ^ 31) (e.reputation - 4) })).evictBelowMin, .rejected err)
    else (t, .rejected err)
  | .ok () =>
    match t.peers.get? record.nodeId with
    | none =>
      ((t.admitVerified record).touch record.nodeId fun e => { e with lastAnnounceAt := max now 1 },
        .admitted)
    | some entry =>
      if record.expiresAt ≤ entry.record.expiresAt then
        if 0 < entry.lastAnnounceAt ∧ now - entry.lastAnnounceAt < t.config.announceMinInterval then
          (t, .suppressed)
        else (t.touch record.nodeId fun e => { e with lastAnnounceAt := max now 1 }, .suppressed)
      else
        (t.touch record.nodeId fun e => { e with
          record := record, liveness := .alive, missedChecks := 0, lastAnnounceAt := max now 1 },
          .updated)

variable {t id} {v : G.Key}

theorem get?_touch (f : PeerEntry G → PeerEntry G) (other : v ≠ id) :
    (t.touch id f).peers.get? v = t.peers.get? v := by
  unfold touch
  split
  · rfl
  · exact get?_insert_ne _ _ other

/-- One announcement that `v` did not sign and that evicts no peer for its capacity: a verified new
peer finds room, or all stored peers are seeds. The announcement costs no reputation, or it names
another peer and `v` is not up for eviction. -/
inductive Announced (Signed : G.Key → List UInt8 → Prop) (v : G.Key) (t : PeerTable G) :
    PeerTable G → Prop
  | ingest (record : PeerRecord G) (now : Nat)
      (foreign : ∀ bytes, record.signingBytes = some bytes → ¬Signed v bytes)
      (room : record.verify now = .ok () → t.peers.get? record.nodeId = none →
        t.peers.size < t.config.maxPeers ∨ t.makeRoom = none)
      (spared : record.Penalized now → v ≠ record.nodeId ∧ ∀ e, t.peers.get? v = some e →
        e.isSeed = true ∨ t.config.minReputation < e.reputation) :
      Announced Signed v t (t.ingestAnnouncement record now).1

variable {Signed : G.Key → List UInt8 → Prop} {t' : PeerTable G} {entry : PeerEntry G}

theorem Announced.get?_eq
    (unforgeable : ∀ key bytes sig, G.verify key bytes sig = true → Signed key bytes)
    (found : t.peers.get? v = some entry) (step : Announced Signed v t t') :
    t'.peers.get? v = some entry := by
  obtain ⟨record, now, foreign, room, spared⟩ := step
  unfold ingestAnnouncement
  cases checked : record.verify now with
  | error err =>
    dsimp only
    split_ifs with costs
    · obtain ⟨other, safe⟩ : v ≠ record.nodeId ∧ _ := by
        apply spared
        rcases costs with rfl | rfl
        · exact .inl checked
        · exact .inr checked
      have limits : ∀ f, (t.touch record.nodeId f).config = t.config := fun f => by
        unfold touch
        split <;> rfl
      rw [evictBelowMin, get?_filter, get?_touch _ other, found, limits]
      exact Option.filter_eq_some_iff.2 ⟨rfl, by simpa using safe entry found⟩
    · exact found
  | ok =>
    have other : v ≠ record.nodeId := by
      rintro rfl
      simp only [PeerRecord.verify, ok_iff] at checked
      obtain ⟨-, -, -, same, -, -, bytes, encoded, valid⟩ := checked
      exact foreign bytes encoded (unforgeable _ _ _ (same ▸ valid))
    cases known : t.peers.get? record.nodeId with
    | none =>
      rw [get?_touch _ other, admitVerified]
      by_cases full : t.config.maxPeers ≤ t.peers.size
      · rw [if_pos full, (room checked known).resolve_left (not_lt.2 full)]
        exact found
      · rw [if_neg full]
        exact (get?_insert_ne _ _ other).trans found
    | some stored =>
      dsimp only
      split_ifs
      · exact found
      · rwa [get?_touch _ other]
      · rwa [get?_touch _ other]

/-- In every run of such announcements a stored peer keeps its entry. -/
theorem announced_keeps
    (unforgeable : ∀ key bytes sig, G.verify key bytes sig = true → Signed key bytes)
    (found : t.peers.get? v = some entry) (ran : Relation.ReflTransGen (Announced Signed v) t t') :
    t'.peers.get? v = some entry := by
  induction ran with
  | refl => exact found
  | tail _ step ih => exact step.get?_eq unforgeable ih

/-! ## A forged record -/

/-- Keys are numbers, and the encoding of a record is its expiry. Only an expiry at 50 is signed. -/
def toyGossip : Gossip where
  Key := Nat
  Signature := Unit
  Details := Unit
  boundsOk _ _ := true
  encode _ _ _ _ expiresAt := some [UInt8.ofNat expiresAt]
  verify _ bytes _ := bytes = [50]

abbrev toySigned (_ : toyGossip.Key) (bytes : List UInt8) : Prop := bytes = [50]

def toyRecord (key expiresAt : Nat) : PeerRecord toyGossip := ⟨key, key, (), [], expiresAt, ()⟩

/-- A table of the given capacity that admitted the record of peer 7. -/
def toyTable (maxPeers : Nat) : PeerTable toyGossip :=
  (ingestAnnouncement ⟨⟨maxPeers, -8, 1⟩, ∅⟩ (toyRecord 7 50) 10).1

theorem toySigned_of_verify (key : toyGossip.Key) (bytes : List UInt8) (sig : Unit)
    (valid : toyGossip.verify key bytes sig = true) : toySigned key bytes :=
  of_decide_eq_true valid

/-- Peer 7 stays while a forged record names peer 8, which a full table does not know. -/
theorem announced_keeps_toy : ∃ entry, (toyTable 1).peers.get? (7 : Nat) = some entry ∧
    (toyTable 1).peers.size = 1 ∧
    ((toyTable 1).ingestAnnouncement (toyRecord 8 60) 10).1.peers.get? (7 : Nat) = some entry := by
  refine ⟨⟨toyRecord 7 50, 0, .alive, 0, false, 10⟩, rfl, rfl,
    announced_keeps toySigned_of_verify rfl
    (.single (.ingest _ _ ?_ ?_ fun _ => ⟨show (7 : Nat) ≠ 8 by decide, ?_⟩))⟩
  · rintro _ ⟨⟩
    decide
  · rintro ⟨⟩
  · rintro _ ⟨⟩
    decide

/-- Two records that name peer 7, which did not sign them, cost its reputation and evict it. -/
theorem forged_record_evicts :
    (∀ bytes, (toyRecord 7 60).signingBytes = some bytes → ¬toySigned (7 : Nat) bytes) ∧
      ((toyTable 1024).peers.get? (7 : Nat)).map PeerEntry.reputation = some 0 ∧
      let t := ((toyTable 1024).ingestAnnouncement (toyRecord 7 60) 10).1
      (t.peers.get? (7 : Nat)).map PeerEntry.reputation = some (-4) ∧
        (t.ingestAnnouncement (toyRecord 7 60) 10).1.peers.size = 0 := by
  refine ⟨?_, by decide, by decide, by decide⟩
  rintro _ ⟨⟩
  decide

end PeerTable

end Dexos.Discovery
