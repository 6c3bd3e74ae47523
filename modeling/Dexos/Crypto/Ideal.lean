import Dexos.Minimmit.Ideal
import Dexos.Crypto.Quorum

/-!
# Ideal digests

The digests of the ideal cryptography on general preimages: the hash is an injective encoding
of its preimage. It has no collisions, a signature names its key, and both evaluate.

## Implementation notes

A list of numbers is written in positional notation over a base above all of them, so that the
size of a hash is linear in the size of its preimage.
-/

namespace Dexos.Minimmit

open List Function

namespace Ideal

/-- The list as the digits of a number, below a leading one. -/
def positional (base : Nat) : List Nat → Nat
  | [] => 1
  | n :: rest => positional base rest * base + n

/-- A base above all numbers of a list, and at least two. -/
def baseOf (ns : List Nat) : Nat := ns.foldr max 1 + 1

def packList (ns : List Nat) : Nat := Nat.pair (baseOf ns) (positional (baseOf ns) ns)

theorem lt_baseOf {ns : List Nat} {n : Nat} (listed : n ∈ ns) : n < baseOf ns := by
  induction ns with
  | nil => cases listed
  | cons m rest ih =>
    rcases mem_cons.1 listed with rfl | later
    · exact Nat.lt_succ_of_le (le_max_left _ _)
    · exact (ih later).trans_le (Nat.succ_le_succ (le_max_right _ _))

theorem positional_pos (base : Nat) (h : 0 < base) (ns : List Nat) : 0 < positional base ns := by
  induction ns with
  | nil => exact Nat.one_pos
  | cons _ _ ih => exact Nat.add_pos_left (Nat.mul_pos ih h) ..

theorem positional_injective {base : Nat} (large : 1 < base) {ns ms : List Nat}
    (digits : ∀ n ∈ ns, n < base) (digits' : ∀ m ∈ ms, m < base)
    (same : positional base ns = positional base ms) : ns = ms := by
  have longer : ∀ n rest, positional base (n :: rest) ≠ 1 := by
    intro n rest
    have pos := Nat.mul_le_mul_right base (positional_pos base (by omega) rest)
    rw [positional]
    omega
  induction ns generalizing ms with
  | nil =>
    cases ms with
    | nil => rfl
    | cons m ms => exact absurd same.symm (longer m ms)
  | cons n ns ih =>
    cases ms with
    | nil => exact absurd same (longer n ns)
    | cons m ms =>
      have small : n < base := digits n mem_cons_self
      have small' : m < base := digits' m mem_cons_self
      rw [positional, positional] at same
      have lowest : n = m := by
        have remainders := congrArg (· % base) same
        simpa [Nat.mul_add_mod_self_right, Nat.mod_eq_of_lt small, Nat.mod_eq_of_lt small']
          using remainders
      subst lowest
      have higher := Nat.eq_of_mul_eq_mul_right (by omega) (Nat.add_right_cancel same)
      rw [ih (fun a ha => digits a (mem_cons_of_mem _ ha))
        (fun a ha => digits' a (mem_cons_of_mem _ ha)) higher]

theorem packList_injective : Injective packList := by
  intro ns ms same
  obtain ⟨base, number⟩ := Nat.pair_eq_pair.1 same
  have large : 1 < baseOf ns := by
    have positive : ∀ l : List Nat, 1 ≤ l.foldr max 1 := by
      intro l
      induction l with
      | nil => exact le_rfl
      | cons n rest ih => exact ih.trans (le_max_right _ _)
    exact Nat.lt_succ_of_le (positive ns)
  apply positional_injective large (fun n listed => lt_baseOf listed)
  · intro m listed
    rw [base]
    exact lt_baseOf listed
  · rw [number, base]

def encodeInt : Int → Nat
  | .ofNat n => 2 * n
  | .negSucc n => 2 * n + 1

theorem encodeInt_injective : Injective encodeInt := by
  intro a b same
  cases a <;> cases b <;> simp only [encodeInt] at same <;> first | omega | (congr 1; omega)

def encodeDatum : Datum ideal → Nat
  | .byte value => 4 * value.toNat
  | .word width value => 4 * Nat.pair width (encodeInt value) + 1
  | .hash value => 4 * (show Nat from value) + 2
  | .key value => 4 * (show Nat from value) + 3

theorem encodeDatum_injective : Injective encodeDatum := by
  intro a b same
  cases a <;> cases b <;> simp only [encodeDatum] at same <;> try omega
  case byte.byte v w =>
    congr 1
    apply UInt8.toNat_inj.1
    omega
  case word.word n v n' v' =>
    have pairs : Nat.pair n (encodeInt v) = Nat.pair n' (encodeInt v') := by omega
    obtain ⟨rfl, values⟩ := Nat.pair_eq_pair.1 pairs
    rw [encodeInt_injective values]
  case hash.hash v w =>
    congr 1
    exact Nat.eq_of_mul_eq_mul_left (by decide : 0 < 4) (Nat.add_right_cancel same)
  case key.key v w =>
    congr 1
    exact Nat.eq_of_mul_eq_mul_left (by decide : 0 < 4) (Nat.add_right_cancel same)

end Ideal

/-- The hash of a preimage is the code of its domain and its fields. -/
def idealDigests : Digests ideal where
  hashData domain fields :=
    Nat.pair (Ideal.packList (domain.toList.map Char.toNat))
      (Ideal.packList (fields.map Ideal.encodeDatum))
  zero := (0 : Nat)
  keyRank key := key
  keyRank_injective := fun _ _ same => same

theorem idealDigests_collisionFree : idealDigests.CollisionFree := by
  intro d d' fs fs' same
  obtain ⟨domains, fields⟩ := Nat.pair_eq_pair.1 same
  constructor
  · have chars := Ideal.packList_injective domains
    exact String.toList_inj.1 (map_injective_iff.2 (fun _ _ h => Char.toNat_inj.1 h) chars)
  · exact fun _ =>
      map_injective_iff.2 Ideal.encodeDatum_injective (Ideal.packList_injective fields)

theorem ideal_verify_iff {key message : Nat} {signature : Nat × Nat} :
    ideal.verify key message signature = true ↔ signature = (key, message) :=
  decide_eq_true_iff

theorem ideal_exclusive : ideal.Exclusive := by
  intro k k' message signature first second
  have same := (ideal_verify_iff.1 first).symm.trans (ideal_verify_iff.1 second)
  exact (Prod.mk.inj same).1

/-- Six validators of weight one. -/
def sixVoters : ValidatorSet ideal :=
  ⟨[⟨(0 : Nat), 1⟩, ⟨(1 : Nat), 1⟩, ⟨(2 : Nat), 1⟩, ⟨(3 : Nat), 1⟩, ⟨(4 : Nat), 1⟩, ⟨(5 : Nat), 1⟩],
    6, 5, by decide, by decide, by decide⟩

/-- A certificate with the signatures of all members. -/
def signAll (set : ValidatorSet ideal) (message : Nat) : Certificate ideal :=
  set.fullCertificate message (set.validators.map fun v => (v.publicKey, message))

end Dexos.Minimmit
