import Mathlib.Data.Nat.Pairing
import Dexos.Minimmit.Wire

/-!
# Ideal cryptography

A concrete instance of the cryptographic parameters: the hash is an injective encoding
of its preimage and a signature is the pair of the signing key and the digest. It has no
collisions and no forgeries, and it evaluates.
-/

namespace Dexos.Minimmit

open Function Nat

namespace Ideal

def encodeList : List Nat → Nat
  | [] => 0
  | n :: rest => pair n (encodeList rest) + 1

def encodeField : Field Nat → Nat
  | .u64 n => 2 * n
  | .hash h => 2 * h + 1

/-- Small codes for the domains of this protocol, injective on all strings. -/
def domainCode (domain : String) : Nat :=
  if domain = domainBlock then 0
  else if domain = domainPropose then 1
  else if domain = domainNotarize then 2
  else if domain = domainNullify then 3
  else if domain = domainExecCommit then 4
  else 5 + encodeList (domain.toList.map Char.toNat)

theorem encodeList_injective : Injective encodeList := by
  intro xs
  induction xs with
  | nil =>
    intro ys h
    cases ys with
    | nil => rfl
    | cons y ys => simp [encodeList] at h
  | cons x xs ih =>
    intro ys h
    cases ys with
    | nil => simp [encodeList] at h
    | cons y ys =>
      simp only [encodeList, Nat.add_right_cancel_iff, Nat.pair_eq_pair] at h
      rw [h.1, ih h.2]

theorem encodeField_injective : Injective encodeField := by
  rintro (n | h) (n' | h') same
  · simp only [encodeField] at same
    congr 1
    omega
  · simp only [encodeField] at same
    omega
  · simp only [encodeField] at same
    omega
  · simp only [encodeField] at same
    congr 1
    omega

theorem domainCode_injective : Injective domainCode := by
  intro d d' same
  unfold domainCode at same
  split_ifs at same <;> try omega
  all_goals first
    | (subst_vars; rfl)
    | skip
  have chars := encodeList_injective (Nat.add_left_cancel same)
  exact String.toList_inj.1 (List.map_injective_iff.2 (fun _ _ h => Char.toNat_inj.1 h) chars)

end Ideal

def ideal : Crypto where
  Hash := Nat
  Signature := Nat × Nat
  PublicKey := Nat
  KeyPair := Nat
  hashOrder := inferInstanceAs (LinearOrder Nat)
  signatureEq := inferInstanceAs (DecidableEq (Nat × Nat))
  publicKeyEq := inferInstanceAs (DecidableEq Nat)
  keyPairEq := inferInstanceAs (DecidableEq Nat)
  hashDomain domain fields :=
    pair (Ideal.domainCode domain) (Ideal.encodeList (fields.map Ideal.encodeField))
  parses _ := true
  verify key digest signature := signature = (key, digest)
  sign key digest := (key, digest)
  publicKey key := key

theorem ideal_collisionFree : ideal.CollisionFree := by
  intro d d' fs fs' same
  obtain ⟨domains, fields⟩ := pair_eq_pair.1 same
  refine ⟨Ideal.domainCode_injective domains, ?_⟩
  exact List.map_injective_iff.2 Ideal.encodeField_injective
    (Ideal.encodeList_injective fields)

/-- No nonempty preimage hashes to zero. -/
theorem ideal_hashDomain_ne_zero (domain : String) (field : Field ideal.Hash)
    (fields : List (Field ideal.Hash)) :
    ideal.hashDomain domain (field :: fields) ≠ (0 : Nat) := by
  have positive : 0 < Ideal.encodeList ((field :: fields).map Ideal.encodeField) :=
    succ_pos _
  exact (positive.trans_le (right_le_pair _ _)).ne'

end Dexos.Minimmit
