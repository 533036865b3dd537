import Mathlib.Data.Prod.Lex
import Mathlib.Data.String.Basic

namespace RspaceRegistry

abbrev Bytes := List UInt8

inductive Algorithm
  | sha256
  | sha512
deriving DecidableEq, Repr

namespace Algorithm

def hexLen : Algorithm → Nat
  | .sha256 => 64
  | .sha512 => 128

def name : Algorithm → String
  | .sha256 => "sha256"
  | .sha512 => "sha512"

-- The order in which the variants are declared, which `derive(Ord)` uses.
def rank : Algorithm → Nat
  | .sha256 => 0
  | .sha512 => 1

end Algorithm

def isLowerHex (c : Char) : Bool :=
  ('0' ≤ c && c ≤ '9') || ('a' ≤ c && c ≤ 'f')

-- What `Digest::from_str` asks of the text after the colon.
def ValidHex (algorithm : Algorithm) (hex : String) : Prop :=
  hex.utf8ByteSize = algorithm.hexLen ∧ hex.toList.all isLowerHex = true

instance (algorithm : Algorithm) (hex : String) : Decidable (ValidHex algorithm hex) :=
  inferInstanceAs (Decidable (_ ∧ _))

-- Outside the tests every digest comes from `from_str` or from `hash_content`,
-- so the check of the former is part of the type.
structure Digest where
  algorithm : Algorithm
  hex : String
  valid : ValidHex algorithm hex
deriving DecidableEq

inductive DigestError
  | missingColon
  | unknownAlgorithm (algorithm : String)
  | hexLen (expected got : Nat)
  | nonHex
deriving DecidableEq, Repr

def DigestError.message : DigestError → String
  | .missingColon => "missing ':' in digest"
  | .unknownAlgorithm algorithm => "unknown algorithm: " ++ algorithm
  | .hexLen expected got =>
      "hex length wrong: expected " ++ ToString.toString expected ++ ", got " ++
        ToString.toString got
  | .nonHex => "hex contains non-hex characters"

namespace Digest

def toString (d : Digest) : String := d.algorithm.name ++ ":" ++ d.hex

-- `s.split_once(':')`
def splitColon (s : String) : Option (String × String) :=
  let (algorithm, rest) := s.toList.span (· ≠ ':')
  match rest with
  | [] => none
  | _ :: hex => some (String.ofList algorithm, String.ofList hex)

def checkHex (algorithm : Algorithm) (hex : String) : Except DigestError Digest :=
  if hlen : hex.utf8ByteSize = algorithm.hexLen then
    if hhex : hex.toList.all isLowerHex = true then .ok ⟨algorithm, hex, hlen, hhex⟩
    else .error .nonHex
  else .error (.hexLen algorithm.hexLen hex.utf8ByteSize)

def fromStr (s : String) : Except DigestError Digest :=
  match splitColon s with
  | none => .error .missingColon
  | some ("sha256", hex) => checkHex .sha256 hex
  | some ("sha512", hex) => checkHex .sha512 hex
  | some (other, _) => .error (.unknownAlgorithm other)

-- How many digests there are: one for each choice of 64 or of 128 hex digits.
def count : Nat := 16 ^ 64 + 16 ^ 128

def key (d : Digest) : Lex (Nat × String) := toLex (d.algorithm.rank, d.hex)

theorem key_injective : Function.Injective key := by
  rintro ⟨a, hex, hv⟩ ⟨a', hex', hv'⟩ h
  have hp : (a.rank, hex) = (a'.rank, hex') := toLex.injective h
  obtain ⟨hr, rfl⟩ := Prod.mk.injEq .. ▸ hp
  cases a <;> cases a' <;> simp_all [Algorithm.rank]

instance : LinearOrder Digest := LinearOrder.lift' key key_injective

end Digest

-- The `sha2` and `hex` crates: what `hex::encode` prints of a hash of some
-- bytes is lowercase and has the length of the algorithm.
class Sha2 where
  hexHash : Algorithm → Bytes → String
  hexHash_valid : ∀ algorithm content, ValidHex algorithm (hexHash algorithm content)

def hashContent [Sha2] (algorithm : Algorithm) (content : Bytes) : Digest :=
  ⟨algorithm, Sha2.hexHash algorithm content, Sha2.hexHash_valid algorithm content⟩

@[simp] theorem hashContent_algorithm [Sha2] (algorithm : Algorithm) (content : Bytes) :
    (hashContent algorithm content).algorithm = algorithm := rfl

-- `sha256_digest` of the copiers, and the digest a manifest is stored under.
def sha256Digest [Sha2] (content : Bytes) : Digest := hashContent .sha256 content

end RspaceRegistry
