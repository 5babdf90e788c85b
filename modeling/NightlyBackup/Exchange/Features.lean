/-!
What a host can do, announced as a set of numbered bits in hexadecimal. The least bits
come first; a set has as many bytes as were announced.
-/

namespace NightlyBackup

inductive Feature
  | requestOptions
  | maxDumpsOption
  | hostnameOption
  | featuresOption
  | calcsize
  | configOption
  deriving DecidableEq, Repr

namespace Feature

def all : List Feature :=
  [.requestOptions, .maxDumpsOption, .hostnameOption, .featuresOption, .calcsize, .configOption]

def bit : Feature → Nat
  | .requestOptions => 5
  | .maxDumpsOption => 33
  | .hostnameOption => 34
  | .featuresOption => 35
  | .calcsize => 52
  | .configOption => 77

end Feature

structure FeatureSet where
  bytes : List UInt8 := []
  deriving DecidableEq, Repr, Inhabited

namespace FeatureSet

def mask (f : Feature) : UInt8 := 1 <<< UInt8.ofNat (f.bit % 8)

def has (s : FeatureSet) (f : Feature) : Bool :=
  match s.bytes[f.bit / 8]? with
  | some byte => byte &&& mask f ≠ 0
  | none => false

/-- Add a feature, with zero bytes up to its place if there are too few. -/
def insert (s : FeatureSet) (f : Feature) : FeatureSet :=
  let padded := s.bytes ++ List.replicate (f.bit / 8 + 1 - s.bytes.length) 0
  ⟨padded.modify (f.bit / 8) (· ||| mask f)⟩

/-- Everything that the planner itself announces. -/
def ours : FeatureSet := Feature.all.foldl insert {}

def hexDigit (n : Nat) : Char :=
  if n < 10 then Char.ofNat ('0'.toNat + n) else Char.ofNat ('a'.toNat + n - 10)

def toHex (s : FeatureSet) : String :=
  String.ofList (s.bytes.flatMap fun b => [hexDigit (b.toNat / 16), hexDigit (b.toNat % 16)])

def hexValue? (b : UInt8) : Option UInt8 :=
  if 48 ≤ b ∧ b ≤ 57 then some (b - 48)
  else if 65 ≤ b ∧ b ≤ 70 then some (b - 55)
  else if 97 ≤ b ∧ b ≤ 102 then some (b - 87)
  else none

/-- The bytes that pairs of hexadecimal digits denote. A single last one is ignored. -/
def ofPairs : List UInt8 → Option (List UInt8)
  | a :: b :: rest => do
    let high ← hexValue? a
    let low ← hexValue? b
    let more ← ofPairs rest
    pure ((high * 16 + low) :: more)
  | _ => some []

def ofHex? (text : String) : Option FeatureSet :=
  (ofPairs text.toUTF8.toList).map FeatureSet.mk

end FeatureSet

end NightlyBackup
