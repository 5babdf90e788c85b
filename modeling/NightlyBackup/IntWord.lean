/-!
Words of a fixed width, in which sizes, levels and days are kept. Results are worked out
exactly; one that its word does not hold is an overflow.
-/

namespace NightlyBackup

inductive IntWord
  | unsigned32
  | unsigned64
  | signed32
  | signed64
  deriving DecidableEq, Repr

namespace IntWord

def least : IntWord → Int
  | .unsigned32 | .unsigned64 => 0
  | .signed32 => -2147483648
  | .signed64 => -9223372036854775808

def greatest : IntWord → Int
  | .unsigned32 => 4294967295
  | .unsigned64 => 18446744073709551615
  | .signed32 => 2147483647
  | .signed64 => 9223372036854775807

def Holds (w : IntWord) (x : Int) : Prop := w.least ≤ x ∧ x ≤ w.greatest

instance (w : IntWord) (x : Int) : Decidable (w.Holds x) := inferInstanceAs (Decidable (_ ∧ _))

end IntWord

inductive Operation
  | add
  | subtract
  | multiply
  | negate
  deriving DecidableEq, Repr

def Operation.name : Operation → String
  | .add => "add"
  | .subtract => "subtract"
  | .multiply => "multiply"
  | .negate => "negate"

/-- An operation with the exact result, which its word does not hold. -/
structure Overflow where
  operation : Operation
  word : IntWord
  result : Int
  excess : ¬word.Holds result
  deriving DecidableEq, Repr

def Overflow.message (o : Overflow) : String :=
  "attempt to " ++ o.operation.name ++ " with overflow"

namespace IntWord

variable {w : IntWord} {operation : Operation} {x : Int}

/-- The overflow of an operation with an exact result, if it is one. -/
def check (w : IntWord) (operation : Operation) (x : Int) : Option Overflow :=
  if h : w.Holds x then none else some ⟨operation, w, x, h⟩

@[simp]
theorem check_eq_none : w.check operation x = none ↔ w.Holds x := by
  unfold check
  split <;> simp [*]

end IntWord

/-- The first of some sums of sizes that is an overflow. -/
def sizesOverflow? (sums : List Nat) : Option Overflow :=
  sums.findSome? fun sum : Nat => IntWord.unsigned64.check .add sum

end NightlyBackup
