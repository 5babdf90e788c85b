import NightlyBackup.Text.Digit
import NightlyBackup.Text.Blank

/-!
Numbers as text. Whole numbers are ASCII digits with an optional sign and have to lie in a
range; decimals also have a fraction, an exponent, infinities and NaN, and denote the
nearest double. The way back prints a double rounded to a whole number, halves to the even
neighbour.
-/

namespace NightlyBackup.Text

/-! ## Whole numbers -/

/-- Bounds of a whole number; only a range that goes below zero knows the minus sign. -/
structure WholeRange where
  least : Int
  greatest : Int
  deriving DecidableEq, Repr

/-- Whole numbers of `bits` bits without a sign. -/
def WholeRange.unsigned (bits : Nat) : WholeRange := ⟨0, (1 <<< bits : Nat) - 1⟩

/-- Whole numbers of `bits` bits with a sign. -/
def WholeRange.signed (bits : Nat) : WholeRange :=
  ⟨-(1 <<< (bits - 1) : Nat), (1 <<< (bits - 1) : Nat) - 1⟩

inductive WholeFault
  | empty
  | invalidDigit
  | tooLarge
  | tooSmall
  deriving DecidableEq, Repr

def WholeFault.message : WholeFault → String
  | .empty => "cannot parse integer from empty string"
  | .invalidDigit => "invalid digit found in string"
  | .tooLarge => "number too large to fit in target type"
  | .tooSmall => "number too small to fit in target type"

/-- Continue the number `value` upwards; a bad digit counts before an overflow. -/
def readUp (greatest : Int) (value : Int) : List Char → Except WholeFault Int
  | [] => .ok value
  | c :: rest =>
    match digitValue? c with
    | none => .error .invalidDigit
    | some d =>
      if value * 10 + d > greatest then .error .tooLarge
      else readUp greatest (value * 10 + d) rest

def readDown (least : Int) (value : Int) : List Char → Except WholeFault Int
  | [] => .ok value
  | c :: rest =>
    match digitValue? c with
    | none => .error .invalidDigit
    | some d =>
      if value * 10 - d < least then .error .tooSmall
      else readDown least (value * 10 - d) rest

def readWhole (range : WholeRange) : List Char → Except WholeFault Int
  | [] => .error .empty
  | ['+'] | ['-'] => .error .invalidDigit
  | '+' :: rest => readUp range.greatest 0 rest
  | '-' :: rest =>
    if range.least < 0 then readDown range.least 0 rest else .error .invalidDigit
  | cs => readUp range.greatest 0 cs

/-! ## Decimals -/

inductive DecimalFault
  | empty
  | invalid
  deriving DecidableEq, Repr

def DecimalFault.message : DecimalFault → String
  | .empty => "cannot parse float from empty string"
  | .invalid => "invalid float literal"

/-- The number that a run of ASCII digits denotes, and what follows the run. -/
def takeDigits (cs : List Char) : List Nat × List Char :=
  ((cs.takeWhile (digitValue? · |>.isSome)).filterMap digitValue?,
    cs.dropWhile (digitValue? · |>.isSome))

def digitsValue (digits : List Nat) : Nat := digits.foldl (fun n d => n * 10 + d) 0

/-- The double nearest to `mantissa * 10 ^ exponent`. Beyond the range of doubles the
power of ten is not worked out. -/
def nearestDouble (mantissa : Nat) (exponent : Int) : Float :=
  let size := exponent + (Nat.repr mantissa).length
  if mantissa = 0 || size < -400 then 0
  else if size > 400 then Float.ofBits 0x7ff0000000000000
  else Float.ofScientific mantissa (exponent < 0) exponent.natAbs

/-- The exponent `e±n` at the end of a decimal. -/
def readExponent : List Char → Option Int
  | [] => some 0
  | e :: rest =>
    if e != 'e' && e != 'E' then none
    else
      let (negative, digits) := match rest with
        | '-' :: more => (true, more)
        | '+' :: more => (false, more)
        | _ => (false, rest)
      match takeDigits digits with
      | ([], _) | (_, _ :: _) => none
      | (ds, []) => some (if negative then -(digitsValue ds : Int) else digitsValue ds)

def readMagnitude (cs : List Char) : Option Float :=
  let word := lowerAscii cs
  if word = "inf".toList || word = "infinity".toList then some (1.0 / 0.0)
  else if word = "nan".toList then some (0.0 / 0.0)
  else
    let (whole, afterWhole) := takeDigits cs
    let (fraction, afterFraction) := match afterWhole with
      | '.' :: rest => takeDigits rest
      | _ => ([], afterWhole)
    if whole.isEmpty && fraction.isEmpty then none
    else (readExponent afterFraction).map fun e =>
      nearestDouble (digitsValue (whole ++ fraction)) (e - fraction.length)

def readDecimal (cs : List Char) : Except DecimalFault Float :=
  match cs with
  | [] => .error .empty
  | '-' :: rest => match readMagnitude rest with
    | some x => .ok (-x)
    | none => .error .invalid
  | '+' :: rest => match readMagnitude rest with
    | some x => .ok x
    | none => .error .invalid
  | _ => match readMagnitude cs with
    | some x => .ok x
    | none => .error .invalid

/-! ## Doubles as whole numbers -/

/-- The quotient of two natural numbers rounded to the nearest, halves to even. -/
def roundHalfEven (num den : Nat) : Nat :=
  let q := num / den
  let r := num % den
  if 2 * r < den then q
  else if den < 2 * r then q + 1
  else if q % 2 = 0 then q else q + 1

/-- The values that the fraction of a double can have. -/
def fractionValues : Nat := 1 <<< 52

/-- The values that the exponent of a double can have; the last one is kept for infinities
and NaN. -/
def exponentValues : Nat := 1 <<< 11

/-- The exponent, as stored, of doubles whose mantissa counts ones. -/
def unitExponent : Nat := 1075

/-- A double rounded to a whole number, halves to even. -/
def printRounded (x : Float) : String :=
  let bits := x.toBits.toNat
  let fraction := bits % fractionValues
  let exponent := bits / fractionValues % exponentValues
  let sign := if bits / fractionValues / exponentValues = 1 then "-" else ""
  if exponent = exponentValues - 1 then
    if fraction = 0 then sign ++ "inf" else "NaN"
  else
    let mantissa := if exponent = 0 then fraction else fraction + fractionValues
    let scale := if exponent = 0 then 1 else exponent
    let rounded :=
      if scale < unitExponent then roundHalfEven mantissa (1 <<< (unitExponent - scale))
      else mantissa <<< (scale - unitExponent)
    sign ++ toString rounded

/-- Two decimal digits at least. -/
def twoDigits (n : Nat) : String := if n < 10 then "0" ++ toString n else toString n

end NightlyBackup.Text
