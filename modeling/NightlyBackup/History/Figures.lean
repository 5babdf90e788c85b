import NightlyBackup.History
import NightlyBackup.Text.Number

/-!
Performance as stored text: a JSON object with the fields `rate` and `comp`, or a JSON
array of both. Each is an array of exactly three numbers. Other fields of the object may
hold any JSON value and are ignored; a field given twice is a fault, and so is text after
the value. A number is read into a significand of 64 bits and a power of ten and is as
exact as one multiplication or a few divisions of doubles make it. A reader takes the
characters it needs and returns the rest, or `none`.
-/

namespace NightlyBackup.Figures

open Text

abbrev Reader (α : Type) := List Char → Option (α × List Char)

def isJsonBlank (c : Char) : Bool := c = ' ' || c = '\n' || c = '\t' || c = '\r'

def skipBlanks (cs : List Char) : List Char := cs.dropWhile isJsonBlank

def expect (c : Char) : Reader Unit := fun cs =>
  match skipBlanks cs with
  | d :: rest => if d = c then some ((), rest) else none
  | [] => none

/-! ## Numbers -/

def readInteger : Reader (List Nat) := fun cs =>
  match takeDigits cs with
  | ([], _) => none
  | (0 :: _ :: _, _) => none
  | (digits, rest) => some (digits, rest)

/-- A point and at least one digit, or nothing. -/
def readFraction : Reader (List Nat) := fun cs =>
  match cs with
  | '.' :: rest =>
    match takeDigits rest with
    | ([], _) => none
    | (digits, rest) => some (digits, rest)
  | _ => some ([], cs)

def readExponentPart : Reader Int := fun cs =>
  match cs with
  | e :: rest =>
    if e = 'e' ∨ e = 'E' then
      let (sign, digits) : Int × List Char := match rest with
        | '-' :: more => (-1, more)
        | '+' :: more => (1, more)
        | _ => (1, rest)
      match takeDigits digits with
      | ([], _) => none
      | (ds, rest) => some (sign * digitsValue ds, rest)
    else some (0, cs)
  | [] => some (0, cs)

/-- A number without its sign: `significand * 10 ^ power`. -/
structure Numeral where
  significand : Nat
  power : Int
  deriving DecidableEq, Repr

/-- Significands have 64 bits. -/
def significandLimit : Nat := 18446744073709551616

/-- Append digits to a significand up to the first that takes it past its limit. The result
has the number of digits that were appended. -/
def appendDigits (significand : Nat) : List Nat → Nat × Nat
  | [] => (significand, 0)
  | d :: ds =>
    if significand * 10 + d < significandLimit then
      let (longer, count) := appendDigits (significand * 10 + d) ds
      (longer, count + 1)
    else (significand, 0)

/-- The numeral that digits before the point, digits behind it and an exponent make up. A
digit before the point that the significand has no room for still counts for the power; the
digits behind the point then start over with what room is left. -/
def Numeral.ofDigits (whole fraction : List Nat) (exponent : Int) : Numeral :=
  let (front, taken) := appendDigits 0 whole
  let (significand, scale) := appendDigits front fraction
  ⟨significand, exponent + (whole.length - taken : Nat) - scale⟩

def powerLimit : Nat := 308

def powerOfTen (k : Nat) : Float := Float.ofScientific 1 false k

/-- Divide by `10 ^ k`, in several steps if that power is no double. -/
def divideByPower (x : Float) (k : Nat) : Float :=
  if k ≤ powerLimit then x / powerOfTen k
  else if x == 0 then x
  else divideByPower (x / powerOfTen powerLimit) (k - powerLimit)
termination_by k
decreasing_by simp only [powerLimit] at *; omega

/-- The double that a numeral stands for, or `none` for a number beyond the doubles. The
significand is rounded to a double before the power of ten comes in, and the product or
quotient is rounded again, so that this need not be the nearest double. -/
def Numeral.toDouble? (n : Numeral) : Option Float :=
  let x := Float.ofNat n.significand
  if n.power < 0 then some (divideByPower x n.power.natAbs)
  else if n.power.natAbs ≤ powerLimit then
    let product := x * powerOfTen n.power.natAbs
    if product.isInf then none else some product
  else if n.significand = 0 then some 0
  else none

/-- A number; one beyond the doubles is a fault. -/
def readNumber : Reader Float := fun cs => do
  let (negative, cs) := match skipBlanks cs with
    | '-' :: rest => (true, rest)
    | rest => (false, rest)
  let (whole, cs) ← readInteger cs
  let (fraction, cs) ← readFraction cs
  let (exponent, cs) ← readExponentPart cs
  let x ← (Numeral.ofDigits whole fraction exponent).toDouble?
  some (if negative then -x else x, cs)

/-! ## Strings -/

def hexDigit? (c : Char) : Option Nat :=
  if '0' ≤ c ∧ c ≤ '9' then some (c.toNat - '0'.toNat)
  else if 'a' ≤ c ∧ c ≤ 'f' then some (c.toNat - 'a'.toNat + 10)
  else if 'A' ≤ c ∧ c ≤ 'F' then some (c.toNat - 'A'.toNat + 10)
  else none

def readUnit : Reader Nat
  | a :: b :: c :: d :: rest => do
    let a ← hexDigit? a
    let b ← hexDigit? b
    let c ← hexDigit? c
    let d ← hexDigit? d
    some (a * 4096 + b * 256 + c * 16 + d, rest)
  | _ => none

def simpleEscape? (c : Char) : Option Char :=
  if c = '"' ∨ c = '\\' ∨ c = '/' then some c
  else if c = 'b' then some '\x08'
  else if c = 'f' then some '\x0c'
  else if c = 'n' then some '\n'
  else if c = 'r' then some '\r'
  else if c = 't' then some '\t'
  else none

/-- The character of `\u` escapes, two of them for a character past U+FFFF. -/
def readUnits : Reader Char := fun cs => do
  let (high, cs) ← readUnit cs
  if 0xdc00 ≤ high ∧ high ≤ 0xdfff then none
  else if 0xd800 ≤ high ∧ high ≤ 0xdbff then
    let ((), cs) ← (dropFront? ['\\', 'u'] cs).map ((), ·)
    let (low, cs) ← readUnit cs
    if 0xdc00 ≤ low ∧ low ≤ 0xdfff then
      some (Char.ofNat (0x10000 + (high - 0xd800) * 1024 + (low - 0xdc00)), cs)
    else none
  else some (Char.ofNat high, cs)

/-- The rest of a string after its opening quote. With `strict` its escapes have to denote
characters, otherwise they only have to be well formed. -/
def readStringTail (strict : Bool) : Nat → Reader (List Char)
  | 0, _ => none
  | _ + 1, [] => none
  | fuel + 1, c :: rest =>
    if c = '"' then some ([], rest)
    else if c.toNat < 0x20 then none
    else if c = '\\' then do
      match rest with
      | 'u' :: rest =>
        let (d, rest) ← if strict then readUnits rest
          else (readUnit rest).map fun (_, rest) => (' ', rest)
        let (tail, rest) ← readStringTail strict fuel rest
        some (d :: tail, rest)
      | e :: rest =>
        let d ← simpleEscape? e
        let (tail, rest) ← readStringTail strict fuel rest
        some (d :: tail, rest)
      | [] => none
    else do
      let (tail, rest) ← readStringTail strict fuel rest
      some (c :: tail, rest)

def readString (strict : Bool) : Reader (List Char) := fun cs => do
  let ((), rest) ← expect '"' cs
  readStringTail strict (rest.length + 1) rest

/-! ## Values that are ignored -/

def skipNumber : Reader Unit := fun cs => do
  let cs := (dropFront? ['-'] cs).getD cs
  let (_, cs) ← readInteger cs
  let (_, cs) ← readFraction cs
  let (_, cs) ← readExponentPart cs
  some ((), cs)

/-- Any JSON value. A value of `n` characters takes less than `2 * n` steps, one for itself
and one for its place in the value around it. -/
def skipValue : Nat → Reader Unit
  | 0, _ => none
  | fuel + 1, cs =>
    match skipBlanks cs with
    | [] => none
    | c :: rest =>
      if c = '"' then (readString false (c :: rest)).map fun (_, rest) => ((), rest)
      else if c = '[' then
        match skipBlanks rest with
        | ']' :: rest => some ((), rest)
        | rest => skipItems fuel rest
      else if c = '\x7b' then
        match skipBlanks rest with
        | '\x7d' :: rest => some ((), rest)
        | rest => skipMembers fuel rest
      else if c = 'n' then (dropFront? "ull".toList rest).map ((), ·)
      else if c = 't' then (dropFront? "rue".toList rest).map ((), ·)
      else if c = 'f' then (dropFront? "alse".toList rest).map ((), ·)
      else skipNumber (c :: rest)
where
  skipItems : Nat → Reader Unit
    | 0, _ => none
    | fuel + 1, cs => do
      let ((), cs) ← skipValue fuel cs
      match skipBlanks cs with
      | ']' :: rest => some ((), rest)
      | ',' :: rest => skipItems fuel rest
      | _ => none
  skipMembers : Nat → Reader Unit
    | 0, _ => none
    | fuel + 1, cs => do
      let (_, cs) ← readString false cs
      let ((), cs) ← expect ':' cs
      let ((), cs) ← skipValue fuel cs
      match skipBlanks cs with
      | '\x7d' :: rest => some ((), rest)
      | ',' :: rest => skipMembers fuel rest
      | _ => none

/-! ## Performance -/

def readRecent : Reader Recent := fun cs => do
  let ((), cs) ← expect '[' cs
  let (newest, cs) ← readNumber cs
  let ((), cs) ← expect ',' cs
  let (previous, cs) ← readNumber cs
  let ((), cs) ← expect ',' cs
  let (oldest, cs) ← readNumber cs
  let ((), cs) ← expect ']' cs
  some (⟨newest, previous, oldest⟩, cs)

/-- The members of an object from its first key on, with the fields that were found
before. -/
def readMembers : Nat → Option Recent → Option Recent → Reader Performance
  | 0, _, _, _ => none
  | fuel + 1, rate, comp, cs => do
    let (key, cs) ← readString true cs
    let ((), cs) ← expect ':' cs
    let (rate, comp, cs) ←
      if key = "rate".toList then
        if rate.isSome then none
        else (readRecent cs).map fun (r, cs) => (some r, comp, cs)
      else if key = "comp".toList then
        if comp.isSome then none
        else (readRecent cs).map fun (c, cs) => (rate, some c, cs)
      else (skipValue (2 * cs.length + 2) cs).map fun (_, cs) => (rate, comp, cs)
    match skipBlanks cs with
    | ',' :: rest => readMembers fuel rate comp rest
    | '\x7d' :: rest => do
      let rate ← rate
      let comp ← comp
      some (⟨rate, comp⟩, rest)
    | _ => none

def readPerformance : Reader Performance := fun cs =>
  match skipBlanks cs with
  | '[' :: rest => do
    let (rate, cs) ← readRecent rest
    let ((), cs) ← expect ',' cs
    let (comp, cs) ← readRecent cs
    let ((), cs) ← expect ']' cs
    some (⟨rate, comp⟩, cs)
  | '\x7b' :: rest => readMembers (rest.length + 1) none none rest
  | _ => none

def ofText? (text : String) : Option Performance := do
  let (performance, rest) ← readPerformance text.toList
  if (skipBlanks rest).isEmpty then some performance else none

end NightlyBackup.Figures
