import NightlyBackup.Text.Digit
import NightlyBackup.Text.Number
import NightlyBackup.Text.Quoted

/-!
Replies of hosts. A reply consists of lines, and each is one of these: an `OPTIONS` line,
which may announce features; an `ERROR` or `WARNING` of the whole host; or a disk, a level
and either a size or a message.
-/

namespace NightlyBackup

open Text

inductive Severity
  | error
  | warning
  deriving DecidableEq, Repr

inductive ReplyLine
  /-- Options; only the announced features count. -/
  | options (features : Option String)
  | hostMessage (severity : Severity) (message : String)
  /-- A size in KB; -2 withdraws the level. -/
  | size (disk : String) (level size : Int)
  | diskMessage (disk : String) (level : Int) (message : String)
  deriving DecidableEq, Repr

structure BadLine where
  line : String
  deriving DecidableEq, Repr

def BadLine.message (b : BadLine) : String := "badly formatted line: " ++ b.line

namespace ReplyLine

/-- What follows the blanks that a text begins with; at least one is needed. -/
def afterBlanks (cs : List Char) : Option (List Char) :=
  match cs with
  | c :: rest => if isBlank c then some (rest.dropWhile isBlank) else none
  | [] => none

/-- The features in an option `features=`, which begins after a blank or a semicolon and
ends before the next one. -/
def findFeatures : List Char → Option (List Char)
  | [] => none
  | c :: rest =>
    match (if isBlank c || c = ';' then dropFront? "features=".toList rest else none) with
    | some value => some (value.takeWhile fun d => !(isBlank d || d = ';'))
    | none => findFeatures rest

def hostMessage? (cs : List Char) : Option ReplyLine :=
  match dropFront? "ERROR".toList cs, dropFront? "WARNING".toList cs with
  | some rest, _ =>
    (afterBlanks rest).map fun m => hostMessage .error (String.ofList (trim m))
  | none, some rest =>
    (afterBlanks rest).map fun m => hostMessage .warning (String.ofList (trim m))
  | none, none => none

/-! ## Lines about a disk -/

/-- A number as it stands: digits of any script after an optional minus sign. -/
def numeral (cs : List Char) : Option (List Char × List Char) :=
  let (sign, digits) : List Char × List Char := match cs with
    | '-' :: rest => (['-'], rest)
    | _ => ([], cs)
  match digits.takeWhile isDecimalDigit with
  | [] => none
  | ds => some (sign ++ ds, digits.dropWhile isDecimalDigit)

/-- The rest of a quoted name up to its closing quote, which is the first one without a
backslash in front. -/
def quotedTail : List Char → Option (List Char × List Char)
  | '"' :: rest => some (['"'], rest)
  | '\\' :: c :: rest =>
    (quotedTail rest).map fun (tail, rest) => ('\\' :: c :: tail, rest)
  | ['\\'] | [] => none
  | c :: rest => (quotedTail rest).map fun (tail, rest) => (c :: tail, rest)

/-- A quoted name at the beginning of a line. -/
def quotedName : List Char → Option (List Char × List Char)
  | '"' :: rest => (quotedTail rest).map fun (tail, rest) => ('"' :: tail, rest)
  | _ => none

/-- A name without blanks at the beginning of a line. -/
def bareName (cs : List Char) : Option (List Char × List Char) :=
  match cs.takeWhile (!isBlank ·) with
  | [] => none
  | name => some (name, cs.dropWhile (!isBlank ·))

inductive Result
  | size (digits : List Char)
  | message (text : List Char)
  deriving DecidableEq, Repr

def result? (cs : List Char) : Option Result :=
  match dropFront? "SIZE".toList cs with
  | some rest => do
    let rest ← afterBlanks rest
    let (digits, rest) ← numeral rest
    if (rest.dropWhile isBlank).isEmpty then some (.size digits) else none
  | none => do
    let rest ← match dropFront? "ERROR".toList cs with
      | some rest => some rest
      | none => dropFront? "WARNING".toList cs
    let text ← afterBlanks rest
    some (.message (trimEnd text))

def parts? (name : List Char × List Char) : Option (List Char × List Char × Result) := do
  let rest ← afterBlanks name.2
  let (level, rest) ← numeral rest
  let rest ← afterBlanks rest
  let result ← result? rest
  some (name.1, level, result)

/-- A line about a disk, as it stands. A name that begins with a quote may also be bare. -/
def split? (cs : List Char) : Option (List Char × List Char × Result) :=
  match (quotedName cs).bind parts? with
  | some parts => some parts
  | none => (bareName cs).bind parts?

def disk? (cs : List Char) : Option ReplyLine := do
  let (name, level, result) ← split? cs
  let disk := String.ofList (unquoteChars name)
  let level ← (readWhole (.signed 32) level).toOption
  match result with
  | .size digits => do
    let kb ← (readWhole (.signed 64) digits).toOption
    some (size disk level kb)
  | .message text => some (diskMessage disk level (String.ofList (unquoteChars text)))

def ofLine (cs : List Char) : Except BadLine ReplyLine :=
  if (dropFront? "OPTIONS ".toList cs).isSome then
    .ok (options ((findFeatures cs).map String.ofList))
  else match hostMessage? cs with
  | some line => .ok line
  | none =>
    match disk? cs with
    | some line => .ok line
    | none => .error ⟨String.ofList cs⟩

end ReplyLine

/-- The lines of a reply that are not blank; the first bad one is a fault of the reply. -/
def readReply (body : String) : Except BadLine (List ReplyLine) :=
  (((lines body.toList).map trimEnd).filter (!·.isEmpty)).mapM ReplyLine.ofLine

/-! ## Refusals -/

/-- The message of a refusal: what its first line says after `ERROR`. -/
def readRefusal? (body : String) : Option String := do
  let first := (lines body.toList).headD []
  let rest ← dropFront? "ERROR ".toList first
  let message := trimStart rest
  if message.isEmpty then none else some (String.ofList message)

/-- A host that is too old to be asked what it can do says so in one of these ways. -/
def isUnknownProbe (message : String) : Bool :=
  message = "unknown service: noop" || message = "noop: invalid service"

end NightlyBackup
