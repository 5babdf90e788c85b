import NightlyBackup.Settings
import NightlyBackup.Text.Number
import NightlyBackup.Text.Tokens

/-!
The disk list: lines `host disk [option ...]`, where an option is `key` or `key=value`.
A disk inherits the dump cycle and the bump policy of the settings, and no disk is listed
twice. A fault names the line it is on.
-/

namespace NightlyBackup.Disk

open Text

inductive OptionFault
  | unknown (key : String)
  | missingValue (key : String)
  | badStrategy (value : String)
  | badCompression (value : String)
  | badEncryption (value : String)
  | badHolding (value : String)
  | badSource (value : String)
  | badBoolean (value : String)
  | badPriority (value : String) (fault : WholeFault)
  | badWhole (fault : WholeFault)
  | badDecimal (fault : DecimalFault)
  deriving DecidableEq, Repr

def OptionFault.message : OptionFault → String
  | .unknown key => "unknown option " ++ key
  | .missingValue key => key ++ " needs a value"
  | .badStrategy value => "invalid strategy: " ++ value
  | .badCompression value => "invalid compression: " ++ value
  | .badEncryption value => "invalid encryption: " ++ value
  | .badHolding value => "invalid holding policy: " ++ value
  | .badSource value => "invalid estimate method: " ++ value
  | .badBoolean value => "invalid boolean: " ++ value
  | .badPriority value fault => "invalid priority: " ++ value ++ ": " ++ fault.message
  | .badWhole fault => fault.message
  | .badDecimal fault => fault.message

inductive LineFault
  | tokens (fault : TokenFault)
  | tooFewTokens
  | badOption (text : String) (fault : OptionFault)
  | duplicate (host name : String)
  deriving DecidableEq, Repr

def LineFault.message : LineFault → String
  | .tokens fault => ": " ++ fault.message
  | .tooFewTokens => ": expected \x60host disk [options]\x60"
  | .badOption text fault => ": option " ++ text ++ ": " ++ fault.message
  | .duplicate host name => ": duplicate disk " ++ host ++ ":" ++ name

/-- A line of the list, counted from 1, that is not accepted. -/
structure ListFault where
  line : Nat
  cause : LineFault
  deriving DecidableEq, Repr

def ListFault.message (f : ListFault) : String :=
  "disklist line " ++ toString f.line ++ f.cause.message

/-! ## Values of options -/

def nat (bits : Nat) (value : List Char) : Except OptionFault Nat :=
  ((readWhole (.unsigned bits) value).map Int.toNat).mapError .badWhole

def int (bits : Nat) (value : List Char) : Except OptionFault Int :=
  (readWhole (.signed bits) value).mapError .badWhole

def decimal (value : List Char) : Except OptionFault Float :=
  (readDecimal value).mapError .badDecimal

def choice {α : Type} (ofName? : String → Option α) (fault : String → OptionFault)
    (value : List Char) : Except OptionFault α :=
  match ofName? (String.ofList value) with
  | some a => .ok a
  | none => .error (fault (String.ofList value))

/-- A switch; an option without a value is switched on. -/
def switch (value : Option (List Char)) : Except OptionFault Bool :=
  match value with
  | none => .ok true
  | some v =>
    let word := String.ofList (lowerAscii v)
    if ["yes", "true", "1", "on"].contains word then .ok true
    else if ["no", "false", "0", "off"].contains word then .ok false
    else .error (.badBoolean word)

def readPriority (value : List Char) : Except OptionFault Int :=
  if value = "low".toList then .ok 0
  else if value = "medium".toList then .ok 1
  else if value = "high".toList then .ok 2
  else (readWhole (.signed 32) value).mapError (.badPriority (String.ofList value))

/-- One ratio for both kinds of dump, or two with a comma between them. -/
def readRatios (value : List Char) : Except OptionFault (Float × Float) := do
  let (full, incr) := (splitFirst ',' value).getD (value, value)
  pure (← decimal (trim full), ← decimal (trim incr))

def required (key : String) (value : Option (List Char)) : Except OptionFault (List Char) :=
  match value with
  | some v => .ok v
  | none => .error (.missingValue key)

/-! ## Options -/

def applyOption (d : Disk) (key : String) (value : Option (List Char)) :
    Except OptionFault Disk :=
  match key with
  | "device" => do
    let v ← required key value
    pure { d with device := some (String.ofList v) }
  | "program" => do
    let v ← required key value
    pure { d with program := String.ofList v }
  | "strategy" => do
    let v ← required key value >>= choice Strategy.ofName? .badStrategy
    pure { d with strategy := v }
  | "dumpcycle" => do
    let v ← required key value >>= nat 32
    pure { d with dumpCycle := v }
  | "priority" => do
    let v ← required key value >>= readPriority
    pure { d with priority := v }
  | "compress" => do
    let v ← required key value >>= choice Side.ofName? .badCompression
    pure { d with compress := v }
  | "encrypt" => do
    let v ← required key value >>= choice Side.ofName? .badEncryption
    pure { d with encrypt := v }
  | "comprate" => do
    let v ← required key value >>= readRatios
    pure { d with fullRatio := v.1, incrRatio := v.2 }
  | "bumppercent" => do
    let v ← required key value >>= nat 32
    pure { d with bump := { d.bump with percent := v } }
  | "bumpsize" => do
    let v ← required key value >>= nat 64
    pure { d with bump := { d.bump with sizeKb := v } }
  | "bumpdays" => do
    let v ← required key value >>= nat 32
    pure { d with bump := { d.bump with days := v } }
  | "bumpmult" => do
    let v ← required key value >>= decimal
    pure { d with bump := { d.bump with mult := v } }
  | "skip-full" => do pure { d with skipFull := ← switch value }
  | "skip-incr" => do pure { d with skipIncr := ← switch value }
  | "maxpromoteday" => do
    let v ← required key value >>= int 32
    pure { d with maxPromoteDay := v }
  | "splitsize" => do
    let v ← required key value >>= nat 64
    pure { d with splitSize := v }
  | "allow-split" => do pure { d with allowSplit := ← switch value }
  | "estimate" => do
    let v ← required key value
    let sources ← (splitAll ',' v).mapM fun m => choice SizeSource.ofName? .badSource (trim m)
    pure { d with sizeSources := sources }
  | "spindle" => do
    let v ← required key value >>= int 32
    pure { d with spindle := v }
  | "maxdumps" => do
    let v ← required key value >>= nat 32
    pure { d with maxDumps := v }
  | "directtcp" => do pure { d with directTcp := ← switch value }
  | "holding" => do
    let v ← required key value >>= choice Holding.ofName? .badHolding
    pure { d with holding := v }
  | "todo" => do pure { d with todo := ← switch value }
  | _ => .error (.unknown key)

def applyOptions (d : Disk) : List (List Char) → Except LineFault Disk
  | [] => .ok d
  | text :: rest =>
    let (key, value) := match splitFirst '=' text with
      | some (key, value) => (key, some value)
      | none => (text, none)
    match d.applyOption (String.ofList key) value with
    | .ok d => d.applyOptions rest
    | .error fault => .error (.badOption (String.ofList text) fault)

/-! ## Lines -/

def isIgnored (line : List Char) : Bool :=
  (trim line).isEmpty || (trim line).head? = some '#'

def ofLine (s : Settings) (line : List Char) : Except LineFault Disk :=
  match tokens (trim line) with
  | .error fault => .error (.tokens fault)
  | .ok (host :: name :: options) =>
    (plain (String.ofList host) (String.ofList name) s.dumpCycle s.bump).applyOptions options
  | .ok _ => .error .tooFewTokens

/-- Read on at line `number` with the disks of the lines before it, newest first. -/
def readLines (s : Settings) (number : Nat) (before : List Disk) :
    List (List Char) → Except ListFault (List Disk)
  | [] => .ok before.reverse
  | line :: rest =>
    if isIgnored line then readLines s (number + 1) before rest
    else match ofLine s line with
    | .error cause => .error ⟨number, cause⟩
    | .ok disk =>
      if before.any (fun d => d.host = disk.host ∧ d.name = disk.name) then
        .error ⟨number, .duplicate disk.host disk.name⟩
      else readLines s (number + 1) (disk :: before) rest

def readList (s : Settings) (text : String) : Except ListFault (List Disk) :=
  readLines s 1 [] (lines text.toList)

end NightlyBackup.Disk
