import NightlyBackup.Settings
import NightlyBackup.Text.Number

/-!
Settings as text: lines `KEY="VALUE"`. Blank lines, comments, unknown keys and values that
do not fit their key leave the settings as they are. The run's surroundings may name other
paths and a stamp.
-/

namespace NightlyBackup.Settings

open Text

inductive Key
  | configName
  | dbPath
  | disklistPath
  | dumpCycle
  | runsPerCycle
  | tapeCycle
  | runTapes
  | maxDumpSize
  | tapeLength
  | tapeFilemark
  | tapeBlocksize
  | eTimeout
  | cTimeout
  | reserve
  | estimatePort
  | bumpPercent
  | bumpSize
  | bumpMult
  | bumpDays
  | useTimestamps
  | delayForcedFulls
  deriving DecidableEq, Repr

def Key.ofName? : String → Option Key
  | "CONFIG_NAME" => some .configName
  | "DB_PATH" => some .dbPath
  | "DISKLIST_PATH" => some .disklistPath
  | "DUMPCYCLE" => some .dumpCycle
  | "RUNSPERCYCLE" => some .runsPerCycle
  | "TAPECYCLE" => some .tapeCycle
  | "RUNTAPES" => some .runTapes
  | "MAXDUMPSIZE" => some .maxDumpSize
  | "TAPE_LENGTH" => some .tapeLength
  | "TAPE_FILEMARK" => some .tapeFilemark
  | "TAPE_BLOCKSIZE" => some .tapeBlocksize
  | "ETIMEOUT" => some .eTimeout
  | "CTIMEOUT" => some .cTimeout
  | "RESERVE" => some .reserve
  | "ESTIMATE_PORT" => some .estimatePort
  | "BUMPPERCENT" => some .bumpPercent
  | "BUMPSIZE" => some .bumpSize
  | "BUMPMULT" => some .bumpMult
  | "BUMPDAYS" => some .bumpDays
  | "USETIMESTAMPS" => some .useTimestamps
  | "DELAY_FORCED_FULLS" => some .delayForcedFulls
  | _ => none

/-- A whole number of `bits` bits without a sign. -/
def nat? (bits : Nat) (value : List Char) : Option Nat :=
  (readWhole (.unsigned bits) value).toOption.map Int.toNat

/-- A whole number of `bits` bits with a sign. -/
def int? (bits : Nat) (value : List Char) : Option Int :=
  (readWhole (.signed bits) value).toOption

/-- Words that switch something on; any other switches it off. -/
def isOn (value : List Char) : Bool :=
  ["yes", "true", "1", "on"].contains (String.ofList (lowerAscii value))

/-- Set what `key` names. A value that does not fit changes nothing. -/
def assign (s : Settings) (key : Key) (value : List Char) : Settings :=
  match key with
  | .configName => { s with name := String.ofList value }
  | .dbPath => { s with historyPath := String.ofList value }
  | .disklistPath => { s with diskListPath := String.ofList value }
  | .dumpCycle => { s with dumpCycle := (nat? 32 value).getD s.dumpCycle }
  | .runsPerCycle => { s with runsPerCycle := (int? 32 value).getD s.runsPerCycle }
  | .tapeCycle => { s with tapeCycle := (nat? 32 value).getD s.tapeCycle }
  | .runTapes => { s with runTapes := (nat? 32 value).getD s.runTapes }
  | .maxDumpSize => { s with maxDumpSize := (int? 64 value).getD s.maxDumpSize }
  | .tapeLength => { s with tapeLength := (nat? 64 value).getD s.tapeLength }
  | .tapeFilemark => { s with tapeFilemark := (nat? 64 value).getD s.tapeFilemark }
  | .tapeBlocksize => { s with tapeBlocksize := (nat? 64 value).getD s.tapeBlocksize }
  | .eTimeout => { s with estimateTimeout := (int? 64 value).getD s.estimateTimeout }
  | .cTimeout => { s with probeTimeout := (nat? 64 value).getD s.probeTimeout }
  | .reserve => { s with reserve := (nat? 32 value).getD s.reserve }
  | .estimatePort => { s with port := (nat? 16 value).getD s.port }
  | .bumpPercent =>
    { s with bump := { s.bump with percent := (nat? 32 value).getD s.bump.percent } }
  | .bumpSize =>
    { s with bump := { s.bump with sizeKb := (nat? 64 value).getD s.bump.sizeKb } }
  | .bumpMult =>
    { s with bump := { s.bump with mult := (readDecimal value).toOption.getD s.bump.mult } }
  | .bumpDays =>
    { s with bump := { s.bump with days := (nat? 32 value).getD s.bump.days } }
  | .useTimestamps => { s with useTimestamps := isOn value }
  | .delayForcedFulls => { s with delayForcedFulls := isOn value }

/-- The key and the value of a line, if it sets anything. Blanks around either and quotes
around the value do not count. -/
def assignment? (line : List Char) : Option (Key × List Char) :=
  let line := trim line
  if line.isEmpty || line.head? = some '#' then none
  else do
    let (key, value) ← splitFirst '=' line
    let key ← Key.ofName? (String.ofList (trim key))
    pure (key, stripBoth '"' (trim value))

def applyLine (s : Settings) (line : List Char) : Settings :=
  match assignment? line with
  | some (key, value) => s.assign key value
  | none => s

def applyText (s : Settings) (text : List Char) : Settings :=
  (lines text).foldl applyLine s

/-- What the surroundings of a run may set, over everything else. -/
structure Surroundings where
  historyPath : Option String := none
  diskListPath : Option String := none
  timestamp : Option String := none
  deriving Repr

/-- The settings of a run: defaults, then the text if there is one, then the
surroundings. -/
def load (text : Option String) (around : Surroundings) : Except SettingsFault Settings :=
  let s : Settings := {}
  let s := match text with
    | some t => s.applyText t.toList
    | none => s
  let s := { s with
    historyPath := around.historyPath.getD s.historyPath
    diskListPath := around.diskListPath.getD s.diskListPath
    timestamp := around.timestamp }
  match s.fault? with
  | some fault => .error fault
  | none => .ok s

end NightlyBackup.Settings
