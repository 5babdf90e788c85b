import NightlyBackup.Night.Moves
import NightlyBackup.Text.Number
import NightlyBackup.Text.Quoted

/-!
The schedule as text for the program that makes the dumps: a `FAILED` line for every disk
that failed, then a `DUMP` line for every dump in schedule order. Names of hosts and the
stamp of the run are written as they are, so that a newline in one of them breaks a line in
two for whoever reads the text.
-/

namespace NightlyBackup

structure Summary where
  scheduled : Nat
  failed : Nat
  skipped : Nat
  totalSize : Nat
  deriving DecidableEq, Repr

structure DumpFigures where
  level : Nat
  watermark : String
  nativeSize : Nat
  mediaSize : Nat
  seconds : Nat
  rate : Float
  deriving Repr

/-- KB/s that are assumed where no rate is known. -/
def defaultRate : Float := 1024.0

/-- A rate below 1 KB/s is no rate. -/
def usableRate (rate : Float) : Float := if rate < 1.0 then defaultRate else rate

def DumpFigures.words (f : DumpFigures) : List String :=
  [toString f.level, f.watermark, toString f.nativeSize, toString f.mediaSize,
    toString f.seconds, Text.printRounded f.rate]

namespace DiskPlan

def figures (p : DiskPlan) (slot : Nat) (rate : Float) : DumpFigures :=
  let e := p.levels.getD slot default
  let size := (p.mediaSize? slot).getD 0
  let rate := usableRate rate
  { level := e.level
    watermark := e.watermark
    nativeSize := e.size.kb?.getD 0
    mediaSize := size
    seconds := (Float.ofNat size / rate).toUInt64.toNat
    rate := rate }

def writtenFallback? (p : DiskPlan) : Option Nat :=
  if p.isFull then p.degraded.filter fun slot => (p.mediaSize? slot).isSome else none

/-- The end of a line: the figures of the fallback, or why there is none. -/
def fallbackWords (p : DiskPlan) : List String :=
  match p.writtenFallback? with
  | some slot => (p.figures slot p.incrRate).words
  | none =>
    [Text.quote ("Skipping: " ++
      p.degradedReason.getD "cannot dump in degraded mode for unknown reason")]

/-- The level that a failed record is reported at. -/
def failedLevel (p : DiskPlan) : Nat := p.dumpLevel?.getD 0

/-- The plan with the sizes on media that its line shows held on to. -/
def fixWritten (p : DiskPlan) : DiskPlan :=
  let p := p.fixDumpMedia
  match p.dump, (if p.isFull then p.degraded else none) with
  | some _, some slot => p.fixMedia slot
  | _, _ => p

end DiskPlan

def Host.featureWord (h : Host) : String :=
  match h.features with
  | some features => features.toHex
  | none => "UNKNOWNFEATURE"

namespace Night

def dumpWords (n : Night) (id slot : Nat) : List String :=
  let p := n.plan id
  ["DUMP", n.hostName id, (n.host p.host).featureWord, Text.quote p.disk.name, n.timestamp,
    toString p.priority]
    ++ (p.figures slot (if p.isFull then p.fullRate else p.incrRate)).words
    ++ p.fallbackWords

def dumpLine? (n : Night) (id : Nat) : Option String :=
  (n.plan id).dump.map fun slot => Text.joinWith " " (n.dumpWords id slot)

def failedLine (n : Night) (id : Nat) : String :=
  let p := n.plan id
  Text.joinWith " "
    ["FAILED", n.hostName id, Text.quote p.disk.name, n.timestamp, toString p.failedLevel,
      Text.quote ("[" ++ p.fault.getD "no error indicator" ++ "]")]

end Night

/-- The text that lines make up, each ended by a newline. -/
def writtenText (lines : List String) : String := String.join (lines.map (· ++ "\n"))

/-- The lines of a text as a reader sees them, each with its newline. -/
def readLines (text : String) : List String :=
  (Text.splitAfter '\n' text.toList).map String.ofList

/-- A place to write to; one that is broken refuses every line with the same words. -/
structure Sink where
  refusal : Option String := none
  deriving DecidableEq, Repr

namespace Planning

/-- The line of a scheduled record; the sizes on media in it stand from now on. -/
def takeDumpLine (id : Nat) : Planning (Option String) := do
  setPlan id (·.fixWritten)
  pure ((← get).dumpLine? id)

def writeTo (sink : Sink) : Planning Unit :=
  match sink.refusal with
  | some words => throw (.output words)
  | none => pure ()

def writeFailed (sink : Sink) (id : Nat) : Planning String := do
  let n ← get
  writeTo sink
  let p := n.plan id
  say (.estimateFailed (n.hostName id) p.disk.name p.failedLevel (p.fault.getD ""))
  pure (n.failedLine id)

def announceGuess (id : Nat) : Planning Unit := do
  let n ← get
  let p := n.plan id
  match p.dump.bind (p.levels[·]?) with
  | some e =>
    if e.guessed then
      warn ("no history available for " ++ n.hostName id ++ ":" ++ Text.quote p.disk.name
        ++ "; guessing that size will be " ++ toString (e.size.kb?.getD 0) ++ " KB")
  | none => pure ()

def writeDump (sink : Sink) (id : Nat) : Planning (Option String) := do
  match ← takeDumpLine id with
  | none => pure none
  | some line =>
    announceGuess id
    writeTo sink
    pure (some line)

def writeSchedule (sink : Sink) : Planning (Summary × List String) := do
  let failed ← (← get).queues.failed.mapM (writeFailed sink)
  let dumps ← (← get).scheduled.mapM (writeDump sink)
  let dumps := dumps.filterMap id
  writeTo sink
  let n ← get
  let summary : Summary :=
    { scheduled := dumps.length, failed := failed.length, skipped := n.skipped.length
      totalSize := n.totals.size }
  say (.runFinished summary.scheduled summary.failed summary.skipped summary.totalSize)
  pure (summary, failed ++ dumps)

end Planning

end NightlyBackup
