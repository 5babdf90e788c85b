/-!
Disks to back up: one filesystem of one host, and how it wants to be dumped.
-/

namespace NightlyBackup

inductive Strategy
  | standard
  | noFull
  | noIncremental
  | incrementalOnly
  deriving DecidableEq, Repr, Inhabited

def Strategy.name : Strategy → String
  | .standard => "standard"
  | .noFull => "nofull"
  | .noIncremental => "noinc"
  | .incrementalOnly => "incronly"

def Strategy.ofName? : String → Option Strategy
  | "standard" => some .standard
  | "nofull" => some .noFull
  | "noinc" => some .noIncremental
  | "incronly" => some .incrementalOnly
  | _ => none

/-- Strategies that never plan a full dump of their own. -/
def Strategy.skipsFulls : Strategy → Bool
  | .noFull | .incrementalOnly => true
  | .standard | .noIncremental => false

/-- The side that compresses or encrypts a dump, if any. -/
inductive Side
  | neither
  | client
  | server
  deriving DecidableEq, Repr, Inhabited

def Side.name : Side → String
  | .neither => "none"
  | .client => "client"
  | .server => "server"

def Side.ofName? : String → Option Side
  | "none" => some .neither
  | "client" => some .client
  | "server" => some .server
  | _ => none

inductive Holding
  | never
  | auto
  | required
  deriving DecidableEq, Repr, Inhabited

def Holding.name : Holding → String
  | .never => "never"
  | .auto => "auto"
  | .required => "required"

def Holding.ofName? : String → Option Holding
  | "never" => some .never
  | "auto" => some .auto
  | "required" => some .required
  | _ => none

inductive SizeSource
  | client
  | server
  | calcsize
  deriving DecidableEq, Repr, Inhabited

def SizeSource.name : SizeSource → String
  | .client => "client"
  | .server => "server"
  | .calcsize => "calcsize"

def SizeSource.ofName? : String → Option SizeSource
  | "client" => some .client
  | "server" => some .server
  | "calcsize" => some .calcsize
  | _ => none

/-- When an incremental moves up a level: the saving it has to bring, in percent of the
full dump or in KB, multiplied at each level, and the days it has to stay before. -/
structure BumpPolicy where
  percent : Nat
  sizeKb : Nat
  mult : Float
  days : Nat
  deriving DecidableEq, Repr, Inhabited

def scaledBy (mult : Float) : Nat → Float → Float
  | 0, x => x
  | n + 1, x => scaledBy mult n (x * mult)

/-- The KB that moving up from `level` has to save. The percentage counts if it is set and
the full dump is bigger than 1 MB. -/
def BumpPolicy.threshold (b : BumpPolicy) (level fullSize : Nat) : Nat :=
  let first :=
    if b.percent ≠ 0 ∧ fullSize > 1024 then
      Float.ofNat fullSize * Float.ofNat b.percent / 100.0
    else Float.ofNat b.sizeKb
  (scaledBy b.mult (level - 1) first).toUInt64.toNat

structure Disk where
  host : String
  name : String
  device : Option String
  program : String
  strategy : Strategy
  dumpCycle : Nat
  priority : Int
  compress : Side
  encrypt : Side
  /-- Compression ratio of a full dump assumed without history. -/
  fullRatio : Float
  /-- Compression ratio of an incremental assumed without history. -/
  incrRatio : Float
  bump : BumpPolicy
  skipFull : Bool
  skipIncr : Bool
  /-- A full dump due later than this many days ahead is not pulled into tonight. -/
  maxPromoteDay : Int
  splitSize : Nat
  allowSplit : Bool
  sizeSources : List SizeSource
  spindle : Int
  maxDumps : Nat
  directTcp : Bool
  holding : Holding
  /-- Whether the disk takes part in tonight's run. -/
  todo : Bool
  deriving DecidableEq, Repr, Inhabited

namespace Disk

def plain (host name : String) (dumpCycle : Nat) (bump : BumpPolicy) : Disk where
  host := host
  name := name
  device := none
  program := "GNUTAR"
  strategy := .standard
  dumpCycle := dumpCycle
  priority := 1
  compress := .neither
  encrypt := .neither
  fullRatio := 0.5
  incrRatio := 0.5
  bump := bump
  skipFull := false
  skipIncr := false
  maxPromoteDay := 10000
  splitSize := 0
  allowSplit := false
  sizeSources := [.client]
  spindle := -1
  maxDumps := 1
  directTcp := false
  holding := .auto
  todo := true

/-- Sizes may be worked out from the history alone. -/
def serverSized (d : Disk) : Bool := d.sizeSources.contains .server

def clientSource (d : Disk) : Option SizeSource := d.sizeSources.find? (· ≠ .server)

/-- The disk has its share in the balance of full dumps. -/
def takesFulls (d : Disk) : Bool := !(d.skipFull || d.strategy.skipsFulls)

/-- A dump of the disk may continue on the next volume. -/
def splits (d : Disk) : Bool := d.splitSize > 0 || d.allowSplit

end Disk

end NightlyBackup
