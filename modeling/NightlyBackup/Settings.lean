import NightlyBackup.Disk

/-!
Settings of a run, their defaults, the rules they have to satisfy and the time that hosts
are given to answer.
-/

namespace NightlyBackup

structure Settings where
  settingsPath : String := "/etc/dump-planner/planner.cfg"
  historyPath : String := "/var/lib/dump-planner/history.db"
  diskListPath : String := "/etc/dump-planner/disklist"
  /-- The name that hosts are told. -/
  name : String := "daily"
  /-- Days in which every disk gets a full dump. -/
  dumpCycle : Nat := 10
  /-- Runs in a dump cycle: 0 for one a day, -1 to guess from the tapes. -/
  runsPerCycle : Int := 0
  tapeCycle : Nat := 15
  runTapes : Nat := 1
  /-- Room for one run in KB; zero or less for as much as the tapes hold. -/
  maxDumpSize : Int := -1
  tapeLength : Nat := 2000
  tapeFilemark : Nat := 1
  tapeBlocksize : Nat := 32
  /-- Seconds for each size that is asked for; if negative, for the whole host. -/
  estimateTimeout : Int := 300
  probeTimeout : Nat := 30
  /-- Below 100, dates of earlier dumps count; at 100, positions of their tapes. -/
  reserve : Nat := 100
  useTimestamps : Bool := true
  /-- Full dumps that were asked for may be put off. -/
  delayForcedFulls : Bool := true
  port : Nat := 10080
  bump : BumpPolicy := ⟨0, 10240, 1.5, 2⟩
  /-- The run's stamp, when it is given. -/
  timestamp : Option String := none
  deriving Repr

inductive SettingsFault
  | dumpCycle
  | runsPerCycle
  | runTapes
  | tapeLength
  | reserve
  | estimateTimeout
  | port
  | bumpPercent
  | bumpMult
  | bumpDays
  deriving DecidableEq, Repr

def SettingsFault.message : SettingsFault → String
  | .dumpCycle => "dumpcycle must be >= 1"
  | .runsPerCycle => "runspercycle must be >= -1"
  | .runTapes => "runtapes must be >= 1"
  | .tapeLength => "tape length must be > 0"
  | .reserve => "reserve must be between 0 and 100"
  | .estimateTimeout => "etimeout must not be 0"
  | .port => "estimate port must be > 0"
  | .bumpPercent => "bumppercent must be between 0 and 100"
  | .bumpMult => "bumpmult must be >= 1.0"
  | .bumpDays => "bumpdays must be >= 1"

namespace Settings

/-- Every rule with the condition that it asks for. -/
def rules (s : Settings) : List (Bool × SettingsFault) :=
  [(1 ≤ s.dumpCycle, .dumpCycle),
   (-1 ≤ s.runsPerCycle, .runsPerCycle),
   (1 ≤ s.runTapes, .runTapes),
   (0 < s.tapeLength, .tapeLength),
   (s.reserve ≤ 100, .reserve),
   (s.estimateTimeout ≠ 0, .estimateTimeout),
   (0 < s.port, .port),
   (s.bump.percent ≤ 100, .bumpPercent),
   (1.0 ≤ s.bump.mult, .bumpMult),
   (1 ≤ s.bump.days, .bumpDays)]

def fault? (s : Settings) : Option SettingsFault :=
  (s.rules.find? (!·.1)).map (·.2)

/-- The greatest 64-bit word, where products of settings stop growing. -/
def wordLimit : Nat := 18446744073709551615

/-- Seconds that a host has to give its sizes when it is asked for `count` of them. -/
def sizesTimeout (s : Settings) (count : Nat) : Nat :=
  if s.estimateTimeout < 0 then s.estimateTimeout.natAbs
  else min (s.estimateTimeout.natAbs * count) wordLimit

end Settings

end NightlyBackup
