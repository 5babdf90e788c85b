import NightlyBackup.Plan
import Std.Time.DateTime.Timestamp

/-!
The command line. The settings and the disk list are files; the environment may name them
in `DP_CONFIG_PATH` and `DP_DISKLIST_PATH`, and give the stamp of the run in
`DP_TIMESTAMP`. Every argument is a file with what the peer of one connection answers, in
the order in which the connections are made. No history is kept between runs, so that every
disk counts as new. The schedule goes to standard output, and everything else to standard
error.
-/

namespace NightlyBackup

def readFile? (path : String) : IO (Option String) := do
  try
    pure (some (← IO.FS.readFile path))
  catch _ => pure none

def currentMoment : IO Int := do
  pure (← Std.Time.Timestamp.now).toSecondsSinceUnixEpoch.val

def readWorld (arguments : List String) : IO World := do
  let defaults : Settings := {}
  let settingsPath := (← IO.getEnv "DP_CONFIG_PATH").getD defaults.settingsPath
  let settingsText ← readFile? settingsPath
  let around : Settings.Surroundings :=
    { historyPath := ← IO.getEnv "DP_DB_PATH"
      diskListPath := ← IO.getEnv "DP_DISKLIST_PATH"
      timestamp := ← IO.getEnv "DP_TIMESTAMP" }
  let diskListPath := match Settings.load settingsText around with
    | .ok s => s.diskListPath
    | .error _ => defaults.diskListPath
  pure
    { settingsText := settingsText
      diskListText := ← readFile? diskListPath
      surroundings := around
      peers := ← arguments.mapM fun path => do pure ((← readFile? path).getD "")
      today := ← currentMoment }

end NightlyBackup

def main (arguments : List String) : IO UInt32 := do
  let outcome := (← NightlyBackup.readWorld arguments).run
  IO.print (NightlyBackup.writtenText outcome.lines)
  match outcome.fault with
  | some fault => IO.eprintln fault.message
  | none => pure ()
  pure (UInt32.ofNat outcome.exitCode)
