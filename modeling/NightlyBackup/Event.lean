/-!
What a run tells the operator while it plans.
-/

namespace NightlyBackup

inductive Event
  /-- A disk has no history yet. -/
  | diskAdded (host disk : String)
  /-- A directive changed the plan. -/
  | directiveApplied (host disk message : String)
  /-- The tape with the last dump at a level is about to be written again. -/
  | overwriteWarning (host disk : String) (level : Nat) (label : String) (runs : Int)
  /-- An incremental moved up a level. -/
  | bumped (host disk : String) (level : Nat)
  /-- A disk is not dumped because it failed. -/
  | estimateFailed (host disk : String) (level : Nat) (reason : String)
  /-- A dump was downgraded or dropped so that the run fits. -/
  | delayed (host disk : String) (level : Nat) (deleted : Bool) (reason : String)
  /-- A disk is left out on purpose. -/
  | skipped (host disk : String) (level : Nat) (reason : String)
  /-- A full dump was pulled into tonight. -/
  | promoted (host disk : String) (daysAhead : Int) (special : Bool)
  | warning (message : String)
  /-- The schedule is written. -/
  | runFinished (scheduled failed skipped totalSize : Nat)
  deriving DecidableEq, Repr

def Event.kind : Event → String
  | .diskAdded .. => "disk_added"
  | .directiveApplied .. => "directive_applied"
  | .overwriteWarning .. => "overwrite_warning"
  | .bumped .. => "bumped"
  | .estimateFailed .. => "estimate_failed"
  | .delayed .. => "delayed"
  | .skipped .. => "skipped"
  | .promoted .. => "promoted"
  | .warning .. => "warning"
  | .runFinished .. => "run_finished"

end NightlyBackup
