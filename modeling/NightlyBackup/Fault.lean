import NightlyBackup.History.Store
import NightlyBackup.IntWord
import NightlyBackup.Queues

/-!
What can end a run. What goes wrong with one disk or one host is no fault of the run.
-/

namespace NightlyBackup

inductive Misfit
  | nothingFits
  | tooBig (total capacity : Nat)
  deriving DecidableEq, Repr

def Misfit.message : Misfit → String
  | .nothingFits => "no dump fits on tonight's media"
  | .tooBig total capacity =>
    "total size " ++ toString total ++ " KB exceeds tape length " ++ toString capacity ++ " KB"

inductive Fault
  | emptyDiskList
  | unfittable (cause : Misfit)
  | queue (fault : QueueFault)
  | wrongQueue (record : Nat) (expected : QueueName)
  | output (text : String)
  | history (fault : StoreFault)
  | overflow (what : Overflow)
  deriving DecidableEq, Repr

def Fault.message : Fault → String
  | .emptyDiskList => "empty disk list"
  | .unfittable cause => "cannot fit anything on tape: " ++ cause.message
  | .queue fault => "queue consistency violated: " ++ fault.message
  | .wrongQueue record expected =>
    "record " ++ toString record ++ " expected on " ++ expected.text ++ " queue"
  | .output text => "cannot write schedule: " ++ text
  | .history fault => "history store error: " ++ fault.message
  | .overflow what => what.message

end NightlyBackup
