/-!
Six queues of records. A record is a number; it has to be registered before it can be
queued, and it is on one queue at most. Every record has a link, which holds the queue that
it is on and its neighbours there, so that a record joins and leaves a queue at its own place
without a look at the rest of the queue. An operation that is refused changes nothing.
-/

namespace NightlyBackup

inductive QueueName
  | start
  | waiting
  | partialEstimate
  | estimated
  | failed
  | scheduled
  deriving DecidableEq, Repr

namespace QueueName

def all : List QueueName :=
  [.start, .waiting, .partialEstimate, .estimated, .failed, .scheduled]

def index : QueueName → Fin 6
  | .start => 0
  | .waiting => 1
  | .partialEstimate => 2
  | .estimated => 3
  | .failed => 4
  | .scheduled => 5

def text : QueueName → String
  | .start => "start"
  | .waiting => "waiting"
  | .partialEstimate => "partial-estimate"
  | .estimated => "estimated"
  | .failed => "failed"
  | .scheduled => "scheduled"

def ofText? : String → Option QueueName
  | "start" => some .start
  | "waiting" => some .waiting
  | "partial-estimate" => some .partialEstimate
  | "estimated" => some .estimated
  | "failed" => some .failed
  | "scheduled" => some .scheduled
  | _ => none

end QueueName

inductive QueueFault
  | alreadyQueued (record : Nat) (queue : QueueName)
  | notQueued (record : Nat) (queue : QueueName)
  | unknownRecord (record : Nat)
  deriving DecidableEq, Repr

def QueueFault.message : QueueFault → String
  | .alreadyQueued r q => "record " ++ toString r ++ " is already on the " ++ q.text ++ " queue"
  | .notQueued r q => "record " ++ toString r ++ " is not on the " ++ q.text ++ " queue"
  | .unknownRecord r => "unknown record " ++ toString r

/-- The queue that a record is on, and its neighbours on it. -/
structure Link where
  queue : Option QueueName := none
  prev : Option Nat := none
  next : Option Nat := none
  deriving DecidableEq, Repr, Inhabited

/-- The two ends of a queue and the number of its members. -/
structure Ends where
  head : Option Nat := none
  tail : Option Nat := none
  length : Nat := 0
  deriving DecidableEq, Repr, Inhabited

/-- A link for every record that is known, and the ends of the six queues. -/
structure Queues where
  links : List Link := []
  ends : Vector Ends 6 := Vector.replicate 6 {}
  deriving DecidableEq, Repr, Inhabited

namespace Queues

def registered (q : Queues) : Nat := q.links.length

/-- The link of a record; one that is not known stands alone. -/
def link (q : Queues) (id : Nat) : Link := q.links.getD id {}

def endsOf (q : Queues) (name : QueueName) : Ends := q.ends[name.index]

def queueOf (q : Queues) (id : Nat) : Option QueueName := (q.link id).queue

def next? (q : Queues) (id : Nat) : Option Nat := (q.link id).next

def prev? (q : Queues) (id : Nat) : Option Nat := (q.link id).prev

def head? (q : Queues) (name : QueueName) : Option Nat := (q.endsOf name).head

def tail? (q : Queues) (name : QueueName) : Option Nat := (q.endsOf name).tail

def length (q : Queues) (name : QueueName) : Nat := (q.endsOf name).length

/-- The records from `place` on towards the tail, `steps` of them at most. -/
def walk (q : Queues) : (steps : Nat) → (place : Option Nat) → List Nat
  | 0, _ | _, none => []
  | steps + 1, some id => id :: q.walk steps (q.next? id)

/-- The members of a queue from head to tail. A queue has no more members than there are
records. -/
def members (q : Queues) (name : QueueName) : List Nat := q.walk q.registered (q.head? name)

def start (q : Queues) : List Nat := q.members .start

def waiting (q : Queues) : List Nat := q.members .waiting

def partialEstimate (q : Queues) : List Nat := q.members .partialEstimate

def estimated (q : Queues) : List Nat := q.members .estimated

def failed (q : Queues) : List Nat := q.members .failed

def scheduled (q : Queues) : List Nat := q.members .scheduled

/-! ## Changing links and ends -/

def setLink (q : Queues) (id : Nat) (f : Link → Link) : Queues :=
  { q with links := q.links.modify id f }

def setEnds (q : Queues) (name : QueueName) (f : Ends → Ends) : Queues :=
  { q with ends := q.ends.set name.index (f (q.endsOf name)) }

/-- Let `next` follow the record `before`, or be the head of `name` if there is no record
before it. -/
def setNext (q : Queues) (name : QueueName) (before next : Option Nat) : Queues :=
  match before with
  | some before => q.setLink before fun l => { l with next := next }
  | none => q.setEnds name fun e => { e with head := next }

/-- Let `prev` stand in front of the record `behind`, or be the tail of `name` if there is no
record behind it. -/
def setPrev (q : Queues) (name : QueueName) (behind prev : Option Nat) : Queues :=
  match behind with
  | some behind => q.setLink behind fun l => { l with prev := prev }
  | none => q.setEnds name fun e => { e with tail := prev }

def join (q : Queues) (name : QueueName) (id : Nat) : Queues :=
  let tail := q.tail? name
  let q := q.setEnds name fun e =>
    { head := some (e.head.getD id), tail := some id, length := e.length + 1 }
  let q := match tail with
    | some last => q.setLink last fun l => { l with next := some id }
    | none => q
  q.setLink id fun _ => { queue := some name, prev := tail, next := none }

/-- The queues with a record in front of the member `other` of `name`. -/
def joinBefore (q : Queues) (name : QueueName) (id other : Nat) : Queues :=
  let prev := q.prev? other
  let q := q.setLink id fun _ => { queue := some name, prev := prev, next := some other }
  let q := (q.setPrev name (some other) (some id)).setNext name prev (some id)
  q.setEnds name fun e => { e with length := e.length + 1 }

/-- The queues with a record in front of the first member of `name` that it sorts ahead of,
or else at the tail. -/
def joinAhead (q : Queues) (name : QueueName) (ahead : Nat → Nat → Bool) (id : Nat) : Queues :=
  match (q.members name).find? (ahead id) with
  | some other => q.joinBefore name id other
  | none => q.join name id

/-- The queues without the member `id` of `name`. -/
def leave (q : Queues) (name : QueueName) (id : Nat) : Queues :=
  let link := q.link id
  let q := (q.setNext name link.prev link.next).setPrev name link.next link.prev
  let q := q.setEnds name fun e => { e with length := e.length - 1 }
  q.setLink id fun _ => {}

/-! ## Operations -/

def register (q : Queues) : Nat × Queues :=
  (q.registered, { q with links := q.links ++ [{}] })

/-- A record can be queued if it is known and on no queue. -/
def checkFree (q : Queues) (id : Nat) : Except QueueFault Unit :=
  if q.registered ≤ id then .error (.unknownRecord id)
  else match q.queueOf id with
  | some name => .error (.alreadyQueued id name)
  | none => .ok ()

def enqueue (q : Queues) (name : QueueName) (id : Nat) : Except QueueFault Queues := do
  q.checkFree id
  pure (q.join name id)

/-- Insert a record in front of the first member that it sorts ahead of. -/
def insertSorted (q : Queues) (name : QueueName) (ahead : Nat → Nat → Bool) (id : Nat) :
    Except QueueFault Queues := do
  q.checkFree id
  pure (q.joinAhead name ahead id)

def remove (q : Queues) (name : QueueName) (id : Nat) : Except QueueFault Queues :=
  if q.registered ≤ id then .error (.unknownRecord id)
  else if q.queueOf id = some name then .ok (q.leave name id)
  else .error (.notQueued id name)

def dequeue (q : Queues) (name : QueueName) : Option (Nat × Queues) := do
  let id ← q.head? name
  let q ← (q.remove name id).toOption
  pure (id, q)

def moveTo (q : Queues) (id : Nat) (source target : QueueName) : Except QueueFault Queues := do
  (← q.remove source id).enqueue target id

end Queues

end NightlyBackup
