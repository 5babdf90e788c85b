import NightlyBackup.Exchange.Packet
import NightlyBackup.Exchange.Reply
import NightlyBackup.History.Expected
import NightlyBackup.Night.Moves

/-!
The conversation with a host. A host is asked twice at most: first what it can do, then for
the sizes of its disks. The conversation moves the records of the host from the start queue
over the waiting queues to the estimated and the failed queue; whatever a host says or
fails to say, it is about its own disks alone.
-/

namespace NightlyBackup

inductive RequestKind
  /-- What can the host do? -/
  | probe
  /-- How big are its disks? -/
  | sizes
  deriving DecidableEq, Repr

structure HostRequest where
  host : Nat
  hostName : String
  kind : RequestKind
  body : String
  /-- Seconds that the host has to answer. -/
  timeout : Nat
  deriving DecidableEq, Repr

namespace DiskPlan

def fillExpected (p : DiskPlan) (tapeLength : Nat) : DiskPlan :=
  { p with levels := p.levels.map fun e =>
      let expected := (p.history.getD {}).expectedSize e.level p.lastLevel tapeLength
      e.setSize (.sized expected.size) expected.guessed }

def expectedOverflow? (p : DiskPlan) : Option Overflow :=
  p.levels.findSome? fun e => (p.history.getD {}).expectedOverflow? e.level p.lastLevel

def programOptions (d : Disk) : String :=
  let compress := match d.compress with
    | .client => "compress-fast;"
    | .server => "srvcomp-fast;"
    | .neither => ""
  let encrypt := match d.encrypt with
    | .client => "encrypt-cust;"
    | .server => "srvencrypt;"
    | .neither => ""
  ";" ++ compress ++ encrypt

/-- Programs whose estimates can be asked for line by line. -/
def hasEstimateLines (program : String) : Bool := program = "DUMP" || program = "GNUTAR"

/-- The source that is used with a host: one that the host lacks is replaced. -/
def usedSource (source : SizeSource) (features : FeatureSet) : SizeSource :=
  if source = .calcsize ∧ features.has .calcsize = false then .client else source

def requestLine (d : Disk) (source : SizeSource) (features : FeatureSet) (e : LevelEstimate) :
    String :=
  (if source = .calcsize then "CALCSIZE " else "")
    ++ Text.joinWith " "
      [d.program, Text.quote d.name, Text.quote (d.device.getD d.name), toString e.level,
        e.watermark, toString d.spindle]
    ++ (if features.has .requestOptions then " OPTIONS |" ++ programOptions d else "")
    ++ "\n"

def requestLines (p : DiskPlan) (features : FeatureSet) : List String :=
  match p.disk.clientSource with
  | none => []
  | some source =>
    if hasEstimateLines p.disk.program then
      p.levels.map (requestLine p.disk (usedSource source features) features)
    else []

/-- Enter what a line of a reply says about a disk. -/
def takeSize (p : DiskPlan) (level size : Int) : DiskPlan :=
  if 0 ≤ level then
    match p.slot? level.toNat with
    | some slot =>
      if size = -2 then p.setSize slot .removed false
      else if 0 ≤ size then p.setSize slot (.sized size.toNat) false
      else p
    | none => p
  else p

/-- A line about a level that was not asked for is not acceptable, except that hosts report
some errors at level 0 whatever was asked. -/
def acceptsLevel (p : DiskPlan) (level : Int) : Bool :=
  level ≤ 0 || (p.slot? level.toNat).isSome

end DiskPlan

namespace Planning

/-! ## Disks that need no host -/

/-- A disk on the start queue whose sizes may come from its history, and have not yet. -/
def awaitsExpected (n : Night) (id : Nat) : Bool :=
  let p := n.plan id
  n.queues.queueOf id = some .start && p.progress = .ready && p.disk.serverSized
    && p.levels.all (·.size = .pending)

/-- Work out the sizes of a disk from its history. A disk that needs no answer from its
host is done with that. -/
def expectSizes (id : Nat) : Planning Unit := do
  let n ← get
  if awaitsExpected n id then
    setPlan id (·.fillExpected n.media.capacity)
    reckon (n.plan id).expectedOverflow?
    if (n.plan id).disk.clientSource.isNone then
      setPlan id fun p => { p with progress := .done }
      moveTo id .start .estimated

/-! ## Requests -/

def probe (n : Night) (h : Nat) : HostRequest where
  host := h
  hostName := (n.host h).name
  kind := .probe
  body := "SERVICE noop\nOPTIONS features=" ++ FeatureSet.ours.toHex ++ ";\n"
  timeout := n.settings.probeTimeout

/-- The head of a request for sizes: the options that the host understands. -/
def requestHead (n : Night) (h : Nat) (features : FeatureSet) : String :=
  "SERVICE sendsize\nOPTIONS "
    ++ (if features.has .featuresOption then "features=" ++ FeatureSet.ours.toHex ++ ";" else "")
    ++ (if features.has .maxDumpsOption then
        "maxdumps=" ++ toString (n.host h).maxDumps ++ ";" else "")
    ++ (if features.has .hostnameOption then "hostname=" ++ (n.host h).name ++ ";" else "")
    ++ (if features.has .configOption then "config=" ++ n.settings.name ++ ";" else "")
    ++ "\n"

def isStartable (n : Night) (id : Nat) : Bool :=
  n.queues.queueOf id = some .start && (n.plan id).progress = .ready

def announceSource (id : Nat) (features : FeatureSet) : Planning Unit := do
  let n ← get
  let d := (n.plan id).disk
  if DiskPlan.hasEstimateLines d.program ∧ d.clientSource = some .calcsize
      ∧ features.has .calcsize = false then
    warn (n.hostName id ++ ":" ++ Text.quote d.name
      ++ " does not support CALCSIZE for estimate, using CLIENT.")

def cannotAsk (p : DiskPlan) : String :=
  match p.fault with
  | some fault => fault
  | none =>
    if p.disk.clientSource.isSome ∧ DiskPlan.hasEstimateLines p.disk.program = false then
      "does not support application-api"
    else "Can't request estimate"

def noteUnasked (p : DiskPlan) : DiskPlan :=
  if p.disk.clientSource.isSome ∧ DiskPlan.hasEstimateLines p.disk.program = false then
    { p with fault := some (p.fault.getD "does not support application-api") }
  else p

/-- Ask for the sizes of one disk, if it is still to be asked about. The result holds the
lines of the request. -/
def askDisk (features : FeatureSet) (id : Nat) : Planning (List String) := do
  if !isStartable (← get) id then return []
  setPlan id fun p => { p with answers := 0 }
  announceSource id features
  let p ← getPlan id
  let lines := p.requestLines features
  if lines.isEmpty then
    if p.disk.serverSized then
      setPlan id fun p => { noteUnasked p with progress := .done }
      moveTo id .start .estimated
    else
      setPlan id fun p => { p with fault := none, progress := .done }
      failFrom id .start (cannotAsk p)
  else if p.disk.serverSized then
    moveTo id .start .partialEstimate
    setPlan id fun p => { p with progress := .partlyDone }
  else setPlan id fun p => { p with progress := .active }
  pure lines

def awaitAnswer (id : Nat) : Planning Unit := do
  let n ← get
  if (n.plan id).progress = .active ∧ n.queues.queueOf id = some .start then
    setPlan id fun p => { p with fault := none }
    moveTo id .start .waiting

def requestSizes (h : Nat) (features : FeatureSet) : Planning (Option HostRequest) := do
  let n ← get
  let host := n.host h
  let lines := (← host.disks.mapM (askDisk features)).flatten
  if lines.isEmpty then
    setHost h fun host => { host with state := .done }
    pure none
  else
    host.disks.forM awaitAnswer
    setHost h fun host => { host with state := .active }
    pure <| some
      { host := h
        hostName := host.name
        kind := .sizes
        body := requestHead n h features ++ String.join lines
        timeout := n.settings.sizesTimeout lines.length }

/-- The next request to a host that is ready for one. A host that there is nothing to ask
is done. -/
def request (h : Nat) : Planning (Option HostRequest) := do
  if ((← get).host h).state ≠ .ready then return none
  ((← get).host h).disks.forM expectSizes
  let n ← get
  if (n.host h).disks.all fun id => n.queues.queueOf id ≠ some .start then
    setHost h fun host => { host with state := .done }
    return none
  match (n.host h).features with
  | none =>
    setHost h fun host => { host with state := .active }
    pure (some (probe n h))
  | some features => requestSizes h features

/-! ## A host that fails -/

/-- Resolve one disk of a host that failed, if it is still open. A disk with a size is
estimated all the same. The result tells whether the disk was open. -/
def resolveFailed (words : String) (id : Nat) : Planning Bool := do
  match (← get).queues.queueOf id with
  | some source =>
    if source = .start ∨ source = .waiting ∨ source = .partialEstimate then
      setPlan id fun p => { p.expirePending with progress := .done }
      if (← getPlan id).hasPositiveSize then
        setPlan id fun p => { p with fault := some (p.fault.getD words) }
        moveTo id source .estimated
      else failFrom id source words
      pure true
    else pure false
  | none => pure false

def hostFailed (h : Nat) (words : String) : Planning Unit := do
  let wasOpen ← ((← get).host h).disks.mapM (resolveFailed words)
  if !wasOpen.any (·) then warn words
  setHost h fun host => { host with state := .done }

/-! ## Replies -/

/-- Enter a line about a disk. The result tells whether it is acceptable. -/
def takeDiskLine (h : Nat) (disk : String) (level : Int) (enter : DiskPlan → DiskPlan) :
    Planning Bool := do
  let n ← get
  match (n.host h).disks.find? (n.diskName · = disk) with
  | none => pure false
  | some id =>
    setPlan id enter
    if (n.plan id).acceptsLevel level then
      setPlan id fun p => { p with answers := p.answers + 1 }
      pure true
    else pure false

/-- What a line of a reply means for the whole host: the words with which the host fails,
if it does. -/
def takeLine (h : Nat) (kind : PacketKind) (line : ReplyLine) : Planning (Option String) := do
  let host := (← get).host h
  let accepted (ok : Bool) : Option String :=
    if ok then none else some ("badly formatted response from " ++ host.name)
  match line with
  | .options none => pure none
  | .options (some hex) =>
    match FeatureSet.ofHex? hex with
    | some features =>
      setHost h fun host => { host with features := some features }
      pure none
    | none => pure (some (host.name ++ ": bad features value: " ++ hex))
  | .hostMessage _ message =>
    if host.features.isNone ∧ kind = .nak ∧ isUnknownProbe message then pure none
    else if kind = .nak then pure (some (host.name ++ " NAK: " ++ message))
    else pure (some (host.name ++ ": " ++ message))
  | .size disk level size =>
    accepted <$> takeDiskLine h disk level (·.takeSize level size)
  | .diskMessage disk level message =>
    accepted <$> takeDiskLine h disk level fun p =>
      if kind = .rep then { p with fault := some (p.fault.getD message) } else p

/-- Take the lines of a reply in order, up to one with which the host fails. -/
def takeLines (h : Nat) (kind : PacketKind) : List ReplyLine → Planning (Option String)
  | [] => pure none
  | line :: rest => do
    match ← takeLine h kind line with
    | some words => pure (some words)
    | none => takeLines h kind rest

def noSizeReason (hostName : String) (p : DiskPlan) : String :=
  match p.fault with
  | some fault => fault
  | none =>
    if p.answers > 0 then "disk " ++ Text.quote p.disk.name ++ ", all estimate failed"
    else "missing result for " ++ Text.quote p.disk.name ++ " in " ++ hostName ++ " response"

/-- Move on one disk that was asked about and is on the queue `source`. After a final packet
its host is done. -/
def settleFrom (h : Nat) (kind : PacketKind) (source : QueueName) (id : Nat) :
    Planning Unit := do
  let p ← getPlan id
  remove source id
  if kind = .prep then
    setPlan id fun p => { p with progress := .partlyDone }
    enqueue .partialEstimate id
  else
    setPlan id fun p => { p with progress := .done }
    setHost h fun host => { host with state := .done }
    if p.hasPositiveSize then enqueue .estimated id
    else
      let hostName := ((← get).host h).name
      setPlan id fun p => { p with fault := some (noSizeReason hostName p) }
      enqueue .failed id

def settleDisk (h : Nat) (kind : PacketKind) (id : Nat) : Planning Unit := do
  match (← getPlan id).progress with
  | .active => settleFrom h kind .waiting id
  | .partlyDone => settleFrom h kind .partialEstimate id
  | .ready | .done => pure ()

/-- The words with which a host fails because of a refusal alone. A host that is only too
old to be asked what it can do does not fail. -/
def refusalWords (hostName : String) (body : String) : Option String :=
  match readRefusal? body with
  | none => some (hostName ++ " NAK: [NAK parse failed]")
  | some message =>
    if isUnknownProbe message then none else some (hostName ++ " NAK: " ++ message)

def packetLines (hostName : String) (packet : Packet) : Except String (List ReplyLine) :=
  match (if packet.kind = .nak then refusalWords hostName packet.body else none) with
  | some words => .error words
  | none =>
    match readReply packet.body with
    | .error _ => .error ("badly formatted response from " ++ hostName)
    | .ok lines => .ok lines

def onReply (h : Nat) (packet : Packet) : Planning Unit := do
  setHost h fun host => { host with state := .ready }
  match packetLines ((← get).host h).name packet with
  | .error words => hostFailed h words
  | .ok lines =>
    match ← takeLines h packet.kind lines with
    | some words => hostFailed h words
    | none =>
      setHost h fun host => { host with features := some (host.features.getD {}) }
      ((← get).host h).disks.forM (settleDisk h packet.kind)

def transportWords (hostName : String) : TransportFault → String
  | .timeout =>
    "Some estimate timeout on " ++ hostName ++ ", using server estimate if possible"
  | fault => "Request to " ++ hostName ++ " failed: " ++ fault.message

def onTransportFault (h : Nat) (fault : TransportFault) : Planning Unit := do
  hostFailed h (transportWords ((← get).host h).name fault)

/-! ## The end of all conversations -/

def cancelAll : Planning Unit := do
  (List.range (← get).hosts.length).forM fun h => do
    if ((← get).host h).state ≠ .done then hostFailed h "estimate cancelled"

def strand (id : Nat) : Planning Unit := do
  remove .waiting id
  setPlan id fun p => { p with fault := some "disk was stranded on waitq" }
  enqueue .failed id

/-- A disk that was answered in part is estimated if it has a size, and fails otherwise. -/
def closePartial (id : Nat) : Planning Unit := do
  remove .partialEstimate id
  let p ← getPlan id
  let n ← get
  let name := Text.quote (n.diskName id)
  setPlan id (·.expirePending)
  p.pendingLevels.forM fun level =>
    warn ("disk " ++ n.hostName id ++ ":" ++ name ++ ", estimate of level " ++ toString level
      ++ " timed out.")
  if p.hasPositiveSize then enqueue .estimated id
  else
    setPlan id fun p => { p with fault := some ("disk " ++ name ++ ", all estimate timed out") }
    enqueue .failed id

def closeUnasked (id : Nat) : Planning Unit := do
  remove .start id
  setPlan id fun p => { p with fault := some "estimate was never requested" }
  enqueue .failed id

def finish : Planning Unit := do
  (← get).queues.waiting.forM strand
  (← get).queues.partialEstimate.forM closePartial
  (← get).queues.start.forM closeUnasked

end Planning

end NightlyBackup
