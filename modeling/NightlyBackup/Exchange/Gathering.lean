import NightlyBackup.Exchange.Conversation
import NightlyBackup.Exchange.Wire

/-!
Gathering sizes from all hosts at once. Exchanges go on in rounds: in a round every
exchange that was started before it delivers what its host says, and a host that gave a
final answer may be sent its next request, which starts an exchange for the next round. A
host that falls silent is waited for until nothing else goes on; its time then runs out, in
the order of the deadlines.
-/

namespace NightlyBackup

/-- Hosts as seen from the planner: what the next request brings, and the hosts after it.
The state `σ` is what they still have to say. -/
structure Network (σ : Type) where
  answer : σ → HostRequest → List Delivery × σ

structure Silence where
  host : Nat
  /-- When its time runs out. -/
  deadline : Nat
  /-- The run was called off meanwhile. -/
  cancels : Bool
  deriving DecidableEq, Repr

/-- Take hosts' answers to several requests, in order. -/
def Network.answers {σ : Type} (net : Network σ) (s : σ) :
    List HostRequest → List (HostRequest × List Delivery) × σ
  | [] => ([], s)
  | r :: rest =>
    let (deliveries, s) := net.answer s r
    let (more, s) := net.answers s rest
    ((r, Delivery.untilLast deliveries) :: more, s)

def deliveriesOf (round : List (HostRequest × List Delivery)) : List (Nat × Delivery) :=
  round.flatMap fun (r, deliveries) => deliveries.map (r.host, ·)

def silence? (r : HostRequest) (deliveries : List Delivery) : Option Silence :=
  match deliveries.getLast? with
  | some .silent => some ⟨r.host, r.timeout, false⟩
  | some .cancel => some ⟨r.host, r.timeout, true⟩
  | _ => none

namespace Planning

/-- Take one delivery. A final packet may bring the next request to the host. -/
def takeDelivery (h : Nat) : Delivery → Planning (Option HostRequest)
  | .packet p => do
    onReply h p
    if p.kind.isFinal then request h else pure none
  | .fault f => do onTransportFault h f; pure none
  | .silent | .cancel => pure none

/-- Take deliveries of several hosts in order; the result holds the requests that follow. -/
def takeDeliveries : List (Nat × Delivery) → Planning (List HostRequest)
  | [] => pure []
  | (h, d) :: rest => do
    let next ← takeDelivery h d
    pure (next.toList ++ (← takeDeliveries rest))

def noteSent (requests : List HostRequest) : Planning Unit :=
  modify fun n => { n with sent := n.sent ++ requests.map fun r => (r.hostName, r.body) }

/-- Rounds from the given requests on, at most `rounds` of them; the result holds the hosts
that fell silent. -/
def exchange {σ : Type} (net : Network σ) :
    (rounds : Nat) → σ → List HostRequest → Planning (List Silence)
  | 0, _, _ | _, _, [] => pure []
  | rounds + 1, s, requests => do
    noteSent requests
    let (round, s) := net.answers s requests
    let silences := round.filterMap fun (r, deliveries) => silence? r deliveries
    let next ← takeDeliveries (deliveriesOf round)
    pure (silences ++ (← exchange net rounds s next))

def firstRequests : Planning (List HostRequest) := do
  pure ((← (List.range (← get).hosts.length).mapM request).filterMap (·))

/-- Deal with the hosts that fell silent: call off everything if the run was called off, or
else let their time run out. -/
def endSilences (silences : List Silence) : Planning Unit :=
  if silences.any (·.cancels) then cancelAll
  else
    (silences.mergeSort fun a b => a.deadline ≤ b.deadline).forM
      fun s => onTransportFault s.host .timeout

/-- Gather sizes from every host. A host is sent two requests at most, so that two rounds
for each host are more than enough. A run that is called off beforehand sends nothing. -/
def gather {σ : Type} (net : Network σ) (s : σ) (cancelled : Bool) : Planning Unit := do
  let requests ← firstRequests
  if cancelled then
    if !requests.isEmpty then cancelAll
  else
    let silences ← exchange net (2 * (← get).hosts.length + 1) s requests
    endSilences silences
  finish

end Planning

/-! ## Hosts with prepared answers -/

abbrev Scripts := List (String × List (List Delivery))

/-- The next answer of a host, and what is left; a host without one is silent. -/
def Scripts.next (host : String) : Scripts → List Delivery × Scripts
  | [] => ([.silent], [])
  | (name, answers) :: rest =>
    if name = host then
      match answers with
      | [] => ([.silent], (name, answers) :: rest)
      | first :: more => (first, (name, more) :: rest)
    else
      let (answer, rest) := Scripts.next host rest
      (answer, (name, answers) :: rest)

/-- Hosts that say what a script tells them to. -/
def Scripts.network : Network Scripts where
  answer := fun scripts r => scripts.next r.hostName

/-- Peers that answer one connection each, whatever host it is made to, with bytes on the
wire. When none is left, connecting fails. -/
def peerNetwork : Network (List String) where
  answer := fun peers r =>
    match peers with
    | [] => ([.fault (.connect r.hostName "no peer")], [])
    | text :: rest => (Wire.readText text, rest)

end NightlyBackup
