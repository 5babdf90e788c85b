/-!
Packets that hosts send, and what can go wrong with the connection to a host.
-/

namespace NightlyBackup

inductive PacketKind
  /-- The final reply. -/
  | rep
  /-- A part of the reply; more follows. -/
  | prep
  /-- The request is refused. -/
  | nak
  deriving DecidableEq, Repr, Inhabited

namespace PacketKind

def name : PacketKind → String
  | .rep => "REP"
  | .prep => "PREP"
  | .nak => "NAK"

def ofName? : String → Option PacketKind
  | "REP" => some .rep
  | "PREP" => some .prep
  | "NAK" => some .nak
  | _ => none

def isFinal : PacketKind → Bool
  | .prep => false
  | .rep | .nak => true

end PacketKind

structure Packet where
  kind : PacketKind
  body : String
  deriving DecidableEq, Repr

inductive TransportFault
  | connect (host text : String)
  | io (text : String)
  | timeout
  | closed
  | framing (text : String)
  deriving DecidableEq, Repr

def TransportFault.message : TransportFault → String
  | .connect host text => "cannot connect to " ++ host ++ ": " ++ text
  | .io text => text
  | .timeout => "timeout waiting for REP"
  | .closed => "connection closed before the final reply"
  | .framing text => "malformed packet: " ++ text

inductive Delivery
  | packet (p : Packet)
  | fault (f : TransportFault)
  /-- Nothing more is ever said. -/
  | silent
  /-- The run is called off, and nothing more is said. -/
  | cancel
  deriving DecidableEq, Repr

namespace Delivery

/-- The exchange ends with this. -/
def isLast : Delivery → Bool
  | .packet p => p.kind.isFinal
  | .fault _ | .silent | .cancel => true

/-- Deliveries up to the one that the exchange ends with. Where there is none, the
connection is closed at the end. -/
def untilLast : List Delivery → List Delivery
  | [] => [.fault .closed]
  | d :: rest => if d.isLast then [d] else d :: untilLast rest

end Delivery

end NightlyBackup
