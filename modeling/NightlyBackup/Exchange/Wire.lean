import NightlyBackup.Exchange.Packet
import NightlyBackup.Text.Blank
import NightlyBackup.Text.Utf8

/-!
Packets on a connection. A request is its lines and a line with a single point. An answer
is a sequence of packets: a line with the kind, the lines of the body, and a line with a
single point. A line of a body that begins with a point is sent with one more point in
front. Blank lines between packets do not count.
-/

namespace NightlyBackup.Wire

open Text

/-! ## Writing -/

/-- One line of a body with its newline. -/
def stuffLine (line : List Char) : List Char :=
  (if line.head? = some '.' then '.' :: line else line) ++ ['\n']

def stuffChars (body : List Char) : List Char :=
  (lines body).flatMap stuffLine ++ ['.', '\n']

def stuff (body : String) : String := String.ofList (stuffChars body.toList)

def writePacket (p : Packet) : String := p.kind.name ++ "\n" ++ stuff p.body

/-! ## Reading -/

/-- The lines of a stream of bytes. One carriage return before a newline belongs to the
ending; the last line may lack its newline. -/
def byteLines : List Nat → List (List Nat)
  | [] => []
  | 10 :: rest => [] :: byteLines rest
  | 13 :: 10 :: rest => [] :: byteLines rest
  | b :: rest =>
    match byteLines rest with
    | [] => [[b]]
    | line :: more => (b :: line) :: more

def unstuffLine : List Char → List Char
  | '.' :: '.' :: rest => '.' :: rest
  | line => line

/-- A packet that is being read: its kind, and its body so far, newest line first. -/
structure Unfinished where
  kind : PacketKind
  body : List (List Char) := []
  deriving DecidableEq, Repr

def Unfinished.packet (o : Unfinished) : Packet :=
  ⟨o.kind, String.ofList (o.body.reverse.flatMap (· ++ ['\n']))⟩

/-- What the lines of a connection bring. Reading ends with a final packet or a fault. -/
def readLines (current : Option Unfinished) : List (List Nat) → List Delivery
  | [] => [.fault .closed]
  | bytes :: rest =>
    match decodeUtf8 bytes, current with
    | .error fault, _ => [.fault (.io fault.message)]
    | .ok line, some packet =>
      if line = ['.'] then
        if packet.kind.isFinal then [.packet packet.packet]
        else .packet packet.packet :: readLines none rest
      else readLines (some { packet with body := unstuffLine line :: packet.body }) rest
    | .ok line, none =>
      let header := trim line
      if header.isEmpty then readLines none rest
      else match PacketKind.ofName? (String.ofList header) with
      | some kind => readLines (some { kind := kind }) rest
      | none => [.fault (.framing ("invalid packet kind: " ++ String.ofList header))]

/-- What a peer that answers with these bytes and closes the connection brings. -/
def read (bytes : List Nat) : List Delivery := readLines none (byteLines bytes)

def readText (text : String) : List Delivery := read (encodeUtf8 text)

end NightlyBackup.Wire
