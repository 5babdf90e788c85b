import Mathlib.Data.List.TakeWhile
import NightlyBackup.Exchange.Wire
import NightlyBackup.Proofs.Encoding
import NightlyBackup.Proofs.Printing

/-!
Packets are read from a connection as they were sent, whatever lines are in their bodies: no line
of a body is taken for its end, and the point that is put in front of a line is taken off again.
Whatever comes over a connection, it is read as parts of a reply and then one end.
-/

namespace NightlyBackup

namespace Text

variable {cs : List Char}

/-! ## Whole lines -/

/-- The text is empty or ends with a newline. -/
def Ended (cs : List Char) : Prop := ∀ c ∈ cs.getLast?, c = '\n'

/-- A line that is read as it is written: it holds no newline, and no carriage return before the
newline that ends it. -/
def Whole (cs : List Char) : Prop := (∀ c ∈ cs, c ≠ '\n') ∧ cs.getLast? ≠ some '\r'

instance (cs : List Char) : Decidable (Ended cs) :=
  Option.decidableForallMem cs.getLast?

instance (cs : List Char) : Decidable (Whole cs) :=
  @instDecidableAnd _ _ (List.decidableBAll _ cs) inferInstance

theorem ended_concat (cs : List Char) : Ended (cs ++ ['\n']) := by
  intro c hc
  rw [List.getLast?_concat] at hc
  exact (Option.some.inj hc).symm

theorem Ended.of_cons {c : Char} (h : Ended (c :: cs)) : Ended cs := by
  cases cs with
  | nil =>
    rintro c hc
    cases hc
  | cons d cs => exact fun c hc => h c (by rwa [List.getLast?_cons_cons])

theorem Whole.lines_append (h : Whole cs) (ds : List Char) :
    lines (cs ++ '\n' :: ds) = cs :: lines ds := by
  induction cs with
  | nil => rfl
  | cons c cs ih =>
    obtain ⟨hnewline, hlast⟩ := h
    obtain ⟨hc, hcs⟩ := List.forall_mem_cons.mp hnewline
    cases cs with
    | nil =>
      have hreturn : c ≠ '\r' := fun e => hlast (by rw [e]; rfl)
      rw [List.singleton_append, lines_cons hc fun _ e _ => hreturn e]
      rfl
    | cons d cs =>
      have hnext : ∀ rest, d :: cs ++ '\n' :: ds = '\n' :: rest → False := fun _ e =>
        hcs d List.mem_cons_self (List.cons.inj e).1
      rw [List.cons_append, lines_cons hc fun rest _ => hnext rest,
        ih ⟨hcs, by simpa using hlast⟩]

theorem lines_flatMap {ls : List (List Char)} (h : ∀ line ∈ ls, Whole line) (ds : List Char) :
    lines (ls.flatMap (· ++ ['\n']) ++ ds) = ls ++ lines ds := by
  induction ls with
  | nil => rfl
  | cons line ls ih =>
    obtain ⟨hline, hls⟩ := List.forall_mem_cons.mp h
    rw [List.flatMap_cons, List.append_assoc, List.append_assoc, List.singleton_append,
      hline.lines_append, ih hls, List.cons_append]

/-- Lines hold nothing but what is in the text. -/
theorem flatten_lines_sublist (cs : List Char) : (lines cs).flatten.Sublist cs := by
  fun_induction lines cs with
  | case1 => exact List.Sublist.slnil
  | case2 cs ih => exact ih.cons '\n'
  | case3 cs ih => exact (ih.cons '\n').cons '\r'
  | case4 c cs => exact (List.nil_sublist cs).cons_cons c
  | case5 c cs _ _ line more hlines ih =>
    rw [hlines] at ih
    exact ih.cons_cons c

end Text

open Text

namespace Wire

variable {b : Nat} {bs rest line : List Nat} {more : List (List Nat)} {cs : List Char}

/-! ## Lines of bytes -/

/-- A byte that ends no line begins one. -/
theorem byteLines_cons (hnewline : b ≠ 10) (hreturn : b = 13 → rest.head? ≠ some 10)
    (hrest : byteLines rest = line :: more) : byteLines (b :: rest) = (b :: line) :: more := by
  rw [byteLines.eq_4 b rest hnewline fun tail hb e => hreturn hb (by rw [e]; rfl), hrest]

theorem byteLines_append (hnewline : ∀ b ∈ bs, b ≠ 10)
    (hreturn : 13 ∈ bs → rest.head? ≠ some 10) (hrest : byteLines rest = line :: more) :
    byteLines (bs ++ rest) = (bs ++ line) :: more := by
  induction bs with
  | nil => exact hrest
  | cons b bs ih =>
    obtain ⟨hb, hbs⟩ := List.forall_mem_cons.mp hnewline
    have hnext : b = 13 → (bs ++ rest).head? ≠ some 10 := by
      rintro rfl
      cases bs with
      | nil => exact hreturn List.mem_cons_self
      | cons c bs => simpa using hbs c List.mem_cons_self
    exact byteLines_cons hb hnext (ih hbs fun h => hreturn (List.mem_cons_of_mem b h))

/-- The lines of a text that ends with a newline are seen in its bytes, whatever follows. -/
theorem byteLines_encodeChars (h : Ended cs) (rest : List Nat) :
    byteLines (encodeChars cs ++ rest) = (lines cs).map encodeChars ++ byteLines rest := by
  fun_induction lines cs with
  | case1 => rfl
  | case2 cs ih =>
    show [] :: byteLines (encodeChars cs ++ rest) = _
    rw [ih h.of_cons]
    rfl
  | case3 cs ih =>
    show [] :: byteLines (encodeChars cs ++ rest) = _
    rw [ih h.of_cons.of_cons]
    rfl
  | case4 c cs hnewline hreturn hlines ih =>
    obtain rfl := eq_nil_of_lines_eq_nil hlines
    exact absurd (h c rfl) hnewline
  | case5 c cs hnewline hreturn line more hlines ih =>
    have hrest := ih h.of_cons
    rw [hlines, List.map_cons, List.cons_append] at hrest
    have hbytes : ∀ b ∈ encodeChar c, b ≠ 10 := by
      rintro b hb rfl
      exact hnewline (eq_of_mem_encodeChar hb (by decide))
    have hnext : 13 ∈ encodeChar c → (encodeChars cs ++ rest).head? ≠ some 10 := by
      intro hb hhead
      have hc : c = '\r' := eq_of_mem_encodeChar hb (by decide)
      cases cs with
      | nil => cases hlines
      | cons d cs =>
        have hd : 10 ∈ encodeChar d := by
          obtain ⟨b, bytes, hbytes⟩ := List.exists_cons_of_ne_nil (encodeChar_ne_nil d)
          rw [encodeChars, List.flatMap_cons, hbytes] at hhead
          rw [hbytes, ← Option.some.inj hhead]
          exact List.mem_cons_self
        obtain rfl : d = '\n' := eq_of_mem_encodeChar hd (by decide)
        exact hreturn cs hc rfl
    rw [encodeChars, List.flatMap_cons, List.append_assoc]
    exact byteLines_append hbytes hnext hrest

/-! ## Lines of a body -/

def onWire (line : List Char) : List Char :=
  if line.head? = some '.' then '.' :: line else line

theorem unstuffLine_onWire (line : List Char) : unstuffLine (onWire line) = line := by
  unfold onWire
  split
  · rename_i hpoint
    obtain ⟨rest, rfl⟩ := List.head?_eq_some_iff.mp hpoint
    rfl
  · rename_i hpoint
    unfold unstuffLine
    split
    · exact absurd rfl hpoint
    · rfl

/-- No line of a body looks like its end. -/
theorem onWire_ne_end (line : List Char) : onWire line ≠ ['.'] := by
  unfold onWire
  split
  · rename_i hpoint
    rintro e
    obtain rfl : line = [] := (List.cons.inj e).2
    cases hpoint
  · rename_i hpoint
    rintro rfl
    exact hpoint rfl

theorem whole_onWire {line : List Char} (h : Whole line) : Whole (onWire line) := by
  unfold onWire
  split
  · rename_i hpoint
    obtain ⟨rest, rfl⟩ := List.head?_eq_some_iff.mp hpoint
    exact ⟨List.forall_mem_cons.mpr ⟨by decide, h.1⟩, by simpa using h.2⟩
  · exact h

theorem lines_stuffed {body : List (List Char)} (hbody : ∀ line ∈ body, Whole line) :
    lines (body.flatMap stuffLine ++ ['.', '\n']) = body.map onWire ++ [['.']] := by
  have hwire : ∀ line ∈ body.map onWire, Whole line := by
    intro line hline
    obtain ⟨plain, hplain, rfl⟩ := List.mem_map.mp hline
    exact whole_onWire (hbody plain hplain)
  have hstuffed : body.flatMap stuffLine = (body.map onWire).flatMap (· ++ ['\n']) := by
    rw [List.flatMap_map]
    rfl
  rw [hstuffed, lines_flatMap hwire]
  rfl

/-! ## Reading -/

/-- Blank lines between packets do not count. -/
theorem readLines_gap {gap : List (List Char)} (hgap : ∀ line ∈ gap, ∀ c ∈ line, isBlank c)
    (more : List (List Nat)) :
    readLines none (gap.map encodeChars ++ more) = readLines none more := by
  induction gap with
  | nil => rfl
  | cons line gap ih =>
    obtain ⟨hline, hgap⟩ := List.forall_mem_cons.mp hgap
    have htrim : (trim line).isEmpty = true := by
      have hstart : trimStart line = [] := List.dropWhile_eq_nil_iff.mpr hline
      rw [trim, hstart]
      rfl
    rw [List.map_cons, List.cons_append, readLines.eq_4 _ _ _ (decodeUtf8_encodeChars line),
      if_pos htrim, ih hgap]

/-- The line in front of a body tells the kind of the packet. -/
theorem readLines_kind (kind : PacketKind) (more : List (List Nat)) :
    readLines none (encodeChars kind.name.toList :: more) =
      readLines (some { kind := kind }) more := by
  rw [readLines.eq_4 _ _ _ (decodeUtf8_encodeChars kind.name.toList)]
  cases kind <;> rfl

/-- Inside of a body, a point alone ends it, and any other line belongs to it. -/
theorem readLines_line (u : Unfinished) (line : List Char) (more : List (List Nat)) :
    readLines (some u) (encodeChars line :: more) =
      if line = ['.'] then
        if u.kind.isFinal then [.packet u.packet] else .packet u.packet :: readLines none more
      else readLines (some { u with body := unstuffLine line :: u.body }) more :=
  readLines.eq_3 _ _ _ _ (decodeUtf8_encodeChars line)

/-- The body is read up to its end. -/
theorem readLines_body (u : Unfinished) (body : List (List Char)) (more : List (List Nat)) :
    readLines (some u) ((body.map onWire ++ [['.']]).map encodeChars ++ more) =
      if u.kind.isFinal then [.packet { u with body := body.reverse ++ u.body }.packet]
      else .packet { u with body := body.reverse ++ u.body }.packet :: readLines none more := by
  induction body generalizing u with
  | nil => exact readLines_line u ['.'] more
  | cons line body ih =>
    rw [List.map_cons, List.cons_append, List.map_cons, List.cons_append, readLines_line,
      if_neg (onWire_ne_end line), unstuffLine_onWire, ih]
    simp only [List.reverse_cons, List.append_assoc, List.singleton_append]

/-! ## Packets on a connection -/

/-- What is sent for one packet: blank lines in front of it, and a body that is made up of lines,
none of which ends with a carriage return. -/
structure Sending where
  gap : String
  packet : Packet
  body : List String
  blank : ∀ c ∈ gap.toList, isBlank c
  ended : Ended gap.toList
  lined : packet.body = writtenText body
  whole : ∀ line ∈ body, Whole line.toList

def Sending.text (s : Sending) : String := s.gap ++ writePacket s.packet

/-- A packet is read as it was sent. -/
theorem Sending.read (s : Sending) (rest : List Nat) :
    read (encodeUtf8 s.text ++ rest) =
      if s.packet.kind.isFinal then [.packet s.packet]
      else .packet s.packet :: Wire.read rest := by
  have hbody : s.packet.body.toList = (s.body.map String.toList).flatMap (· ++ ['\n']) := by
    rw [s.lined, writtenText, String.toList_join, List.flatMap_map, List.flatMap_map]
    simp
  have hwhole : ∀ line ∈ s.body.map String.toList, Whole line := by
    intro line hline
    obtain ⟨l, hl, rfl⟩ := List.mem_map.mp hline
    exact s.whole l hl
  have hlines : lines s.packet.body.toList = s.body.map String.toList := by
    rw [hbody, ← List.append_nil (List.flatMap _ _), lines_flatMap hwhole, lines, List.append_nil]
  have hkind : Whole s.packet.kind.name.toList := by
    cases s.packet.kind <;> decide
  have hpacket : (writePacket s.packet).toList = s.packet.kind.name.toList ++
      '\n' :: ((s.body.map String.toList).flatMap stuffLine ++ ['.', '\n']) := by
    simp [writePacket, stuff, stuffChars, hlines]
  have hended : Ended (writePacket s.packet).toList := by
    have hlast := ended_concat (s.packet.kind.name.toList ++
      '\n' :: ((s.body.map String.toList).flatMap stuffLine ++ ['.']))
    rw [hpacket]
    simpa using hlast
  have hgap : ∀ line ∈ lines s.gap.toList, ∀ c ∈ line, isBlank c := fun line hline c hc =>
    s.blank c ((flatten_lines_sublist _).subset (List.mem_flatten.mpr ⟨line, hline, hc⟩))
  rw [Wire.read, encodeUtf8_eq, Sending.text, String.toList_append, encodeChars_append,
    List.append_assoc, byteLines_encodeChars s.ended, byteLines_encodeChars hended,
    readLines_gap hgap, hpacket, hkind.lines_append, lines_stuffed hwhole, List.map_cons,
    List.cons_append, readLines_kind, readLines_body]
  have hread : ({ kind := s.packet.kind, body := (s.body.map String.toList).reverse ++ [] } :
      Unfinished).packet = s.packet := by
    simp [Unfinished.packet, ← hbody]
  rw [hread]
  rfl

/-! ## Everything that is read -/

inductive Ends : List Delivery → Prop
  | final {p : Packet} (h : p.kind = .rep ∨ p.kind = .nak) : Ends [.packet p]
  | fault (f : TransportFault) : Ends [.fault f]
  | part {p : Packet} {deliveries : List Delivery} (h : p.kind = .prep) (rest : Ends deliveries) :
    Ends (.packet p :: deliveries)

theorem isFinal_iff {kind : PacketKind} : kind.isFinal = true ↔ kind = .rep ∨ kind = .nak := by
  cases kind <;> simp [PacketKind.isFinal]

theorem isFinal_eq_false_iff {kind : PacketKind} : ¬kind.isFinal = true ↔ kind = .prep := by
  cases kind <;> simp [PacketKind.isFinal]

theorem readLines_ends (current : Option Unfinished) (ls : List (List Nat)) :
    Ends (readLines current ls) := by
  fun_induction readLines current ls with
  | case1 => exact .fault .closed
  | case2 => exact .fault _
  | case3 _ _ u hfinal => exact .final (isFinal_iff.mp hfinal)
  | case4 _ _ u hpart _ ih => exact .part (isFinal_eq_false_iff.mp hpart) ih
  | case5 => assumption
  | case6 => assumption
  | case7 => assumption
  | case8 => exact .fault _

theorem Ends.exists_parts {deliveries : List Delivery} (h : Ends deliveries) :
    ∃ (parts : List Packet) (last : Delivery), deliveries = parts.map .packet ++ [last] ∧
      (∀ p ∈ parts, p.kind = .prep) ∧
      ((∃ p, last = .packet p ∧ (p.kind = .rep ∨ p.kind = .nak)) ∨ ∃ f, last = .fault f) := by
  induction h with
  | @final p h => exact ⟨[], .packet p, rfl, by simp, .inl ⟨p, rfl, h⟩⟩
  | fault f => exact ⟨[], .fault f, rfl, by simp, .inr ⟨f, rfl⟩⟩
  | @part p _ h _ ih =>
    obtain ⟨parts, last, rfl, hparts, hlast⟩ := ih
    exact ⟨p :: parts, last, rfl, List.forall_mem_cons.mpr ⟨h, hparts⟩, hlast⟩

/-- An exchange hears all of it. -/
theorem Ends.untilLast {deliveries : List Delivery} (h : Ends deliveries) :
    Delivery.untilLast deliveries = deliveries := by
  induction h with
  | final h => exact if_pos (isFinal_iff.mpr h)
  | fault f => rfl
  | part h _ ih => exact (if_neg (isFinal_eq_false_iff.mpr h)).trans (congrArg _ ih)

/-- **Packets keep their frames.** What is sent for parts of a reply and a final packet is read as
these packets, with blank lines between them or not and whatever follows. Whatever comes over a
connection is read as parts of a reply and then one end, a final packet or a fault, and an exchange
hears all of it. -/
theorem packets_keep_frames :
    (∀ (parts : List Sending) (last : Sending) (rest : List Nat),
      (∀ s ∈ parts, s.packet.kind = .prep) →
      (last.packet.kind = .rep ∨ last.packet.kind = .nak) →
      read (encodeUtf8 (String.join ((parts ++ [last]).map Sending.text)) ++ rest) =
        (parts ++ [last]).map fun s => .packet s.packet) ∧
    ∀ bytes, Delivery.untilLast (read bytes) = read bytes ∧
      ∃ (parts : List Packet) (last : Delivery), read bytes = parts.map .packet ++ [last] ∧
        (∀ p ∈ parts, p.kind = .prep) ∧
        ((∃ p, last = .packet p ∧ (p.kind = .rep ∨ p.kind = .nak)) ∨ ∃ f, last = .fault f) := by
  constructor
  · intro parts last rest hparts hlast
    rw [encodeUtf8_eq, String.toList_join]
    induction parts with
    | nil =>
      have hread := last.read rest
      rw [if_pos (isFinal_iff.mpr hlast), encodeUtf8_eq] at hread
      simpa using hread
    | cons part parts ih =>
      obtain ⟨hpart, hparts⟩ := List.forall_mem_cons.mp hparts
      have hread := part.read (encodeChars (((parts ++ [last]).map Sending.text).flatMap
        String.toList) ++ rest)
      rw [if_neg (isFinal_eq_false_iff.mpr hpart), encodeUtf8_eq, ih hparts] at hread
      rw [List.cons_append, List.map_cons, List.flatMap_cons, encodeChars_append,
        List.append_assoc]
      exact hread
  · intro bytes
    have hends : Ends (read bytes) := readLines_ends none (byteLines bytes)
    exact ⟨hends.untilLast, hends.exists_parts⟩

def pointed : Sending where
  gap := ""
  packet := ⟨.prep, ".\n..\n\n.hidden\n"⟩
  body := [".", "..", "", ".hidden"]
  blank := List.all_eq_true.mp rfl
  ended := by decide
  lined := by decide
  whole := by decide

def sized : Sending where
  gap := " \r\n\n"
  packet := ⟨.rep, "/home 0 SIZE 10\n"⟩
  body := ["/home 0 SIZE 10"]
  blank := List.all_eq_true.mp rfl
  ended := by decide
  lined := by decide
  whole := by decide

/-- The bytes that follow here are not even those of a text. -/
theorem packets_keep_frames_of_points : pointed.packet.kind = .prep ∧ sized.packet.kind = .rep ∧
    read (encodeUtf8 (String.join ([pointed, sized].map Sending.text)) ++ [0xff, 10]) =
      [.packet pointed.packet, .packet sized.packet] :=
  ⟨rfl, rfl, packets_keep_frames.1 [pointed] sized [0xff, 10] (by simp [pointed]) (.inl rfl)⟩

end Wire

end NightlyBackup
