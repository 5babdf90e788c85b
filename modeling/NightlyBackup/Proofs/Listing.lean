import Mathlib.Data.List.Forall2
import NightlyBackup.Disk.Listing
import NightlyBackup.Proofs.Framing
import NightlyBackup.Proofs.ReplyLines

/-!
The disk list is read line by line. What a line gives does not depend on the lines around it, but
for the rule that no disk is listed twice; so the list is accepted if each of its lines is, and a
fault is on the first line that is rejected on its own or lists a disk again. A disk has the dump
cycle and the bump policy of the settings, except where the options of its line say otherwise.
-/

namespace NightlyBackup.Disk

open Text

variable {α β ε : Type} {s : Settings} {d d' e : Disk} {disks before : List Disk}
  {host name key : String} {value : Option (List Char)} {text line : List Char}
  {options ls : List (List Char)} {number : Nat} {cause : LineFault} {fault : ListFault}

/-! ## What an option does -/

theorem bind_pure_eq_ok {x : Except ε α} {f : α → β} {b : β} :
    (x >>= fun a => pure (f a)) = .ok b ↔ ∃ a, x = .ok a ∧ f a = b := by
  cases x with
  | error fault => exact ⟨nofun, fun ⟨_, h, _⟩ => nomatch h⟩
  | ok a =>
    refine ⟨fun h => ⟨a, rfl, Except.ok.inj h⟩, ?_⟩
    rintro ⟨_, ⟨⟩, rfl⟩
    rfl

theorem required_bind_eq_ok {read : List Char → Except OptionFault α} {a : α} :
    (required key value >>= read) = .ok a ↔ ∃ text, value = some text ∧ read text = .ok a := by
  cases value with
  | none => exact ⟨nofun, fun ⟨_, h, _⟩ => nomatch h⟩
  | some text =>
    refine ⟨fun h => ⟨text, rfl, h⟩, ?_⟩
    rintro ⟨_, ⟨⟩, h⟩
    exact h

/-- What is inherited gives way to what is given instead. -/
inductive Replaced (read : List Char → Except OptionFault α) : Option (List Char) → α → α → Prop
  | given {text : List Char} {old new : α} (h : read text = .ok new) :
    Replaced read (some text) old new
  | inherited {old : α} : Replaced read none old old

/-- What is given for a key replaces what a disk has inherited, and the disk keeps its names. -/
structure Updated (given : String → Option (List Char)) (d d' : Disk) : Prop where
  host : d'.host = d.host
  name : d'.name = d.name
  dumpCycle : Replaced (nat 32) (given "dumpcycle") d.dumpCycle d'.dumpCycle
  percent : Replaced (nat 32) (given "bumppercent") d.bump.percent d'.bump.percent
  sizeKb : Replaced (nat 64) (given "bumpsize") d.bump.sizeKb d'.bump.sizeKb
  days : Replaced (nat 32) (given "bumpdays") d.bump.days d'.bump.days
  mult : Replaced decimal (given "bumpmult") d.bump.mult d'.bump.mult

theorem Replaced.trans {read : List Char → Except OptionFault α} {first second : Option (List Char)}
    {a b c : α} (h : Replaced read first a b) (h' : Replaced read second b c) :
    Replaced read (second.or first) a c := by
  cases h' with
  | given h' => exact .given h'
  | inherited => exact h

theorem Updated.refl (d : Disk) : Updated (fun _ => none) d d := by
  constructor <;> first | rfl | exact .inherited

theorem Updated.trans {first second : String → Option (List Char)} (h : Updated first d e)
    (h' : Updated second e d') : Updated (fun key => (second key).or (first key)) d d' where
  host := h'.host.trans h.host
  name := h'.name.trans h.name
  dumpCycle := h.dumpCycle.trans h'.dumpCycle
  percent := h.percent.trans h'.percent
  sizeKb := h.sizeKb.trans h'.sizeKb
  days := h.days.trans h'.days
  mult := h.mult.trans h'.mult

def given? (own : String) (option : String × Option (List Char)) : Option (List Char) :=
  if option.1 = own then option.2 else none

theorem replaced_own {read : List Char → Except OptionFault α} {old new : α}
    (h : read text = .ok new) : Replaced read (given? key (key, some text)) old new := by
  rw [given?, if_pos rfl]
  exact .given h

theorem replaced_other {read : List Char → Except OptionFault α} {own : String} {old : α}
    (h : key ≠ own) : Replaced read (given? own (key, value)) old old := by
  rw [given?, if_neg h]
  exact .inherited

/-- An option that is accepted changes at most one of the things that a disk inherits. -/
theorem updated_of_applyOption (h : d.applyOption key value = .ok d') :
    Updated (given? · (key, value)) d d' := by
  unfold applyOption at h
  split at h
  -- no such option
  case h_24 => cases h
  -- `estimate`, whose value is read in parts
  case h_18 =>
    obtain ⟨text, -, h⟩ := required_bind_eq_ok.mp h
    obtain ⟨_, -, rfl⟩ := bind_pure_eq_ok.mp h
    constructor <;> first | rfl | exact replaced_other (by decide)
  -- the options about what is inherited; no other one touches it
  case h_4 | h_9 | h_10 | h_11 | h_12 =>
    obtain ⟨_, hread, rfl⟩ := bind_pure_eq_ok.mp h
    obtain ⟨text, rfl, hread⟩ := required_bind_eq_ok.mp hread
    constructor <;> first | rfl | exact replaced_own hread | exact replaced_other (by decide)
  all_goals
    obtain ⟨_, -, rfl⟩ := bind_pure_eq_ok.mp h
    constructor <;> first | rfl | exact replaced_other (by decide)

/-! ## The options of a line -/

def optionParts (text : List Char) : String × Option (List Char) :=
  match splitFirst '=' text with
  | some (key, value) => (String.ofList key, some value)
  | none => (String.ofList text, none)

theorem applyOptions_cons (d : Disk) (text : List Char) (options : List (List Char)) :
    d.applyOptions (text :: options) =
      match d.applyOption (optionParts text).1 (optionParts text).2 with
      | .ok d => d.applyOptions options
      | .error fault => .error (.badOption (String.ofList text) fault) := by
  rw [applyOptions, optionParts]
  cases splitFirst '=' text <;> rfl

def lastGiven? (options : List (List Char)) (own : String) : Option (List Char) :=
  options.reverse.findSome? fun text => given? own (optionParts text)

theorem lastGiven?_cons (text : List Char) (options : List (List Char)) :
    lastGiven? (text :: options) =
      fun own => (lastGiven? options own).or (given? own (optionParts text)) := by
  funext own
  simp [lastGiven?, List.findSome?_append]

theorem updated_of_applyOptions (h : d.applyOptions options = .ok d') :
    Updated (lastGiven? options) d d' := by
  induction options generalizing d with
  | nil =>
    cases h
    exact .refl d'
  | cons text options ih =>
    rw [applyOptions_cons] at h
    split at h
    · rename_i e happlied
      rw [lastGiven?_cons]
      exact (updated_of_applyOption happlied).trans (ih h)
    · cases h

/-! ## A line on its own -/

/-- No line of a text holds a newline. -/
theorem forall_mem_lines_ne_newline (cs : List Char) : ∀ line ∈ lines cs, ∀ c ∈ line, c ≠ '\n' := by
  fun_induction lines cs with
  | case1 => simp
  | case2 cs ih | case3 cs ih => exact List.forall_mem_cons.mpr ⟨by simp, ih⟩
  | case4 c cs hnewline => simpa using hnewline
  | case5 c cs hnewline _ line more hlines ih =>
    rw [hlines] at ih
    obtain ⟨hline, hmore⟩ := List.forall_mem_cons.mp ih
    exact List.forall_mem_cons.mpr ⟨List.forall_mem_cons.mpr ⟨hnewline, hline⟩, hmore⟩

/-- What a line that lists a disk says: two names and then options. -/
theorem ofLine_eq_ok_iff : ofLine s line = .ok d ↔ ∃ host name options,
    tokens (trim line) = .ok (host :: name :: options) ∧
      (plain (String.ofList host) (String.ofList name) s.dumpCycle s.bump).applyOptions options =
        .ok d := by
  unfold ofLine
  split
  · simp [*]
  · simp [*]
  · rename_i few hfew htokens
    simp only [htokens, reduceCtorEq, Except.ok.injEq, false_iff, not_exists, not_and]
    rintro host name options rfl
    exact absurd rfl (hfew host name options)

/-- A list that is nothing but this line. -/
theorem readList_line (hunbroken : ∀ c ∈ line, c ≠ '\n') (hlisted : isIgnored line = false) :
    readList s (String.ofList line) = match ofLine s line with
      | .ok d => .ok [d]
      | .error cause => .error ⟨1, cause⟩ := by
  have hne : line ≠ [] := by
    rintro rfl
    cases hlisted
  rw [readList, String.toList_ofList, lines_unbroken hne hunbroken, readLines, hlisted]
  cases ofLine s line <;> rfl

/-- The line gives this disk when it is the whole list. -/
def Lists (s : Settings) (line : List Char) (d : Disk) : Prop :=
  readList s (String.ofList line) = .ok [d]

theorem lists_iff (hunbroken : ∀ c ∈ line, c ≠ '\n') (hlisted : isIgnored line = false) :
    Lists s line d ↔ ofLine s line = .ok d := by
  rw [Lists, readList_line hunbroken hlisted]
  cases ofLine s line <;> simp

/-! ## Every line of a list -/

def listing (ls : List (List Char)) : List (List Char) := ls.filter (!isIgnored ·)

theorem listing_cons_ignored (h : isIgnored line = true) : listing (line :: ls) = listing ls := by
  simp [listing, h]

theorem listing_cons_listed (h : isIgnored line = false) :
    listing (line :: ls) = line :: listing ls := by
  simp [listing, h]

/-- Neither disk is the other one once more. -/
def Apart (d e : Disk) : Prop := ¬(d.host = e.host ∧ d.name = e.name)

/-- Why a line cannot follow the lines that list `listed`: it is rejected when it is the whole
list, or it lists a disk again. -/
inductive Rejected (s : Settings) (listed : List Disk) (line : List Char) : LineFault → Prop
  | alone {cause : LineFault} (h : readList s (String.ofList line) = .error ⟨1, cause⟩) :
    Rejected s listed line cause
  | again {d e : Disk} (h : Lists s line d) (he : e ∈ listed) (hsame : ¬Apart e d) :
    Rejected s listed line (.duplicate d.host d.name)

theorem any_isAgain_iff : before.any (fun e => e.host = d.host ∧ e.name = d.name) = true ↔
    ∃ e ∈ before.reverse, ¬Apart e d := by
  simp [Apart]

/-- How it ends to read lines when the disks in `before` are read already, newest first. -/
inductive Outcome (s : Settings) (number : Nat) (before : List Disk) (ls : List (List Char)) :
    Except ListFault (List Disk) → Prop
  | listed (disks : List Disk) (lines : List.Forall₂ (Lists s) (listing ls) disks)
    (apart : (before.reverse ++ disks).Pairwise Apart) :
    Outcome s number before ls (.ok (before.reverse ++ disks))
  | stopped (first : List (List Char)) (line : List Char) (rest : List (List Char))
    (disks : List Disk) (fault : ListFault) (split : ls = first ++ line :: rest)
    (number_eq : fault.line = number + first.length)
    (lines : List.Forall₂ (Lists s) (listing first) disks)
    (apart : (before.reverse ++ disks).Pairwise Apart) (notIgnored : isIgnored line = false)
    (rejected : Rejected s (before.reverse ++ disks) line fault.cause) :
    Outcome s number before ls (.error fault)

namespace Outcome

variable {result : Except ListFault (List Disk)}

theorem ignored (h : isIgnored line = true) (ho : Outcome s (number + 1) before ls result) :
    Outcome s number before (line :: ls) result := by
  cases ho with
  | listed disks lines apart => exact .listed disks (by rwa [listing_cons_ignored h]) apart
  | stopped first last rest disks fault split number_eq lines apart notIgnored rejected =>
    refine .stopped (line :: first) last rest disks fault ?split ?number ?lines apart notIgnored
      rejected
    case split => rw [split, List.cons_append]
    case number => rw [number_eq, List.length_cons, Nat.add_assoc, Nat.add_comm 1]
    case lines => rwa [listing_cons_ignored h]

theorem disk (h : isIgnored line = false) (hd : Lists s line d)
    (ho : Outcome s (number + 1) (d :: before) ls result) :
    Outcome s number before (line :: ls) result := by
  have hmove : ∀ disks, (d :: before).reverse ++ disks = before.reverse ++ d :: disks := by simp
  cases ho with
  | listed disks lines apart =>
    rw [hmove] at apart ⊢
    refine .listed (d :: disks) ?_ apart
    rw [listing_cons_listed h]
    exact .cons hd lines
  | stopped first last rest disks fault split number_eq lines apart notIgnored rejected =>
    rw [hmove] at apart rejected
    refine .stopped (line :: first) last rest (d :: disks) fault ?split ?number ?lines apart
      notIgnored rejected
    case split => rw [split, List.cons_append]
    case number => rw [number_eq, List.length_cons, Nat.add_assoc, Nat.add_comm 1]
    case lines =>
      rw [listing_cons_listed h]
      exact .cons hd lines

/-- The line at which reading stops is the first one. -/
theorem rejected (h : isIgnored line = false) (hbefore : before.reverse.Pairwise Apart)
    (hr : Rejected s before.reverse line cause) :
    Outcome s number before (line :: ls) (.error ⟨number, cause⟩) :=
  .stopped [] line ls [] ⟨number, cause⟩ rfl rfl .nil (by rwa [List.append_nil]) h
    (by rwa [List.append_nil])

end Outcome

theorem outcome_readLines (hls : ∀ line ∈ ls, ∀ c ∈ line, c ≠ '\n')
    (hbefore : before.reverse.Pairwise Apart) :
    Outcome s number before ls (readLines s number before ls) := by
  fun_induction readLines s number before ls with
  | case1 number before =>
    have hnothing : Outcome s number before [] (.ok (before.reverse ++ [])) :=
      .listed [] .nil (by simpa using hbefore)
    simpa using hnothing
  | case2 number before line ls hignored ih =>
    exact (ih (List.forall_mem_cons.mp hls).2 hbefore).ignored hignored
  | case3 number before line ls hlisted cause hcause =>
    have hlisted : isIgnored line = false := Bool.eq_false_iff.mpr hlisted
    refine .rejected hlisted hbefore (.alone ?_)
    rw [readList_line (List.forall_mem_cons.mp hls).1 hlisted, hcause]
  | case4 number before line ls hlisted d hd hagain =>
    have hlisted : isIgnored line = false := Bool.eq_false_iff.mpr hlisted
    obtain ⟨e, he, hsame⟩ := any_isAgain_iff.mp hagain
    exact .rejected hlisted hbefore
      (.again ((lists_iff (List.forall_mem_cons.mp hls).1 hlisted).mpr hd) he hsame)
  | case5 number before line ls hlisted d hd hnew ih =>
    have hlisted : isIgnored line = false := Bool.eq_false_iff.mpr hlisted
    obtain ⟨hline, hls⟩ := List.forall_mem_cons.mp hls
    refine .disk hlisted ((lists_iff hline hlisted).mpr hd) (ih hls ?_)
    rw [List.reverse_cons, List.pairwise_append]
    refine ⟨hbefore, List.pairwise_singleton .., fun e he f hf => ?_⟩
    rw [List.mem_singleton.mp hf]
    exact Classical.not_not.mp fun hsame => hnew (any_isAgain_iff.mpr ⟨e, he, hsame⟩)

/-- Lines that each list a disk are read if no disk is listed twice. -/
theorem readLines_of_listing (hls : ∀ line ∈ ls, ∀ c ∈ line, c ≠ '\n')
    (hlines : List.Forall₂ (Lists s) (listing ls) disks)
    (hapart : (before.reverse ++ disks).Pairwise Apart) :
    readLines s number before ls = .ok (before.reverse ++ disks) := by
  induction ls generalizing number before disks with
  | nil =>
    cases hlines
    rw [readLines, List.append_nil]
  | cons line ls ih =>
    obtain ⟨hline, hls⟩ := List.forall_mem_cons.mp hls
    cases hlisted : isIgnored line with
    | true =>
      rw [listing_cons_ignored hlisted] at hlines
      rw [readLines, if_pos hlisted, ih hls hlines hapart]
    | false =>
      rw [listing_cons_listed hlisted] at hlines
      obtain ⟨d, disks, hd, hrest, rfl⟩ := List.forall₂_cons_left_iff.mp hlines
      have hnew : ¬∃ e ∈ before.reverse, ¬Apart e d := by
        rintro ⟨e, he, hsame⟩
        exact hsame ((List.pairwise_append.mp hapart).2.2 e he d List.mem_cons_self)
      have hmove : before.reverse ++ d :: disks = (d :: before).reverse ++ disks := by simp
      rw [hmove] at hapart ⊢
      rw [readLines, hlisted, (lists_iff hline hlisted).mp hd]
      simp only [Bool.false_eq_true, if_false, any_isAgain_iff, hnew]
      exact ih hls hrest hapart

/-- **The disk list is read line by line.** A list is accepted exactly if each line that is neither
blank nor a comment is accepted when it is the whole list, and no two of them list the same disk;
then its disks are what these lines give one by one, in order. Each is the disk with the names on
its line and with the dump cycle and the bump policy of the settings, except for what the options of
its line give instead. Otherwise the fault counts the lines up to the first one that is rejected
when it is the whole list, or that lists a disk again. -/
theorem disk_list_read_by_lines (s : Settings) (text : String) :
    (∀ disks, readList s text = .ok disks ↔
      List.Forall₂ (Lists s) (listing (lines text.toList)) disks ∧ disks.Pairwise Apart) ∧
    (∀ line ∈ listing (lines text.toList), ∀ d, Lists s line d →
      ∃ host name options, tokens (trim line) = .ok (host :: name :: options) ∧
        Updated (lastGiven? options)
          (plain (String.ofList host) (String.ofList name) s.dumpCycle s.bump) d) ∧
    (∀ fault, readList s text = .error fault → ∃ first line rest disks,
      lines text.toList = first ++ line :: rest ∧ fault.line = first.length + 1 ∧
      List.Forall₂ (Lists s) (listing first) disks ∧ disks.Pairwise Apart ∧
      isIgnored line = false ∧ Rejected s disks line fault.cause) := by
  have hls := forall_mem_lines_ne_newline text.toList
  have houtcome : Outcome s 1 [] (lines text.toList) (readList s text) :=
    outcome_readLines hls .nil
  refine ⟨fun disks => ⟨fun h => ?accepted, fun ⟨hlines, hapart⟩ => ?listed⟩, ?alone, ?rejected⟩
  case accepted =>
    rw [h] at houtcome
    cases houtcome with
    | listed disks lines apart => exact ⟨lines, apart⟩
  case listed => exact readLines_of_listing hls hlines hapart
  case alone =>
    intro line hline d hd
    obtain ⟨hline, hlisted⟩ := List.mem_filter.mp hline
    have hlisted : isIgnored line = false := by simpa using hlisted
    obtain ⟨host, name, options, htokens, hoptions⟩ :=
      ofLine_eq_ok_iff.mp ((lists_iff (hls line hline) hlisted).mp hd)
    exact ⟨host, name, options, htokens, updated_of_applyOptions hoptions⟩
  case rejected =>
    intro fault h
    rw [h] at houtcome
    cases houtcome with
    | stopped first line rest disks _ split number_eq lines apart notIgnored rejected =>
      exact ⟨first, line, rest, disks, split, by omega, lines, apart, notIgnored, rejected⟩

/-- A list of two disks, between a comment and a blank line: the first has the dump cycle of the
settings, and the second one its own. -/
theorem disk_list_of_two_lines :
    let s : Settings := {}
    let home := plain "alpha" "/home" s.dumpCycle s.bump
    let srv := { plain "beta" "/srv" s.dumpCycle s.bump with dumpCycle := 3 }
    let text := "# daily\nalpha /home\n\nbeta /srv dumpcycle=3\n"
    readList s text = .ok [home, srv] ∧ srv.dumpCycle ≠ s.dumpCycle ∧
      Lists s "alpha /home".toList home ∧ Lists s "beta /srv dumpcycle=3".toList srv ∧
      Apart home srv := by
  intro s home srv text
  have hread : readList s text = .ok [home, srv] := by decide +kernel
  have hlisting : listing (lines text.toList) =
      ["alpha /home".toList, "beta /srv dumpcycle=3".toList] := by decide +kernel
  obtain ⟨hlines, hapart⟩ := ((disk_list_read_by_lines s text).1 _).mp hread
  rw [hlisting] at hlines
  obtain ⟨hhome, hrest⟩ := List.forall₂_cons.mp hlines
  exact ⟨hread, by decide, hhome, (List.forall₂_cons.mp hrest).1,
    List.rel_of_pairwise_cons hapart List.mem_cons_self⟩

end NightlyBackup.Disk
