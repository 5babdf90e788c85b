import NightlyBackup.Proofs.Quoting
import NightlyBackup.Proofs.ReplyText

/-!
Lines about disks. Such a line gives the quoted name of a disk, a level, and a size or a quoted
message, and it is read back as it was written. So a host that answers with the words of the
request, a level and a size is understood, unless the bare name of the disk is one of the words that
begin a line of another kind.
-/

namespace NightlyBackup

open Text

namespace ReplyLine

variable {c : Char} {cs ds rest word : List Char} {disk : String} {level : Int} {result : Result}

/-! ## The parts of a line about a disk -/

theorem quotedTail_escapeChar (c : Char) (rest : List Char) :
    quotedTail (escapeChar c ++ rest) =
      (quotedTail rest).map fun (tail, rest) => (escapeChar c ++ tail, rest) := by
  rcases escapeChar_cases c with ⟨d, e, -⟩ | ⟨e, hslash, hquote, -⟩
  · rw [e]
    rfl
  · rw [e]
    exact quotedTail.eq_5 c rest hquote (fun _ _ h _ => hslash h) fun h _ => hslash h

/-- An escaped text is read up to the quote that follows it. -/
theorem quotedTail_escaped (cs rest : List Char) :
    quotedTail (cs.flatMap escapeChar ++ '"' :: rest) =
      some (cs.flatMap escapeChar ++ ['"'], rest) := by
  induction cs with
  | nil => rfl
  | cons c cs ih =>
    rw [List.flatMap_cons, List.append_assoc, quotedTail_escapeChar, ih, List.append_assoc]
    rfl

/-- A quoted name is told apart from what follows it. -/
theorem split?_quoteChars {parts : List Char × List Char × Result}
    (h : parts? (quoteChars cs, ' ' :: rest) = some parts) :
    split? (quoteChars cs ++ ' ' :: rest) = some parts := by
  unfold split?
  rcases quoteChars_cases cs with ⟨e, hne, hbare⟩ | e
  · obtain ⟨c, cs, rfl⟩ := List.exists_cons_of_ne_nil hne
    have hblank : ∀ d ∈ c :: cs, isBlank d = false := fun d hd =>
      (bare_of_needsQuotes (hbare d hd)).1
    obtain ⟨-, hquote, -⟩ := bare_of_needsQuotes (hbare c (List.mem_cons_self ..))
    have hquoted : quotedName (c :: cs ++ ' ' :: rest) = none :=
      quotedName.eq_2 _ (by simp [hquote])
    have hname : bareName (c :: cs ++ ' ' :: rest) = some (c :: cs, ' ' :: rest) := by
      rw [bareName, takeWhile_word hblank rfl, List.dropWhile_append_of_pos (by simpa using hblank)]
      rfl
    rw [e] at h ⊢
    rw [hquoted, hname]
    exact h
  · have hname : quotedName (quoteChars cs ++ ' ' :: rest) = some (quoteChars cs, ' ' :: rest) := by
      rw [e, List.cons_append, List.append_assoc, List.singleton_append, quotedName,
        quotedTail_escaped]
      rfl
    rw [hname]
    simp only [Option.bind_some, h]

/-- A run of digits is read to its end, and so is one behind a minus sign. -/
theorem numeral_digits (hne : ds ≠ []) (hdigits : ∀ c ∈ ds, c.isDigit = true)
    (hrest : ∀ c ∈ rest.head?, isDecimalDigit c = false) :
    numeral (ds ++ rest) = some (ds, rest) ∧
      numeral ('-' :: (ds ++ rest)) = some ('-' :: ds, rest) := by
  have hall : ∀ c ∈ ds, isDecimalDigit c = true := fun c hc => (numeral_of_isDigit (hdigits c hc)).1
  have htake : (ds ++ rest).takeWhile isDecimalDigit = ds := by
    rw [List.takeWhile_append_of_pos hall]
    cases rest with
    | nil => exact List.append_nil ds
    | cons c rest => simp [hrest c rfl]
  have hdrop : (ds ++ rest).dropWhile isDecimalDigit = rest := by
    rw [List.dropWhile_append_of_pos hall]
    cases rest with
    | nil => rfl
    | cons c rest => simp [hrest c rfl]
  obtain ⟨d, ds, rfl⟩ := List.exists_cons_of_ne_nil hne
  obtain ⟨-, -, hminus, -⟩ := numeral_of_isDigit (hdigits d (List.mem_cons_self ..))
  refine ⟨?unsigned, ?signed⟩
  case unsigned =>
    unfold numeral
    split
    rename_i sign digits hsign
    have hbare : (sign, digits) = ([], d :: ds ++ rest) := by
      rw [← hsign]
      split
      · rename_i e
        exact absurd (List.cons.inj e).1 hminus
      · rfl
    obtain ⟨rfl, rfl⟩ := Prod.mk.inj hbare
    simp only [htake, hdrop, List.nil_append]
  case signed =>
    simp only [numeral, htake, hdrop, List.singleton_append]

/-- A number that is written out is read to its end. -/
theorem numeral_toString (i : Int) (hrest : ∀ c ∈ rest.head?, isDecimalDigit c = false) :
    numeral ((toString i).toList ++ rest) = some ((toString i).toList, rest) := by
  have hdigits : ∀ n, ∀ c ∈ Nat.toDigits 10 n, c.isDigit = true := fun _ _ => isDigit_of_mem
  rcases toList_toString_cases i with ⟨n, -, e⟩ | ⟨n, -, -, e⟩
  · rw [e]
    exact (numeral_digits Nat.toDigits_ne_nil (hdigits n) hrest).1
  · rw [e]
    exact (numeral_digits Nat.toDigits_ne_nil (hdigits n) hrest).2

/-- Blanks in front of a trimmed text are skipped. -/
theorem afterBlanks_trimmed (h : Trimmed cs) : afterBlanks (' ' :: cs) = some cs := by
  obtain ⟨c, cs, rfl⟩ := List.exists_cons_of_ne_nil h.filled
  have hblank : isBlank ' ' = true := rfl
  simp [afterBlanks, hblank, h.head c rfl]

theorem result?_size (kb : Int) :
    result? ("SIZE".toList ++ ' ' :: (toString kb).toList) = some (.size (toString kb).toList) := by
  have hword : dropFront? "SIZE".toList ("SIZE".toList ++ ' ' :: (toString kb).toList) =
      some (' ' :: (toString kb).toList) := dropFront?_eq_some.mpr rfl
  have hkb : numeral ((toString kb).toList ++ []) = _ := numeral_toString kb (by simp)
  rw [List.append_nil] at hkb
  rw [result?, hword]
  simp only [afterBlanks_trimmed (trimmed_toString kb), hkb, Option.bind_eq_bind, Option.bind_some]
  rfl

theorem result?_error (h : Trimmed cs) : result? ("ERROR".toList ++ ' ' :: cs) =
    some (.message cs) := by
  have hother : dropFront? "SIZE".toList ("ERROR".toList ++ ' ' :: cs) = none := rfl
  have hword : dropFront? "ERROR".toList ("ERROR".toList ++ ' ' :: cs) = some (' ' :: cs) :=
    dropFront?_eq_some.mpr rfl
  rw [result?, hother]
  simp only [hword, afterBlanks_trimmed h, h.trimEnd_eq, Option.bind_eq_bind, Option.bind_some]

/-- A line about a disk: its quoted name, the level and what is said. -/
def lineChars (disk : String) (level : Int) (about : List Char) : List Char :=
  quoteChars disk.toList ++ ' ' :: ((toString level).toList ++ ' ' :: about)

theorem split?_lineChars (disk : String) (level : Int) (hcs : Trimmed cs)
    (h : result? cs = some result) :
    split? (lineChars disk level cs) =
      some (quoteChars disk.toList, (toString level).toList, result) := by
  have hlevel : numeral ((toString level).toList ++ ' ' :: cs) = _ :=
    numeral_toString level (by rintro c ⟨⟩; decide)
  have htail : Trimmed ((toString level).toList ++ ' ' :: cs) :=
    (trimmed_toString level).append hcs [' ']
  refine split?_quoteChars ?_
  simp only [parts?, afterBlanks_trimmed htail, hlevel, afterBlanks_trimmed hcs, h,
    Option.bind_eq_bind, Option.bind_some]

/-- The line about a disk that a result makes, unless it is a size out of range. -/
def Result.line? (disk : String) (level : Int) : Result → Option ReplyLine
  | .size digits => (readWhole (.signed 64) digits).toOption.map (.size disk level)
  | .message text => some (.diskMessage disk level (String.ofList (unquoteChars text)))

theorem disk?_lineChars (hlevel : (WholeRange.signed 32).Holds level) (hcs : Trimmed cs)
    (h : result? cs = some result) :
    disk? (lineChars disk level cs) = result.line? disk level := by
  have hread : (readWhole (.signed 32) (toString level).toList).toOption = some level := by
    rw [readWhole_toString hlevel]
    rfl
  rw [disk?, split?_lineChars disk level hcs h]
  simp only [Option.bind_eq_bind, Option.bind_some, unquoteChars_quoteChars, String.ofList_toList,
    hread]
  cases result with
  | size digits =>
    cases h : readWhole (.signed 64) digits <;> simp [Result.line?, h, Except.toOption]
  | message text => rfl

/-- The bare words with which a line begins that is not about a disk. -/
def reserved : List String := ["OPTIONS", "ERROR", "WARNING"]

/-- A line that begins with a quoted name begins with another word only if that is the name. -/
theorem eq_of_quoteChars_append {name rest' : List Char} (hc : isBlank c = true) (hne : word ≠ [])
    (hword : ∀ d ∈ word, isBlank d = false ∧ d ≠ '"')
    (h : quoteChars name ++ ' ' :: rest = word ++ c :: rest') : name = word := by
  rcases quoteChars_cases name with ⟨e, -, hbare⟩ | e
  · rw [e] at h
    have htake := congrArg (List.takeWhile (!isBlank ·)) h
    rwa [takeWhile_word (fun d hd => (bare_of_needsQuotes (hbare d hd)).1) rfl,
      takeWhile_word (fun d hd => (hword d hd).1) hc] at htake
  · obtain ⟨d, word, rfl⟩ := List.exists_cons_of_ne_nil hne
    rw [e] at h
    exact absurd (List.cons.inj h).1.symm (hword d (List.mem_cons_self ..)).2

/-- A line about a disk is read as one, unless its name is reserved. -/
theorem ofLine_quoteChars (hdisk : disk ∉ reserved) {line : ReplyLine}
    (h : disk? (quoteChars disk.toList ++ ' ' :: rest) = some line) :
    ofLine (quoteChars disk.toList ++ ' ' :: rest) = .ok line := by
  have hother : ∀ word ∈ reserved, ∀ {c rest'}, isBlank c = true →
      quoteChars disk.toList ++ ' ' :: rest ≠ word.toList ++ c :: rest' := by
    intro word hword c rest' hc e
    have hplain : ∀ word ∈ reserved, word.toList ≠ [] ∧
        word.toList.all (fun d => !isBlank d && d != '"') = true := by decide
    obtain ⟨hne, hall⟩ := hplain word hword
    have hname := eq_of_quoteChars_append hc hne (by simpa using hall) e
    exact hdisk (String.toList_inj.mp hname ▸ hword)
  generalize hcs : quoteChars disk.toList ++ ' ' :: rest = cs at h hother ⊢
  have hoptions : dropFront? "OPTIONS ".toList cs = none := by
    refine Option.eq_none_iff_forall_ne_some.mpr fun rest' e => ?_
    have hline : cs = "OPTIONS ".toList ++ rest' := dropFront?_eq_some.mp e
    exact hother "OPTIONS" (by decide) rfl hline
  have hmessage : ∀ word ∈ reserved, ∀ rest', dropFront? word.toList cs = some rest' →
      afterBlanks rest' = none := by
    intro word hword rest' e
    cases rest' with
    | nil => rfl
    | cons c rest' =>
      refine if_neg fun hc => hother word hword hc (dropFront?_eq_some.mp e)
  have hhost : hostMessage? cs = none := by
    unfold hostMessage?
    split
    · rename_i e
      rw [hmessage "ERROR" (by decide) _ e]
      rfl
    · rename_i e
      rw [hmessage "WARNING" (by decide) _ e]
      rfl
    · rfl
  rw [ofLine, hoptions, hhost, h]
  rfl

/-- A line about a disk is read back, unless the bare name of the disk is reserved. -/
theorem ofLine_lineChars {line : ReplyLine} (hdisk : disk ∉ reserved)
    (hlevel : (WholeRange.signed 32).Holds level) (hcs : Trimmed cs) (h : result? cs = some result)
    (hline : result.line? disk level = some line) :
    ofLine (lineChars disk level cs) = .ok line :=
  ofLine_quoteChars hdisk ((disk?_lineChars hlevel hcs h).trans hline)

end ReplyLine

/-! ## Replies -/

theorem Text.lines_unbroken {cs : List Char} (hne : cs ≠ []) (h : ∀ c ∈ cs, c ≠ '\n') :
    lines cs = [cs] := by
  induction cs with
  | nil => exact absurd rfl hne
  | cons c cs ih =>
    obtain ⟨hc, hcs⟩ := List.forall_mem_cons.mp h
    rw [lines_cons hc fun rest _ e => hcs '\n' (by simp [e]) rfl]
    cases cs with
    | nil => rfl
    | cons d cs => rw [ih (List.cons_ne_nil d cs) hcs]

/-- A reply with nothing but one line is read as this line. -/
theorem readReply_of_lines {body : String} {cs : List Char} {line : ReplyLine}
    (hbody : lines body.toList = [cs]) (htrim : Trimmed cs) (h : ReplyLine.ofLine cs = .ok line) :
    readReply body = .ok [line] := by
  have hfull : fullLines body.toList = [cs] := by
    rw [fullLines, hbody]
    simp [htrim.trimEnd_eq, htrim.filled]
  change (fullLines body.toList).mapM ReplyLine.ofLine = _
  rw [hfull, List.mapM_cons, h]
  rfl

/-- A text that is one line and is trimmed is read as this line. -/
theorem readReply_of_ofLine {s : String} {line : ReplyLine} (hs : Unbroken s)
    (htrim : Trimmed s.toList) (h : ReplyLine.ofLine s.toList = .ok line) :
    readReply s = .ok [line] :=
  readReply_of_lines (lines_unbroken htrim.filled hs) htrim h

def diskLine (disk : String) (level : Int) (word about : String) : String :=
  joinWith " " [quote disk, toString level, word, about]

/-- A line about a disk is read as what it says. -/
theorem readReply_diskLine {disk word about : String} {level : Int} {result : ReplyLine.Result}
    {line : ReplyLine} (hdisk : disk ∉ ReplyLine.reserved)
    (hlevel : (WholeRange.signed 32).Holds level) (hword : Bare word) (hne : word ≠ "")
    (habout : Trimmed about.toList) (hbroken : Unbroken about)
    (hresult : ReplyLine.result? (word.toList ++ ' ' :: about.toList) = some result)
    (hline : result.line? disk level = some line) :
    readReply (diskLine disk level word about) = .ok [line] := by
  have hchars : (diskLine disk level word about).toList =
      ReplyLine.lineChars disk level (word.toList ++ ' ' :: about.toList) := by
    simp [diskLine, ReplyLine.lineChars, joinWith, quote]
  have hsaid : Trimmed (word.toList ++ ([' '] ++ about.toList)) := by
    refine Trimmed.append (.of_not_blank ?_ fun c hc => (hword c hc).1) habout [' ']
    simpa using hne
  refine readReply_of_ofLine ?unbroken ?trimmed ?read
  case unbroken =>
    refine unbroken_joinWith (by decide) fun part hpart => ?_
    simp only [List.mem_cons, List.not_mem_nil, or_false] at hpart
    rcases hpart with rfl | rfl | rfl | rfl
    · exact unbroken_quote disk
    · exact (bare_toString_int level).unbroken
    · exact hword.unbroken
    · exact hbroken
  case trimmed =>
    rw [hchars]
    have htail := (trimmed_toString level).append hsaid [' ']
    exact (trimmed_quoteChars disk.toList).append htail [' ']
  case read =>
    rw [hchars]
    exact ReplyLine.ofLine_lineChars hdisk hlevel hsaid hresult hline

theorem readReply_size {disk : String} {level kb : Int} (hdisk : disk ∉ ReplyLine.reserved)
    (hlevel : (WholeRange.signed 32).Holds level) (hkb : (WholeRange.signed 64).Holds kb) :
    readReply (diskLine disk level "SIZE" (toString kb)) = .ok [.size disk level kb] := by
  refine readReply_diskLine hdisk hlevel (by decide) (by decide) (trimmed_toString kb)
    (bare_toString_int kb).unbroken (ReplyLine.result?_size kb) ?_
  rw [ReplyLine.Result.line?, readWhole_toString hkb]
  rfl

theorem readReply_error {disk : String} {level : Int} (hdisk : disk ∉ ReplyLine.reserved)
    (hlevel : (WholeRange.signed 32).Holds level) (message : String) :
    readReply (diskLine disk level "ERROR" (quote message)) =
      .ok [.diskMessage disk level message] := by
  refine readReply_diskLine hdisk hlevel (by decide) (by decide) (trimmed_quote message)
    (unbroken_quote message) (ReplyLine.result?_error (trimmed_quote message)) ?_
  exact congrArg (fun m => some (ReplyLine.diskMessage disk level m)) (unquote_quote message)

/-- What a host says about a disk is read back as it was said, unless the bare name of the disk is a
word that begins a line of another kind. Every quoted text denotes what was quoted. -/
theorem disk_lines_read_back {disk : String} (hdisk : disk ∉ ReplyLine.reserved) (level : Int32)
    (kb : Int64) (message : String) :
    readReply (diskLine disk level.toInt "SIZE" (toString kb.toInt)) =
        .ok [.size disk level.toInt kb.toInt] ∧
      readReply (diskLine disk level.toInt "ERROR" (quote message)) =
        .ok [.diskMessage disk level.toInt message] ∧
      ∀ s, unquote (quote s) = s := by
  have hlevel : (WholeRange.signed 32).Holds level.toInt :=
    ⟨level.le_toInt, Int.le_sub_one_of_lt level.toInt_lt⟩
  have hkb : (WholeRange.signed 64).Holds kb.toInt :=
    ⟨kb.le_toInt, Int.le_sub_one_of_lt kb.toInt_lt⟩
  exact ⟨readReply_size hdisk hlevel hkb, readReply_error hdisk hlevel message, unquote_quote⟩

/-- A name that has to be quoted, the least numbers and a message that is empty. -/
theorem spaced_disk_read_back :
    readReply "\"data \\\"x\\\"\" -2147483648 SIZE -9223372036854775808" =
        .ok [.size "data \"x\"" (-2147483648) (-9223372036854775808)] ∧
      readReply "\"data \\\"x\\\"\" -2147483648 ERROR \"\"" =
        .ok [.diskMessage "data \"x\"" (-2147483648) ""] ∧
      unquote (quote "") = "" := by
  have hdisk : "data \"x\"" ∉ ReplyLine.reserved := by decide
  obtain ⟨hsize, herror, hquote⟩ := disk_lines_read_back hdisk Int32.minValue Int64.minValue ""
  exact ⟨hsize, herror, hquote ""⟩

-- the size of a disk that is called so is taken for a message of the whole host
example : readReply (diskLine "ERROR" 0 "SIZE" "5") = .ok [.hostMessage .error "0 SIZE 5"] := rfl

/-! ## Sizes -/

def sizeLine (disk : String) (level kb : Nat) : String :=
  joinWith " " [quote disk, toString level, "SIZE", toString kb]

theorem sizeLine_eq (disk : String) (level kb : Nat) :
    sizeLine disk level kb = diskLine disk level "SIZE" (toString (kb : Int)) := rfl

/-- What a host tells of the size of a disk is understood. -/
theorem readReply_sizeLine {disk : String} {level kb : Nat} (hdisk : disk ∉ ReplyLine.reserved)
    (hlevel : level < 1 <<< 31) (hkb : kb < 1 <<< 63) :
    readReply (sizeLine disk level kb) = .ok [.size disk level kb] := by
  have hlevel : (WholeRange.signed 32).Holds level := by
    refine ⟨?_, ?_⟩ <;> simp only [WholeRange.signed] <;> omega
  have hkb : (WholeRange.signed 64).Holds kb := by
    refine ⟨?_, ?_⟩ <;> simp only [WholeRange.signed] <;> omega
  rw [sizeLine_eq]
  exact readReply_size hdisk hlevel hkb

/-! ## Sizes that are read -/

/-- A size that a line tells is a whole number of 64 bits. -/
def ReplyLine.Fits : ReplyLine → Prop
  | .size _ _ kb => (WholeRange.signed 64).Holds kb
  | .options _ | .hostMessage .. | .diskMessage .. => True

namespace ReplyLine

variable {cs : List Char} {line : ReplyLine}

theorem fits_of_disk? (h : disk? cs = some line) : line.Fits := by
  simp only [disk?, Option.bind_eq_bind, Option.bind_eq_some_iff] at h
  obtain ⟨⟨name, level, result⟩, -, level, -, h⟩ := h
  cases result with
  | size digits =>
    obtain ⟨kb, hkb, h⟩ := Option.bind_eq_some_iff.mp h
    cases h
    cases hread : readWhole (.signed 64) digits with
    | error fault =>
      rw [hread] at hkb
      cases hkb
    | ok i =>
      rw [hread] at hkb
      cases hkb
      exact holds_readWhole ⟨by decide, by decide⟩ hread
  | message text =>
    cases h
    trivial

theorem fits_of_hostMessage? (h : hostMessage? cs = some line) : line.Fits := by
  unfold hostMessage? at h
  split at h
  case h_1 | h_2 =>
    obtain ⟨_, -, rfl⟩ := Option.map_eq_some_iff.mp h
    trivial
  case h_3 => cases h

theorem fits_of_ofLine (h : ofLine cs = .ok line) : line.Fits := by
  unfold ofLine at h
  split at h
  · cases h
    trivial
  · split at h
    · rename_i hmessage
      cases h
      exact fits_of_hostMessage? hmessage
    · split at h
      · rename_i hdisk
        cases h
        exact fits_of_disk? hdisk
      · cases h

end ReplyLine

/-- Whatever a reply is read as, the sizes fit. -/
theorem fits_of_readReply {body : String} {lines : List ReplyLine}
    (h : readReply body = .ok lines) : ∀ line ∈ lines, line.Fits := by
  unfold readReply at h
  generalize ((Text.lines body.toList).map trimEnd).filter (!·.isEmpty) = texts at h
  induction texts generalizing lines with
  | nil =>
    cases h
    nofun
  | cons text texts ih =>
    rw [List.mapM_cons] at h
    cases hline : ReplyLine.ofLine text with
    | error bad =>
      rw [hline] at h
      cases h
    | ok line =>
      cases hrest : texts.mapM ReplyLine.ofLine with
      | error bad =>
        rw [hline, hrest] at h
        cases h
      | ok rest =>
        rw [hline, hrest] at h
        cases h
        exact List.forall_mem_cons.mpr ⟨ReplyLine.fits_of_ofLine hline, ih hrest⟩

end NightlyBackup
