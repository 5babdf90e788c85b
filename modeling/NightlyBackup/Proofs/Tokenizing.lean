import Mathlib.Data.List.Forall2
import NightlyBackup.Text.Tokens

/-!
Reading tokens undoes quoting. A line in which texts stand as words, each of them bare or between
double quotes, has exactly these texts as its tokens, however many blanks there are between and
around them. A line has no tokens if it breaks off between quotes, and for no other reason.
-/

namespace NightlyBackup.Text

variable {c : Char} {cs ds text word rest line trail front : List Char}
  {texts words : List (List Char)} {current : Option (List Char)} {fault : TokenFault}

/-! ## Lines of words -/

def Blanks (cs : List Char) : Prop := ∀ c ∈ cs, isBlank c = true

instance (cs : List Char) : Decidable (Blanks cs) :=
  decidable_of_iff (cs.all isBlank = true) List.all_eq_true

def Plain (cs : List Char) : Prop := ∀ c ∈ cs, isBlank c = false ∧ c ≠ '"'

instance (cs : List Char) : Decidable (Plain cs) :=
  decidable_of_iff (cs.all (fun c => !isBlank c && c != '"') = true) (by simp [Plain])

/-- A character between quotes: double quotes and backslashes stand behind a backslash. -/
def guardChar (c : Char) : List Char := if c = '"' ∨ c = '\\' then ['\\', c] else [c]

/-- How a text is written as a word of a line. -/
inductive WrittenAs (text : List Char) : List Char → Prop
  | bare (filled : text ≠ []) (plain : Plain text) : WrittenAs text text
  | quoted : WrittenAs text ('"' :: (text.flatMap guardChar ++ ['"']))

/-- Words one after the other, with blanks between neighbours. -/
inductive Spaced : List (List Char) → List Char → Prop
  | nil : Spaced [] []
  | single (word : List Char) : Spaced [word] word
  | cons (word : List Char) {next gap line : List Char} {words : List (List Char)}
    (filled : gap ≠ []) (blank : Blanks gap) (spaced : Spaced (next :: words) line) :
    Spaced (word :: next :: words) (word ++ gap ++ line)

/-! ## One character of a line -/

/-- A double quote opens or closes a quoted stretch, and where it stands there is a token. -/
theorem scanTokens_quote (current : Option (List Char)) (quoted : Bool) (rest : List Char) :
    scanTokens current quoted ('"' :: rest) =
      scanTokens (some (current.getD [])) (!quoted) rest := by
  rw [scanTokens.eq_def]
  exact if_pos rfl

theorem scanTokens_plain (hblank : isBlank c = false) (hquote : c ≠ '"') :
    scanTokens current false (c :: rest) = scanTokens (some (c :: current.getD [])) false rest := by
  rw [scanTokens.eq_def]
  simp [hblank, hquote]

theorem ne_quote_of_isBlank (h : isBlank c = true) : c ≠ '"' := by
  rintro rfl
  cases h

theorem scanTokens_blank_none (h : isBlank c = true) :
    scanTokens none false (c :: rest) = scanTokens none false rest := by
  rw [scanTokens.eq_def]
  simp [h, ne_quote_of_isBlank h]

/-- A blank outside of quotes ends the token that is being read. -/
theorem scanTokens_blank_some (h : isBlank c = true) :
    scanTokens (some word) false (c :: rest) =
      (scanTokens none false rest).map (word.reverse :: ·) := by
  rw [scanTokens.eq_def]
  simp [h, ne_quote_of_isBlank h]

theorem scanTokens_plain_quoted (hquote : c ≠ '"') (hslash : c ≠ '\\') :
    scanTokens (some word) true (c :: rest) = scanTokens (some (c :: word)) true rest := by
  rw [scanTokens.eq_def]
  simp [hquote, hslash]

theorem scanTokens_escape (c : Char) :
    scanTokens (some word) true ('\\' :: c :: rest) = scanTokens (some (c :: word)) true rest := by
  rw [scanTokens.eq_def]
  simp

/-! ## Words and gaps -/

theorem scanTokens_blanks (h : Blanks cs) :
    scanTokens none false (cs ++ rest) = scanTokens none false rest := by
  induction cs with
  | nil => rfl
  | cons c cs ih =>
    obtain ⟨hc, hcs⟩ := List.forall_mem_cons.mp h
    rw [List.cons_append, scanTokens_blank_none hc, ih hcs]

/-- A gap ends the token in front of it, however wide it is. -/
theorem scanTokens_gap {gap : List Char} (hfilled : gap ≠ []) (h : Blanks gap) :
    scanTokens (some word) false (gap ++ rest) =
      (scanTokens none false rest).map (word.reverse :: ·) := by
  cases gap with
  | nil => exact absurd rfl hfilled
  | cons c gap =>
    obtain ⟨hc, hgap⟩ := List.forall_mem_cons.mp h
    rw [List.cons_append, scanTokens_blank_some hc, scanTokens_blanks hgap]

/-- The last token ends with the line, with or without blanks behind it. -/
theorem scanTokens_trail (h : Blanks trail) :
    scanTokens (some word) false trail = .ok [word.reverse] := by
  cases trail with
  | nil => rfl
  | cons c trail =>
    rw [← List.append_nil (c :: trail), scanTokens_gap (List.cons_ne_nil c trail) h]
    rfl

theorem scanTokens_bare (h : Plain cs) : scanTokens (some word) false (cs ++ rest) =
      scanTokens (some (cs.reverse ++ word)) false rest := by
  induction cs generalizing word with
  | nil => rfl
  | cons c cs ih =>
    obtain ⟨⟨hblank, hquote⟩, hcs⟩ := List.forall_mem_cons.mp h
    rw [List.cons_append, scanTokens_plain hblank hquote, Option.getD_some, ih hcs,
      List.reverse_cons, List.append_assoc]
    rfl

theorem scanTokens_guardChar (c : Char) :
    scanTokens (some word) true (guardChar c ++ rest) =
      scanTokens (some (c :: word)) true rest := by
  unfold guardChar
  split
  · exact scanTokens_escape c
  · rename_i hplain
    obtain ⟨hquote, hslash⟩ := not_or.mp hplain
    exact scanTokens_plain_quoted hquote hslash

theorem scanTokens_guarded (cs word rest : List Char) :
    scanTokens (some word) true (cs.flatMap guardChar ++ rest) =
      scanTokens (some (cs.reverse ++ word)) true rest := by
  induction cs generalizing word with
  | nil => rfl
  | cons c cs ih =>
    rw [List.flatMap_cons, List.append_assoc, scanTokens_guardChar, ih, List.reverse_cons,
      List.append_assoc]
    rfl

/-- However a text is written, it is the token that is being read behind its word. -/
theorem scanTokens_written (h : WrittenAs text word) (rest : List Char) :
    scanTokens none false (word ++ rest) = scanTokens (some text.reverse) false rest := by
  cases h with
  | bare filled plain =>
    obtain ⟨c, cs, rfl⟩ := List.exists_cons_of_ne_nil filled
    obtain ⟨⟨hblank, hquote⟩, hcs⟩ := List.forall_mem_cons.mp plain
    rw [List.cons_append, scanTokens_plain hblank hquote, Option.getD_none, scanTokens_bare hcs,
      List.reverse_cons]
  | quoted =>
    rw [List.cons_append, scanTokens_quote, List.append_assoc, Option.getD_none, Bool.not_false,
      scanTokens_guarded, List.append_nil]
    exact scanTokens_quote (some text.reverse) true rest

/-- A row of words, read from the first one on. -/
theorem scanTokens_spaced (h : Spaced words line) (hwritten : List.Forall₂ WrittenAs texts words)
    (htrail : Blanks trail) : scanTokens none false (line ++ trail) = .ok texts := by
  induction h generalizing texts with
  | nil =>
    cases hwritten
    rw [List.nil_append, ← List.append_nil trail, scanTokens_blanks htrail]
    rfl
  | single word =>
    obtain ⟨text, _, hword, ⟨⟩, rfl⟩ := List.forall₂_cons_right_iff.mp hwritten
    rw [scanTokens_written hword, scanTokens_trail htrail, List.reverse_reverse]
  | cons word filled blank _ ih =>
    obtain ⟨text, texts, hword, hwords, rfl⟩ := List.forall₂_cons_right_iff.mp hwritten
    rw [List.append_assoc, List.append_assoc, scanTokens_written hword, scanTokens_gap filled blank,
      ih hwords, List.reverse_reverse]
    rfl

/-! ## Lines that break off -/

/-- What may stand between quotes: characters behind a backslash, and other characters than quotes
and backslashes. -/
inductive Inside : List Char → Prop
  | nil : Inside []
  | plain {c : Char} {cs : List Char} (quote : c ≠ '"') (slash : c ≠ '\\') (h : Inside cs) :
    Inside (c :: cs)
  | escape (c : Char) {cs : List Char} (h : Inside cs) : Inside ('\\' :: c :: cs)

/-- Each quote that is opened is closed again. -/
inductive Paired : List Char → Prop
  | nil : Paired []
  | plain {c : Char} {cs : List Char} (quote : c ≠ '"') (h : Paired cs) : Paired (c :: cs)
  | quoted {ds cs : List Char} (inside : Inside ds) (h : Paired cs) :
    Paired ('"' :: (ds ++ '"' :: cs))

/-- The line breaks off between quotes: a quote is left open at its end, or an escape is left
dangling there, a backslash with nothing behind it. -/
inductive BrokenOff : TokenFault → List Char → Prop
  | openQuote {front ds : List Char} (paired : Paired front) (inside : Inside ds) :
    BrokenOff .unterminatedQuote (front ++ '"' :: ds)
  | danglingEscape {front ds : List Char} (paired : Paired front) (inside : Inside ds) :
    BrokenOff .danglingEscape (front ++ '"' :: (ds ++ ['\\']))

theorem scanTokens_inside (h : Inside ds) (word : List Char) : ∃ more, ∀ rest,
    scanTokens (some word) true (ds ++ rest) = scanTokens (some more) true rest := by
  induction h generalizing word with
  | nil => exact ⟨word, fun _ => rfl⟩
  | @plain c cs quote slash _ ih =>
    obtain ⟨more, hmore⟩ := ih (c :: word)
    exact ⟨more, fun rest => (scanTokens_plain_quoted quote slash).trans (hmore rest)⟩
  | @escape c cs _ ih =>
    obtain ⟨more, hmore⟩ := ih (c :: word)
    exact ⟨more, fun rest => (scanTokens_escape c).trans (hmore rest)⟩

/-- Behind quotes that are all closed again some tokens are finished, and reading goes on outside of
quotes. -/
theorem scanTokens_paired (h : Paired front) (current : Option (List Char)) :
    ∃ finished next, ∀ rest, scanTokens current false (front ++ rest) =
      (scanTokens next false rest).map (finished ++ ·) := by
  induction h generalizing current with
  | nil =>
    refine ⟨[], current, fun rest => ?_⟩
    cases h : scanTokens current false rest <;> exact h
  | @plain c cs quote _ ih =>
    cases hblank : isBlank c with
    | false =>
      obtain ⟨finished, next, hnext⟩ := ih (some (c :: current.getD []))
      exact ⟨finished, next, fun rest => (scanTokens_plain hblank quote).trans (hnext rest)⟩
    | true =>
      obtain ⟨finished, next, hnext⟩ := ih none
      cases current with
      | none =>
        exact ⟨finished, next, fun rest => (scanTokens_blank_none hblank).trans (hnext rest)⟩
      | some word =>
        refine ⟨word.reverse :: finished, next, fun rest => ?_⟩
        rw [List.cons_append, scanTokens_blank_some hblank, hnext]
        cases scanTokens next false rest <;> rfl
  | @quoted ds cs inside _ ih =>
    obtain ⟨more, hmore⟩ := scanTokens_inside inside (current.getD [])
    obtain ⟨finished, next, hnext⟩ := ih (some more)
    refine ⟨finished, next, fun rest => ?_⟩
    rw [List.cons_append, scanTokens_quote, List.append_assoc, Bool.not_false, hmore,
      List.cons_append, scanTokens_quote]
    exact hnext rest

/-- Where quotes are closed again a line has tokens. -/
theorem tokens_of_paired (h : Paired line) : ∃ texts, tokens line = .ok texts := by
  obtain ⟨finished, next, hnext⟩ := scanTokens_paired h none
  refine ⟨finished ++ next.toList.map List.reverse, ?_⟩
  rw [tokens, ← List.append_nil line, hnext]
  rfl

/-- Behind an opening quote, what is left of the line decides how reading ends. -/
theorem tokens_behindQuote (hfront : Paired front) (hds : Inside ds) (rest : List Char) :
    ∃ finished more, tokens (front ++ '"' :: (ds ++ rest)) =
      (scanTokens (some more) true rest).map (finished ++ ·) := by
  obtain ⟨finished, next, hnext⟩ := scanTokens_paired hfront none
  obtain ⟨more, hmore⟩ := scanTokens_inside hds (next.getD [])
  refine ⟨finished, more, ?_⟩
  rw [tokens, hnext, scanTokens_quote, Bool.not_false, hmore]

theorem tokens_of_brokenOff (h : BrokenOff fault line) : tokens line = .error fault := by
  cases h with
  | @openQuote front ds paired inside =>
    obtain ⟨finished, more, hmore⟩ := tokens_behindQuote paired inside []
    rw [← List.append_nil ds, hmore]
    rfl
  | danglingEscape paired inside =>
    obtain ⟨finished, more, hmore⟩ := tokens_behindQuote paired inside ['\\']
    rw [hmore]
    rfl

/-- How a line goes on behind an opening quote: to the closing one, or to the end of the line. -/
inductive BehindQuote : List Char → Prop
  | closed {ds cs : List Char} (inside : Inside ds) : BehindQuote (ds ++ '"' :: cs)
  | openQuote {ds : List Char} (inside : Inside ds) : BehindQuote ds
  | danglingEscape {ds : List Char} (inside : Inside ds) : BehindQuote (ds ++ ['\\'])

theorem BehindQuote.plain (hquote : c ≠ '"') (hslash : c ≠ '\\') (h : BehindQuote cs) :
    BehindQuote (c :: cs) := by
  cases h with
  | closed inside => exact .closed (inside.plain hquote hslash)
  | openQuote inside => exact .openQuote (inside.plain hquote hslash)
  | danglingEscape inside => exact .danglingEscape (inside.plain hquote hslash)

theorem BehindQuote.escape (c : Char) (h : BehindQuote cs) : BehindQuote ('\\' :: c :: cs) := by
  cases h with
  | closed inside => exact .closed (inside.escape c)
  | openQuote inside => exact .openQuote (inside.escape c)
  | danglingEscape inside => exact .danglingEscape (inside.escape c)

theorem behindQuote (cs : List Char) : BehindQuote cs := by
  match cs with
  | [] => exact .openQuote .nil
  | c :: cs =>
    by_cases hquote : c = '"'
    · subst hquote
      exact .closed .nil
    by_cases hslash : c = '\\'
    · subst hslash
      -- an escape takes the next character along, so the rest is two characters shorter
      match cs with
      | [] => exact .danglingEscape .nil
      | c :: cs => exact (behindQuote cs).escape c
    · exact (behindQuote cs).plain hquote hslash

theorem BrokenOff.plain (hquote : c ≠ '"') (h : BrokenOff fault cs) :
    BrokenOff fault (c :: cs) := by
  cases h with
  | openQuote paired inside => exact .openQuote (paired.plain hquote) inside
  | danglingEscape paired inside => exact .danglingEscape (paired.plain hquote) inside

theorem BrokenOff.quoted (hds : Inside ds) (h : BrokenOff fault cs) :
    BrokenOff fault ('"' :: (ds ++ '"' :: cs)) := by
  have hmove : ∀ {front tail : List Char},
      '"' :: (ds ++ '"' :: front) ++ tail = '"' :: (ds ++ '"' :: (front ++ tail)) := by simp
  cases h with
  | openQuote paired inside =>
    rw [← hmove]
    exact .openQuote (paired.quoted hds) inside
  | danglingEscape paired inside =>
    rw [← hmove]
    exact .danglingEscape (paired.quoted hds) inside

/-- There is no other way for a line to end. -/
theorem paired_or_brokenOff (line : List Char) : Paired line ∨ ∃ fault, BrokenOff fault line := by
  -- on the length, because a quoted stretch is taken at once
  induction hlength : line.length using Nat.strongRecOn generalizing line with
  | ind n ih =>
    subst hlength
    cases line with
    | nil => exact .inl .nil
    | cons c rest =>
      by_cases hquote : c = '"'
      · subst hquote
        cases behindQuote rest with
        | @closed ds cs inside =>
          have hshorter : cs.length < ('"' :: (ds ++ '"' :: cs)).length := by
            simp only [List.length_cons, List.length_append]
            omega
          rcases ih cs.length hshorter cs rfl with hpaired | ⟨fault, hbroken⟩
          · exact .inl (hpaired.quoted inside)
          · exact .inr ⟨fault, hbroken.quoted inside⟩
        | openQuote inside => exact .inr ⟨_, @BrokenOff.openQuote [] _ .nil inside⟩
        | danglingEscape inside => exact .inr ⟨_, @BrokenOff.danglingEscape [] _ .nil inside⟩
      · rcases ih rest.length (Nat.lt_succ_self _) rest rfl with hpaired | ⟨fault, hbroken⟩
        · exact .inl (hpaired.plain hquote)
        · exact .inr ⟨fault, hbroken.plain hquote⟩

theorem tokens_eq_error_iff : tokens line = .error fault ↔ BrokenOff fault line := by
  constructor
  · intro h
    rcases paired_or_brokenOff line with hpaired | ⟨other, hbroken⟩
    · obtain ⟨texts, htexts⟩ := tokens_of_paired hpaired
      cases htexts.symm.trans h
    · cases (tokens_of_brokenOff hbroken).symm.trans h
      exact hbroken
  · exact tokens_of_brokenOff

/-- **Tokens undo quoting.** Write each of some texts as a word: bare, if it is not empty and holds
neither blanks nor double quotes, or between double quotes, with a backslash before each double
quote and each backslash. Leave blanks between the words, and perhaps in front of the first and
behind the last one. The tokens of the line are these texts. A line has no tokens exactly if it
breaks off between quotes, and the fault tells whether a quote is left open at its end or an escape
is left dangling there. -/
theorem tokens_undo_quoting :
    (∀ (texts words : List (List Char)) (lead line trail : List Char),
      List.Forall₂ WrittenAs texts words → Spaced words line → Blanks lead → Blanks trail →
      tokens (lead ++ line ++ trail) = .ok texts) ∧
    (∀ (line : List Char) (fault : TokenFault),
      tokens line = .error fault ↔ BrokenOff fault line) := by
  constructor
  · intro texts words lead line trail hwritten hspaced hlead htrail
    rw [tokens, List.append_assoc, scanTokens_blanks hlead]
    exact scanTokens_spaced hspaced hwritten htrail
  · intro line fault
    exact tokens_eq_error_iff

/-- A bare name with a backslash, an empty one, and one with a blank, a quote and a backslash. -/
theorem quoted_names_told_apart :
    List.Forall₂ WrittenAs ["al\\pha".toList, "".toList, "/my \"docs\\".toList]
        ["al\\pha".toList, "\"\"".toList, "\"/my \\\"docs\\\\\"".toList] ∧
      Spaced ["al\\pha".toList, "\"\"".toList, "\"/my \\\"docs\\\\\"".toList]
        ("al\\pha".toList ++ " \t".toList ++
          ("\"\"".toList ++ "\u3000".toList ++ "\"/my \\\"docs\\\\\"".toList)) ∧
      Blanks "  ".toList ∧ Blanks "\t".toList ∧
      tokens "  al\\pha \t\"\"\u3000\"/my \\\"docs\\\\\"\t".toList =
        .ok ["al\\pha".toList, "".toList, "/my \"docs\\".toList] := by
  have hbare : WrittenAs "al\\pha".toList "al\\pha".toList := .bare (by decide) (by decide)
  have hempty : WrittenAs "".toList "\"\"".toList := by
    simpa using @WrittenAs.quoted "".toList
  have hquoted : WrittenAs "/my \"docs\\".toList "\"/my \\\"docs\\\\\"".toList := by
    simpa [guardChar] using @WrittenAs.quoted "/my \"docs\\".toList
  have hwritten := List.Forall₂.cons hbare (.cons hempty (.cons hquoted .nil))
  have hspaced := Spaced.cons "al\\pha".toList (by decide : " \t".toList ≠ []) (by decide)
    (.cons "\"\"".toList (by decide : "\u3000".toList ≠ []) (by decide)
      (.single "\"/my \\\"docs\\\\\"".toList))
  have hlead : Blanks "  ".toList := by decide
  have htrail : Blanks "\t".toList := by decide
  have htokens := tokens_undo_quoting.1 _ _ _ _ _ hwritten hspaced hlead htrail
  exact ⟨hwritten, hspaced, hlead, htrail, by simpa using htokens⟩

-- a quote behind a backslash does not close anything
example : tokens "alpha \"/docs\\\"".toList = .error .unterminatedQuote := by cbv

end NightlyBackup.Text
