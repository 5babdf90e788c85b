import NightlyBackup.Proofs.Writing

/-!
A line of the schedule is taken apart into its words again. Blanks between quotes belong to a word,
so a quoted text is one word, and so is every number, date and rate. Only a host without any
features has none for them: its line is a word shorter than the others.
-/

namespace NightlyBackup

namespace Text

/-! ## The words of a line -/

/-- Where a reader stands: outside of quotes, between quotes, or there behind a backslash. -/
inductive Stretch
  | bare
  | quoted
  | escaped
  deriving DecidableEq, Repr

def Stretch.next (s : Stretch) (c : Char) : Stretch :=
  match s with
  | .bare => if c = '"' then .quoted else .bare
  | .quoted => if c = '"' then .bare else if c = '\\' then .escaped else .quoted
  | .escaped => .quoted

def endWord (word : List Char) : List (List Char) :=
  if word.isEmpty then [] else [word.reverse]

def wordsFrom (s : Stretch) (word : List Char) : List Char → List (List Char)
  | [] => endWord word
  | c :: rest =>
    if s = .bare ∧ isBlank c = true then endWord word ++ wordsFrom .bare [] rest
    else wordsFrom (s.next c) (c :: word) rest

/-- The runs of characters between the blanks of a line; a blank between quotes is no such
blank. Quotes and escapes stay as they are. -/
def words (line : String) : List String := (wordsFrom .bare [] line.toList).map String.ofList

/-- A text without blanks outside of quotes, at whose end no quotes are open. -/
def Closed (cs : List Char) : Prop := ∀ word rest,
  wordsFrom .bare word (cs ++ rest) = wordsFrom .bare (cs.reverse ++ word) rest

variable {c : Char} {cs ds : List Char}

theorem closed_nil : Closed [] := fun _ _ => rfl

theorem Closed.append (hcs : Closed cs) (hds : Closed ds) : Closed (cs ++ ds) := by
  intro word rest
  rw [List.append_assoc, hcs, hds, List.reverse_append, List.append_assoc]

theorem closed_singleton (hblank : isBlank c = false) (hquote : c ≠ '"') : Closed [c] := by
  intro word rest
  simp [wordsFrom, hblank, Stretch.next, hquote]

theorem closed_of_bare (h : ∀ c ∈ cs, isBlank c = false ∧ c ≠ '"') : Closed cs := by
  induction cs with
  | nil => exact closed_nil
  | cons c cs ih =>
    obtain ⟨⟨hblank, hquote⟩, hcs⟩ := List.forall_mem_cons.mp h
    exact (closed_singleton hblank hquote).append (ih hcs)

/-- An escape is read between quotes as what it is. -/
theorem wordsFrom_escapeChar (c : Char) (word rest : List Char) :
    wordsFrom .quoted word (escapeChar c ++ rest) =
      wordsFrom .quoted ((escapeChar c).reverse ++ word) rest := by
  rcases escapeChar_cases c with ⟨d, e, -⟩ | ⟨e, hslash, hquote, -⟩
  · rw [e]
    rfl
  · rw [e]
    simp [wordsFrom, Stretch.next, hslash, hquote]

theorem wordsFrom_escaped (cs word rest : List Char) :
    wordsFrom .quoted word (cs.flatMap escapeChar ++ rest) =
      wordsFrom .quoted ((cs.flatMap escapeChar).reverse ++ word) rest := by
  induction cs generalizing word with
  | nil => rfl
  | cons c cs ih =>
    rw [List.flatMap_cons, List.append_assoc, wordsFrom_escapeChar, ih, List.reverse_append,
      List.append_assoc]

/-- Whatever is quoted, it is a single word. -/
theorem closed_quoteChars (cs : List Char) : Closed (quoteChars cs) := by
  rcases quoteChars_cases cs with ⟨e, -, hbare⟩ | e
  · rw [e]
    exact closed_of_bare fun c hc =>
      ⟨(bare_of_needsQuotes (hbare c hc)).1, (bare_of_needsQuotes (hbare c hc)).2.1⟩
  · intro word rest
    rw [e]
    show wordsFrom .quoted ('"' :: word) (cs.flatMap escapeChar ++ ['"'] ++ rest) = _
    rw [List.append_assoc, wordsFrom_escaped]
    simp [wordsFrom, Stretch.next]

theorem endWord_toList (part : String) :
    (endWord (part.toList.reverse ++ [])).map String.ofList = [part].filter (· ≠ "") := by
  by_cases hempty : part = ""
  · subst hempty
    rfl
  · simp [endWord, hempty]

/-- Texts that are joined by blanks are the words of the line, but for the empty ones. -/
theorem words_joinWith {parts : List String} (h : ∀ part ∈ parts, Closed part.toList) :
    words (joinWith " " parts) = parts.filter (· ≠ "") := by
  induction parts with
  | nil => rfl
  | cons part parts ih =>
    obtain ⟨hpart, hparts⟩ := List.forall_mem_cons.mp h
    cases parts with
    | nil =>
      show (wordsFrom .bare [] part.toList).map String.ofList = _
      rw [← List.append_nil part.toList, hpart]
      exact endWord_toList part
    | cons other parts =>
      have hline : (joinWith " " (part :: other :: parts)).toList =
          part.toList ++ ' ' :: (joinWith " " (other :: parts)).toList := by
        simp [joinWith]
      have hblank : isBlank ' ' = true := rfl
      have hrest := ih hparts
      unfold words at hrest ⊢
      rw [hline, hpart, wordsFrom, if_pos ⟨rfl, hblank⟩, List.map_append, hrest, endWord_toList,
        ← List.filter_append]
      rfl

/-- A bare text is one word, or none if it is empty. -/
theorem Bare.closed {s : String} (h : Bare s) : Closed s.toList :=
  closed_of_bare fun c hc => ⟨(h c hc).1, (h c hc).2.1⟩

theorem closed_quote (s : String) : Closed (quote s).toList := by
  rw [quote, String.toList_ofList]
  exact closed_quoteChars s.toList

/-! ## Words -/

/-- A text that is one word of any line in which it stands between blanks. -/
structure Word (s : String) : Prop where
  filled : s ≠ ""
  closed : Closed s.toList

theorem Bare.word {s : String} (h : Bare s) (hs : s ≠ "") : Word s := ⟨hs, h.closed⟩

theorem word_quote (s : String) : Word (quote s) := ⟨(trimmed_quote s).ne_empty, closed_quote s⟩

theorem word_toString_int (i : Int) : Word (toString i) :=
  (bare_toString_int i).word (trimmed_toString i).ne_empty

theorem word_toString (n : Nat) : Word (toString n) := word_toString_int n

theorem word_printRounded (x : Float) : Word (printRounded x) := by
  refine (bare_printRounded x).word ?_
  unfold printRounded
  dsimp only
  split
  · split
    · simp
    · decide
  · simp

end Text

open Night Planning Text

variable {n m g k : Night} {disks : List Disk} {act : Planning Unit} {id slot : Nat}
  {p : DiskPlan}

theorem Calendar.word_watermark (moment : Int) : Word (watermark moment) := by
  refine (bare_watermark moment).word ?_
  simp [watermark, joinWith]

/-! ## Lines of dumps -/

def Host.featureWords (h : Host) : List String := [h.featureWord].filter (· ≠ "")

/-- Only a host that has announced an empty set of features has no word for them. -/
theorem Host.featureWords_eq (h : Host) :
    h.featureWords = if h.features = some {} then [] else [h.featureWord] := by
  have hempty : h.featureWord = "" ↔ h.features = some {} := by
    unfold featureWord
    cases h.features with
    | none => simp
    | some features =>
      obtain ⟨bytes⟩ := features
      cases bytes with
      | nil => simp [FeatureSet.toHex]
      | cons b bytes => simp [FeatureSet.toHex]
  by_cases h0 : h.features = some {}
  · simp [featureWords, h0, hempty.mpr h0]
  · simp [featureWords, h0, mt hempty.mp h0]

namespace DiskPlan

/-- The words tell the level of the dump at `slot`, what it reaches back to and its sizes, native
and on media, and then how many seconds it takes at a rate, and the rate. -/
def Shows (p : DiskPlan) (slot : Nat) (rate : Float) (words : List String) : Prop :=
  ∃ e kb media, p.levels[slot]? = some e ∧ e.size = .sized kb ∧ p.mediaSize? slot = some media ∧
    words = [toString e.level, e.watermark, toString kb, toString media,
      toString (Float.ofNat media / usableRate rate).toUInt64.toNat,
      printRounded (usableRate rate)]

theorem Shows.length {rate : Float} {words : List String} (h : p.Shows slot rate words) :
    words.length = 6 := by
  obtain ⟨e, kb, media, -, -, -, rfl⟩ := h
  rfl

theorem shows_figures (h : p.Sized slot) (rate : Float) :
    p.Shows slot rate (p.figures slot rate).words := by
  obtain ⟨e, kb, he, hkb⟩ := h.exists_estimate
  obtain ⟨media, hmedia⟩ := Option.isSome_iff_exists.mp h
  refine ⟨e, kb, media, he, hkb, hmedia, ?_⟩
  simp [figures, DumpFigures.words, he, hkb, hmedia, SizeEstimate.kb?]

theorem word_figures (h : p.Sized slot) (hmarks : ∀ e ∈ p.levels, Word e.watermark) (rate : Float) :
    ∀ word ∈ (p.figures slot rate).words, Word word := by
  obtain ⟨e, kb, he, -⟩ := h.exists_estimate
  have hmark : Word (p.levels.getD slot default).watermark := by
    rw [List.getD_eq_getElem?_getD, he]
    exact hmarks e (List.mem_of_getElem? he)
  simp only [figures, DumpFigures.words, List.forall_mem_cons]
  exact ⟨word_toString _, hmark, word_toString _, word_toString _, word_toString _,
    word_printRounded _, by simp⟩

/-- The fallback that is written for a planned disk is that of its full dump. -/
theorem writtenFallback?_eq (hp : p.Planned) :
    p.writtenFallback? = if p.isFull then p.degraded else none := by
  unfold writtenFallback?
  split
  · cases hdegraded : p.degraded with
    | none => rfl
    | some slot => exact if_pos (hp.fallback hdegraded).1
  · rfl

theorem shows_fallbackWords {other : Nat} (hp : p.Planned) (hfull : p.isFull = true)
    (hother : p.degraded = some other) : p.Shows other p.incrRate p.fallbackWords := by
  have hwritten : p.writtenFallback? = some other := by
    rw [writtenFallback?_eq hp, if_pos hfull, hother]
  rw [fallbackWords, hwritten]
  exact shows_figures (hp.fallback hother).1 p.incrRate

/-- Where there is no fallback, a single word tells why. -/
theorem fallbackWords_of_none (hp : p.Planned) (hnone : ¬(p.isFull ∧ p.degraded.isSome)) :
    ∃ word, p.fallbackWords = [word] ∧ unquote word = "Skipping: " ++
      p.degradedReason.getD "cannot dump in degraded mode for unknown reason" := by
  have hwritten : p.writtenFallback? = none := by
    rw [writtenFallback?_eq hp]
    split
    · rename_i hfull
      exact Option.not_isSome_iff_eq_none.mp fun hsome => hnone ⟨hfull, hsome⟩
    · rfl
  rw [fallbackWords, hwritten]
  exact ⟨_, rfl, unquote_quote _⟩

theorem length_fallbackWords (hp : p.Planned) :
    p.fallbackWords.length = if p.isFull ∧ p.degraded.isSome then 6 else 1 := by
  split
  · rename_i hsome
    obtain ⟨other, hother⟩ := Option.isSome_iff_exists.mp hsome.2
    exact (shows_fallbackWords hp hsome.1 hother).length
  · rename_i hnone
    obtain ⟨word, hword, -⟩ := fallbackWords_of_none hp hnone
    rw [hword]
    rfl

theorem sized_of_writtenFallback? (h : p.writtenFallback? = some slot) : p.Sized slot := by
  unfold writtenFallback? at h
  split at h
  · exact (Option.filter_eq_some_iff.mp h).2
  · cases h

theorem word_fallbackWords (hmarks : ∀ e ∈ p.levels, Word e.watermark) :
    ∀ word ∈ p.fallbackWords, Word word := by
  unfold fallbackWords
  split
  · rename_i slot hslot
    exact word_figures (sized_of_writtenFallback? hslot) hmarks _
  · exact List.forall_mem_singleton.mpr (word_quote _)

end DiskPlan

/-- The line of a dump falls apart into its words; a host without features has none for them. -/
theorem Night.words_dumpLine (hdump : (n.plan id).dump = some slot)
    (hsized : (n.plan id).Sized slot) (hmarks : ∀ e ∈ (n.plan id).levels, Word e.watermark)
    (hhost : Word (n.hostName id)) (hstamp : Word n.timestamp) :
    ∃ line, n.dumpLine? id = some line ∧
      words line = ["DUMP", n.hostName id] ++ (n.host (n.plan id).host).featureWords ++
        [quote (n.plan id).disk.name, n.timestamp, toString (n.plan id).priority] ++
        ((n.plan id).figures slot
          (if (n.plan id).isFull then (n.plan id).fullRate else (n.plan id).incrRate)).words ++
        (n.plan id).fallbackWords := by
  have hfigures := DiskPlan.word_figures hsized hmarks
    (if (n.plan id).isFull then (n.plan id).fullRate else (n.plan id).incrRate)
  have hfallback := DiskPlan.word_fallbackWords hmarks
  have hfront : ∀ word ∈ ["DUMP", n.hostName id], Word word := by
    simp only [List.forall_mem_cons]
    exact ⟨Bare.word (by decide) (by decide), hhost, by simp⟩
  have hname : ∀ word ∈ [quote (n.plan id).disk.name, n.timestamp,
      toString (n.plan id).priority], Word word := by
    simp only [List.forall_mem_cons]
    exact ⟨word_quote _, hstamp, word_toString_int _, by simp⟩
  have hkept : ∀ {parts : List String}, (∀ word ∈ parts, Word word) →
      parts.filter (· ≠ "") = parts := fun h =>
    List.filter_eq_self.mpr fun word hword => by simpa using (h word hword).filled
  have hwords : n.dumpWords id slot = ["DUMP", n.hostName id] ++
      [(n.host (n.plan id).host).featureWord] ++
      [quote (n.plan id).disk.name, n.timestamp, toString (n.plan id).priority] ++
      ((n.plan id).figures slot
        (if (n.plan id).isFull then (n.plan id).fullRate else (n.plan id).incrRate)).words ++
      (n.plan id).fallbackWords := rfl
  refine ⟨joinWith " " (n.dumpWords id slot), by rw [dumpLine?, hdump]; rfl, ?_⟩
  rw [words_joinWith, hwords]
  · simp only [List.filter_append, hkept hfront, hkept hname, hkept hfigures, hkept hfallback]
    rfl
  · rw [hwords]
    intro word hword
    simp only [List.mem_append] at hword
    rcases hword with (((h | h) | h) | h) | h
    · exact (hfront word h).closed
    · rw [List.mem_singleton.mp h]
      exact (Host.bare_featureWord _).closed
    · exact (hname word h).closed
    · exact (hfigures word h).closed
    · exact (hfallback word h).closed

/-- The watermarks of a scheduled record are words. -/
theorem Phases.word_watermark {settings : Settings} {rotation : Rotation} {today : Int}
    {store : Store} (h : Phases store act n m g k)
    (hbegin : Night.begin settings disks rotation today = .ok n) (hid : id ∈ k.scheduled) :
    ∀ e ∈ (k.plan id).levels, Word e.watermark := by
  obtain ⟨d, history, -, -, hlaid⟩ := h.laidDown hbegin hid
  intro e he
  rw [hlaid.watermark (DiskPlan.mem_terms (List.mem_iff_getElem?.mp he).choose_spec)]
  exact Calendar.word_watermark _

/-- The line of a scheduled dump in a planned night. -/
theorem Phases.words_dumpLine {settings : Settings} {rotation : Rotation} {today : Int}
    {store : Store} (h : Phases store act n m g k)
    (hbegin : Night.begin settings disks rotation today = .ok n) (hid : id ∈ k.scheduled)
    (hhost : Word (k.hostName id)) (hstamp : Word k.timestamp) :
    ∃ line slot, k.dumpLine? id = some line ∧ (k.plan id).dump = some slot ∧
      (k.plan id).Planned ∧ (k.plan id).Sized slot ∧
      words line = ["DUMP", k.hostName id] ++ (k.host (k.plan id).host).featureWords ++
        [quote (k.plan id).disk.name, k.timestamp, toString (k.plan id).priority] ++
        ((k.plan id).figures slot
          (if (k.plan id).isFull then (k.plan id).fullRate else (k.plan id).incrRate)).words ++
        (k.plan id).fallbackWords := by
  have hplanned := h.orderly.planned (h.sorted.sound.mem_scheduled.mp hid)
  obtain ⟨slot, hdump, hsized⟩ := hplanned.sized
  obtain ⟨line, hline, hwords⟩ :=
    Night.words_dumpLine hdump hsized (h.word_watermark hbegin hid) hhost hstamp
  exact ⟨line, slot, hline, hdump, hplanned, hsized, hwords⟩

/-- **Lines are taken apart again.** However sizes are gathered, the line of a scheduled dump has
thirteen words, or eighteen if a full dump has a fallback, and one less if its host has announced
an empty set of features. -/
theorem dump_lines_taken_apart {settings : Settings} {rotation : Rotation} {today : Int}
    {store : Store} (hbegin : Night.begin settings disks rotation today = .ok n)
    (hgathering : Gathering act) (hplan : planWith store act n = .ok () k) (hid : id ∈ k.scheduled)
    (hhost : Bare (k.hostName id) ∧ k.hostName id ≠ "")
    (hstamp : Bare k.timestamp ∧ k.timestamp ≠ "") :
    ∃ line slot figures fallback, k.dumpLine? id = some line ∧ (k.plan id).dump = some slot ∧
      words line = ["DUMP", k.hostName id] ++
        (if (k.host (k.plan id).host).features = some {} then []
          else [(k.host (k.plan id).host).featureWord]) ++
        [quote (k.plan id).disk.name, k.timestamp, toString (k.plan id).priority] ++
        figures ++ fallback ∧
      unquote (quote (k.plan id).disk.name) = (k.plan id).disk.name ∧
      (k.plan id).Shows slot
        (if (k.plan id).isFull then (k.plan id).fullRate else (k.plan id).incrRate) figures ∧
      ((k.plan id).isFull → ∀ other, (k.plan id).degraded = some other →
        (k.plan id).Shows other (k.plan id).incrRate fallback) ∧
      (¬((k.plan id).isFull ∧ (k.plan id).degraded.isSome) → ∃ word, fallback = [word] ∧
        unquote word = "Skipping: " ++ (k.plan id).degradedReason.getD
          "cannot dump in degraded mode for unknown reason") ∧
      (words line).length + (if (k.host (k.plan id).host).features = some {} then 1 else 0) =
        if (k.plan id).isFull ∧ (k.plan id).degraded.isSome then 18 else 13 := by
  obtain ⟨m, g, hphases⟩ := exists_phases hbegin hgathering hplan
  obtain ⟨line, slot, hline, hdump, hplanned, hsized, hwords⟩ :=
    hphases.words_dumpLine hbegin hid (hhost.1.word hhost.2) (hstamp.1.word hstamp.2)
  rw [Host.featureWords_eq] at hwords
  have hshows := DiskPlan.shows_figures hsized
    (if (k.plan id).isFull then (k.plan id).fullRate else (k.plan id).incrRate)
  have hlength := DiskPlan.length_fallbackWords hplanned
  refine ⟨line, slot, _, _, hline, hdump, hwords, unquote_quote _, hshows,
    fun hfull other => DiskPlan.shows_fallbackWords hplanned hfull,
    DiskPlan.fallbackWords_of_none hplanned, ?_⟩
  rw [hwords]
  simp only [List.length_append, hshows.length, hlength]
  split <;> split <;> rfl

/-! ## Two nights -/

def DrawsFull (store : Store) (act : Planning Unit) (degraded : Option Nat)
    (features : Option FeatureSet) (n : Night) : Prop :=
  Leads (drawWith store act) n (fun _ a =>
    a.scheduled = [0] ∧ (a.plan 0).isFull = true ∧ (a.plan 0).degraded = degraded ∧
    (a.host (a.plan 0).host).features = features ∧ a.totals.size ≤ a.media.capacity ∧
    (a.plan 0).dumpMediaSize ≤ a.media.ceiling (a.plan 0).disk ∧
    sizesOverflow? ((hillDays a).map (heightOf a)) = none) never

instance (store : Store) (act : Planning Unit) (degraded : Option Nat)
    (features : Option FeatureSet) (n : Night) :
    Decidable (DrawsFull store act degraded features n) :=
  inferInstanceAs (Decidable (Leads _ _ _ _))

theorem exists_planned_full {store : Store} {degraded : Option Nat} {features : Option FeatureSet}
    (hbegin : Night.begin {} disks default 0 = .ok n) (hgathering : Gathering act)
    (hdrawn : DrawsFull store act degraded features n) :
    ∃ k, planWith store act n = .ok () k ∧ 0 ∈ k.scheduled ∧ (k.plan 0).isFull = true ∧
      (k.plan 0).degraded = degraded ∧ (k.host (k.plan 0).host).features = features ∧
      k.hostName 0 = n.hostName 0 ∧ k.diskName 0 = n.diskName 0 ∧ k.timestamp = n.timestamp := by
  obtain ⟨_, a, hdrawn, hscheduled, hfull, hdegraded, hfeatures, hsize, hdump, hheights⟩ :=
    hdrawn.exists_ok
  have honly : ∀ id ∈ a.scheduled, id = 0 := fun id hid => by simpa [hscheduled] using hid
  obtain ⟨ha, k, hplan, hk⟩ := exists_planned_of_fits hbegin hgathering hdrawn hsize
    (fun id hid => (honly id hid).symm ▸ hdump)
    ⟨fun id hid => (honly id hid).symm ▸ .inl hfull, hheights⟩
  obtain ⟨m, g, hphases⟩ := exists_phases hbegin hgathering hplan
  have htitle := hphases.same.title 0
  refine ⟨k, hplan, ?_, (hk.plan 0).isFull.trans hfull, (hk.plan 0).degraded.trans hdegraded, ?_,
    ?_, ?_, ?_⟩
  · rw [hk.scheduled, hscheduled]
    exact List.mem_singleton.mpr rfl
  · have hhosts : k.hosts = a.hosts := by rw [hk.rest]
    rw [Night.host, hhosts, (hk.plan 0).host]
    exact hfeatures
  · exact congrArg Prod.fst htitle
  · exact congrArg Prod.snd htitle
  · exact hphases.steps.sameRun.timestamp

def docs : Disk := Disk.plain "alpha" "my docs" 10 default

def docsStore : Store :=
  { disks := [{ host := "alpha", disk := "my docs", lastLevel := some 0,
                levels := [{ level := 0, size := 1000, mediaSize := 1000, seconds := 60,
                             date := some (-1000000), label := none }] }] }

def docsTurns : List Turn :=
  [.ask 0, .packet 0 ⟨.rep, "OPTIONS features=200000000e0010000020;\n"⟩,
    .ask 0, .packet 0 ⟨.rep, "\"my docs\" 0 SIZE 1000\n\"my docs\" 1 SIZE 100\n"⟩]

/-- The line of the documents has eighteen words: a name with a blank in it is one of them. -/
theorem dump_lines_taken_apart_of_docs : ∃ n k line, Night.begin {} [docs] default 0 = .ok n ∧
    planWith docsStore (gatherTurns docsTurns) n = .ok () k ∧ 0 ∈ k.scheduled ∧
    (Bare (k.hostName 0) ∧ k.hostName 0 ≠ "") ∧ (Bare k.timestamp ∧ k.timestamp ≠ "") ∧
    k.dumpLine? 0 = some line ∧ (words line).length = 18 := by
  obtain ⟨n, hbegin, hhost, hstamp, hdrawn⟩ : ∃ n, Night.begin {} [docs] default 0 = .ok n ∧
      (Bare (n.hostName 0) ∧ n.hostName 0 ≠ "") ∧ (Bare n.timestamp ∧ n.timestamp ≠ "") ∧
      DrawsFull docsStore (gatherTurns docsTurns) (some 1)
        (some ⟨[32, 0, 0, 0, 14, 0, 16, 0, 0, 32]⟩) n :=
    ⟨_, rfl, by decide +kernel, by decide +kernel, by decide +kernel⟩
  obtain ⟨k, hplan, hid, hfull, hdegraded, hfeatures, hname, -, htime⟩ :=
    exists_planned_full hbegin (.turns docsTurns) hdrawn
  rw [← hname] at hhost
  rw [← htime] at hstamp
  obtain ⟨line, slot, figures, fallback, hline, -, -, -, -, -, -, hlength⟩ :=
    dump_lines_taken_apart hbegin (.turns docsTurns) hplan hid hhost hstamp
  rw [hfeatures, if_neg (by decide), if_pos ⟨hfull, by rw [hdegraded]; rfl⟩] at hlength
  exact ⟨n, k, line, hbegin, hplan, hid, hhost, hstamp, hline, hlength⟩

def oldTurns : List Turn :=
  [.ask 0, .packet 0 ⟨.nak, "ERROR unknown service: noop\n"⟩,
    .ask 0, .packet 0 ⟨.rep, "/home 0 SIZE 700\n"⟩]

/-- The line of an old client has twelve words, and the name of the disk stands where the features
are looked for. -/
theorem old_client_line_is_short : ∃ n k line,
    Night.begin {} [Disk.plain "alpha" "/home" 10 default] default 0 = .ok n ∧
    planWith {} (gatherTurns oldTurns) n = .ok () k ∧ 0 ∈ k.scheduled ∧
    (Bare (k.hostName 0) ∧ k.hostName 0 ≠ "") ∧ (Bare k.timestamp ∧ k.timestamp ≠ "") ∧
    k.dumpLine? 0 = some line ∧ (words line).length = 12 ∧
    (words line)[2]? = some (quote "/home") := by
  obtain ⟨n, hbegin, hhost, hstamp, hdisk, hdrawn⟩ : ∃ n,
      Night.begin {} [Disk.plain "alpha" "/home" 10 default] default 0 = .ok n ∧
      (Bare (n.hostName 0) ∧ n.hostName 0 ≠ "") ∧ (Bare n.timestamp ∧ n.timestamp ≠ "") ∧
      n.diskName 0 = "/home" ∧ DrawsFull {} (gatherTurns oldTurns) none (some {}) n :=
    ⟨_, rfl, by decide +kernel, by decide +kernel, rfl, by decide +kernel⟩
  obtain ⟨k, hplan, hid, hfull, hdegraded, hfeatures, hname, hdiskName, htime⟩ :=
    exists_planned_full hbegin (.turns oldTurns) hdrawn
  rw [← hname] at hhost
  rw [← htime] at hstamp
  obtain ⟨m, g, hphases⟩ := exists_phases hbegin (.turns oldTurns) hplan
  obtain ⟨line, slot, hline, -, hplanned, hsized, hwords⟩ :=
    hphases.words_dumpLine hbegin hid (hhost.1.word hhost.2) (hstamp.1.word hstamp.2)
  have hfigures := (DiskPlan.shows_figures hsized
    (if (k.plan 0).isFull then (k.plan 0).fullRate else (k.plan 0).incrRate)).length
  have hfallback := DiskPlan.length_fallbackWords hplanned
  rw [hdegraded, if_neg (by simp)] at hfallback
  rw [Host.featureWords_eq, if_pos hfeatures, List.append_nil] at hwords
  refine ⟨n, k, line, hbegin, hplan, hid, hhost, hstamp, hline, ?_, ?_⟩
  · rw [hwords]
    simp only [List.length_append, hfigures, hfallback, List.length_cons, List.length_nil]
  · have hthird : (words line)[2]? = some (quote (k.diskName 0)) := by
      rw [hwords]
      rfl
    rw [hthird, hdiskName, hdisk]

end NightlyBackup
