import Mathlib.Data.List.DropRight
import NightlyBackup.Settings.Lines
import NightlyBackup.Proofs.Quoting

/-!
Settings are read line by line. A line sets one thing or nothing, so lines about different things
may change places, and of several lines about one thing the last one that fits it counts. Lines
that set nothing may as well be left out.
-/

namespace NightlyBackup

namespace Text

variable {c : Char} {cs left right : List Char}

theorem splitFirst_eq_some : splitFirst c cs = some (left, right) ↔
    cs = left ++ c :: right ∧ c ∉ left := by
  constructor
  · intro h
    rw [splitFirst] at h
    split at h
    · cases h
    · rename_i d rest hdrop
      cases h
      have hd : d = c := by
        have := List.head?_dropWhile_not (· != c) cs
        rw [hdrop] at this
        simpa using this
      refine ⟨?_, fun hc => by simpa using List.mem_takeWhile_imp hc⟩
      rw [← hd, ← hdrop, hd, List.takeWhile_append_dropWhile]
  · rintro ⟨rfl, hc⟩
    have hleft : ∀ d ∈ left, (d != c) = true := fun d hd => by
      simpa using fun e : d = c => hc (e ▸ hd)
    rw [splitFirst, List.dropWhile_append_of_pos hleft, List.takeWhile_append_of_pos hleft]
    simp

/-- What a text begins with is trimmed off at its end only if nothing else is left. -/
theorem trimEnd_cons (c : Char) (cs : List Char) : trimEnd (c :: cs) =
    if isBlank c && (trimEnd cs).isEmpty then [] else c :: trimEnd cs := by
  simp only [trimEnd, List.reverse_cons, List.dropWhile_append, List.isEmpty_reverse]
  cases cs.reverse.dropWhile isBlank <;> cases hc : isBlank c <;> simp [hc]

theorem trim_cons_of_not_blank (hc : isBlank c = false) (cs : List Char) :
    trim (c :: cs) = c :: trimEnd cs := by
  simp [trim, trimStart, trimEnd_cons, hc]

theorem trim_cons_of_blank (hc : isBlank c = true) (cs : List Char) :
    trim (c :: cs) = trim cs := by
  simp [trim, trimStart, hc]

/-- Blanks at the end make no difference to a text that is trimmed. -/
theorem trim_trimEnd (cs : List Char) : trim (trimEnd cs) = trim cs := by
  induction cs with
  | nil => rfl
  | cons c cs ih =>
    rw [trimEnd_cons]
    cases hc : isBlank c with
    | false =>
      have hidem : trimEnd (trimEnd cs) = trimEnd cs := List.rdropWhile_idempotent isBlank cs
      simp [trim_cons_of_not_blank hc, hidem]
    | true =>
      rw [trim_cons_of_blank hc, ← ih]
      cases trimEnd cs with
      | nil => rfl
      | cons d ds => exact trim_cons_of_blank hc _

end Text

namespace Settings

open Text

variable {s s' : Settings} {key other : Key} {value line : List Char} {ls : List (List Char)}

/-! ## What a key stands for -/

def Key.name : Key → String
  | .configName => "CONFIG_NAME"
  | .dbPath => "DB_PATH"
  | .disklistPath => "DISKLIST_PATH"
  | .dumpCycle => "DUMPCYCLE"
  | .runsPerCycle => "RUNSPERCYCLE"
  | .tapeCycle => "TAPECYCLE"
  | .runTapes => "RUNTAPES"
  | .maxDumpSize => "MAXDUMPSIZE"
  | .tapeLength => "TAPE_LENGTH"
  | .tapeFilemark => "TAPE_FILEMARK"
  | .tapeBlocksize => "TAPE_BLOCKSIZE"
  | .eTimeout => "ETIMEOUT"
  | .cTimeout => "CTIMEOUT"
  | .reserve => "RESERVE"
  | .estimatePort => "ESTIMATE_PORT"
  | .bumpPercent => "BUMPPERCENT"
  | .bumpSize => "BUMPSIZE"
  | .bumpMult => "BUMPMULT"
  | .bumpDays => "BUMPDAYS"
  | .useTimestamps => "USETIMESTAMPS"
  | .delayForcedFulls => "DELAY_FORCED_FULLS"

theorem ofName?_eq_some {name : String} : Key.ofName? name = some key ↔ name = key.name := by
  constructor
  · intro h
    unfold Key.ofName? at h
    split at h <;> cases h <;> rfl
  · rintro rfl
    cases key <;> rfl

inductive Content
  | text (content : String)
  | whole (i : Int)
  | decimal (x : Float)
  | flag (on : Bool)

inductive Kind
  | text
  | whole (range : WholeRange)
  | decimal
  | flag
  deriving DecidableEq, Repr

def Key.kind : Key → Kind
  | .configName | .dbPath | .disklistPath => .text
  | .runsPerCycle => .whole (.signed 32)
  | .dumpCycle | .tapeCycle | .runTapes | .reserve | .bumpPercent | .bumpDays =>
    .whole (.unsigned 32)
  | .maxDumpSize | .eTimeout => .whole (.signed 64)
  | .tapeLength | .tapeFilemark | .tapeBlocksize | .cTimeout | .bumpSize => .whole (.unsigned 64)
  | .estimatePort => .whole (.unsigned 16)
  | .bumpMult => .decimal
  | .useTimestamps | .delayForcedFulls => .flag

def Kind.read? : Kind → List Char → Option Content
  | .text, value => some (.text (String.ofList value))
  | .whole range, value => (readWhole range value).toOption.map .whole
  | .decimal, value => (readDecimal value).toOption.map .decimal
  | .flag, value => some (.flag (isOn value))

def content (s : Settings) : Key → Content
  | .configName => .text s.name
  | .dbPath => .text s.historyPath
  | .disklistPath => .text s.diskListPath
  | .dumpCycle => .whole s.dumpCycle
  | .runsPerCycle => .whole s.runsPerCycle
  | .tapeCycle => .whole s.tapeCycle
  | .runTapes => .whole s.runTapes
  | .maxDumpSize => .whole s.maxDumpSize
  | .tapeLength => .whole s.tapeLength
  | .tapeFilemark => .whole s.tapeFilemark
  | .tapeBlocksize => .whole s.tapeBlocksize
  | .eTimeout => .whole s.estimateTimeout
  | .cTimeout => .whole s.probeTimeout
  | .reserve => .whole s.reserve
  | .estimatePort => .whole s.port
  | .bumpPercent => .whole s.bump.percent
  | .bumpSize => .whole s.bump.sizeKb
  | .bumpMult => .decimal s.bump.mult
  | .bumpDays => .whole s.bump.days
  | .useTimestamps => .flag s.useTimestamps
  | .delayForcedFulls => .flag s.delayForcedFulls

/-- Settings that hold the same under every key differ in what has no key only. -/
theorem eq_of_content (h : ∀ key, s.content key = s'.content key)
    (hpath : s.settingsPath = s'.settingsPath) (hstamp : s.timestamp = s'.timestamp) : s = s' := by
  have htext : ∀ {t t' : String}, Content.text t = .text t' → t = t' := Content.text.inj
  have hint : ∀ {i j : Int}, Content.whole i = .whole j → i = j := Content.whole.inj
  have hnat : ∀ {m n : Nat}, Content.whole m = .whole n → m = n := fun e =>
    Int.ofNat.inj (Content.whole.inj e)
  have hflag : ∀ {a b : Bool}, Content.flag a = .flag b → a = b := Content.flag.inj
  have hbump : s.bump = s'.bump := by
    change BumpPolicy.mk s.bump.percent s.bump.sizeKb s.bump.mult s.bump.days = _
    rw [hnat (h .bumpPercent), hnat (h .bumpSize), Content.decimal.inj (h .bumpMult),
      hnat (h .bumpDays)]
  obtain ⟨⟩ := s
  obtain ⟨⟩ := s'
  rw [Settings.mk.injEq]
  exact ⟨hpath, htext (h .dbPath), htext (h .disklistPath), htext (h .configName),
    hnat (h .dumpCycle), hint (h .runsPerCycle), hnat (h .tapeCycle), hnat (h .runTapes),
    hint (h .maxDumpSize), hnat (h .tapeLength), hnat (h .tapeFilemark), hnat (h .tapeBlocksize),
    hint (h .eTimeout), hnat (h .cTimeout), hnat (h .reserve), hflag (h .useTimestamps),
    hflag (h .delayForcedFulls), hnat (h .estimatePort), hbump, hstamp⟩

/-! ## One line -/

theorem nat?_getD (bits : Nat) (value : List Char) (old : Nat) :
    Content.whole ((nat? bits value).getD old) =
      ((Kind.whole (.unsigned bits)).read? value).getD (.whole old) := by
  rw [nat?, Kind.read?]
  cases h : readWhole (.unsigned bits) value with
  | error fault => rfl
  | ok i =>
    obtain ⟨hleast, -⟩ := holds_readWhole (holds_unsigned_zero bits) h
    exact congrArg Content.whole (Int.toNat_of_nonneg hleast)

theorem int?_getD (bits : Nat) (value : List Char) (old : Int) :
    Content.whole ((int? bits value).getD old) =
      ((Kind.whole (.signed bits)).read? value).getD (.whole old) := by
  rw [int?, Kind.read?]
  cases readWhole (.signed bits) value <;> rfl

/-- What a value that fits says is held under its key from then on. -/
theorem content_assign_own (s : Settings) (key : Key) (value : List Char) :
    (s.assign key value).content key = (key.kind.read? value).getD (s.content key) := by
  cases key with
  | configName | dbPath | disklistPath | useTimestamps | delayForcedFulls => rfl
  | runsPerCycle | maxDumpSize | eTimeout => exact int?_getD _ value _
  | bumpMult =>
    change Content.decimal ((readDecimal value).toOption.getD _) = Option.getD (Option.map _ _) _
    cases readDecimal value <;> rfl
  | _ => exact nat?_getD _ value _

/-- Nothing else is touched. -/
theorem content_assign_other (h : key ≠ other) (value : List Char) :
    (s.assign key value).content other = s.content other := by
  cases key <;> cases other <;> first | rfl | exact absurd rfl h

theorem unkeyed_assign (s : Settings) (key : Key) (value : List Char) :
    (s.assign key value).settingsPath = s.settingsPath ∧
      (s.assign key value).timestamp = s.timestamp := by
  cases key <;> exact ⟨rfl, rfl⟩

def given? (line : List Char) (key : Key) : Option Content :=
  (assignment? line).bind fun (own, value) => if own = key then key.kind.read? value else none

theorem content_applyLine (s : Settings) (line : List Char) (key : Key) :
    (s.applyLine line).content key = (given? line key).getD (s.content key) := by
  rw [applyLine, given?]
  cases assignment? line with
  | none => rfl
  | some assignment =>
    obtain ⟨own, value⟩ := assignment
    by_cases h : own = key
    · subst h
      simpa using content_assign_own s own value
    · simpa [h] using content_assign_other h value

theorem unkeyed_applyLine (s : Settings) (line : List Char) :
    (s.applyLine line).settingsPath = s.settingsPath ∧
      (s.applyLine line).timestamp = s.timestamp := by
  rw [applyLine]
  split
  · exact unkeyed_assign s _ _
  · exact ⟨rfl, rfl⟩

/-! ## Line after line -/

/-- The value that the last line about a key gives for it, among those that fit. -/
def lastGiven? (ls : List (List Char)) (key : Key) : Option Content :=
  ls.reverse.findSome? (given? · key)

theorem lastGiven?_cons (line : List Char) (ls : List (List Char)) (key : Key) :
    lastGiven? (line :: ls) key = (lastGiven? ls key).or (given? line key) := by
  simp [lastGiven?, List.findSome?_append]

theorem content_foldl (s : Settings) (ls : List (List Char)) (key : Key) :
    (ls.foldl applyLine s).content key = (lastGiven? ls key).getD (s.content key) := by
  induction ls generalizing s with
  | nil => rfl
  | cons line ls ih =>
    rw [List.foldl_cons, ih, content_applyLine, lastGiven?_cons]
    cases lastGiven? ls key <;> rfl

theorem unkeyed_foldl (s : Settings) (ls : List (List Char)) :
    (ls.foldl applyLine s).settingsPath = s.settingsPath ∧
      (ls.foldl applyLine s).timestamp = s.timestamp := by
  induction ls generalizing s with
  | nil => exact ⟨rfl, rfl⟩
  | cons line ls ih =>
    obtain ⟨hpath, hstamp⟩ := unkeyed_applyLine s line
    obtain ⟨hpath', hstamp'⟩ := ih (s.applyLine line)
    exact ⟨hpath'.trans hpath, hstamp'.trans hstamp⟩

/-- Two runs of lines that give the same for every key have the same effect. -/
theorem foldl_congr_of_lastGiven? {ls' : List (List Char)}
    (h : ∀ key, lastGiven? ls key = lastGiven? ls' key) :
    ls.foldl applyLine s = ls'.foldl applyLine s := by
  obtain ⟨hpath, hstamp⟩ := unkeyed_foldl s ls
  obtain ⟨hpath', hstamp'⟩ := unkeyed_foldl s ls'
  refine eq_of_content (fun key => ?_) (hpath.trans hpath'.symm) (hstamp.trans hstamp'.symm)
  rw [content_foldl, content_foldl, h key]

/-- Lines that give nothing for any key have no effect. -/
theorem applyLine_of_given?_eq_none (h : ∀ key, given? line key = none) :
    s.applyLine line = s := by
  obtain ⟨hpath, hstamp⟩ := unkeyed_applyLine s line
  refine eq_of_content (fun key => ?_) hpath hstamp
  rw [content_applyLine, h key, Option.getD_none]

theorem assignment?_trimEnd (line : List Char) :
    assignment? (trimEnd line) = assignment? line := by
  rw [assignment?, assignment?, trim_trimEnd]

theorem applyLine_trimEnd (s : Settings) (line : List Char) :
    s.applyLine (trimEnd line) = s.applyLine line := by
  rw [applyLine, applyLine, assignment?_trimEnd]

theorem foldl_map_trimEnd (s : Settings) (ls : List (List Char)) :
    (ls.map trimEnd).foldl applyLine s = ls.foldl applyLine s := by
  rw [List.foldl_map]
  simp only [applyLine_trimEnd]

/-- A text is taken into account part by part. -/
theorem applyText_append_newline (s : Settings) (a b : List Char) :
    s.applyText (a ++ '\n' :: b) = (s.applyText a).applyText b := by
  obtain ⟨gap, hgap, e⟩ := lines_append_newline a b
  have hblank : ∀ s : Settings, gap.foldl applyLine s = s := by
    clear e
    intro s
    induction gap with
    | nil => rfl
    | cons line gap ih =>
      obtain ⟨hline, hrest⟩ := List.forall_mem_cons.mp hgap
      rw [List.foldl_cons, hline]
      exact ih hrest
  simp only [applyText]
  rw [← foldl_map_trimEnd, e, List.foldl_append, List.foldl_append, hblank, foldl_map_trimEnd,
    foldl_map_trimEnd]

/-! ## What lines are about -/

/-- The line gives this value for the key: the name of the key stands in front of the first equals
sign and the value behind it. Blanks and quotes around the value do not count. -/
def Assigns (line : List Char) (key : Key) (value : List Char) : Prop :=
  ∃ left right, trim line = left ++ '=' :: right ∧ '=' ∉ left ∧
    trim left = key.name.toList ∧ value = stripBoth '"' (trim right)

/-- The value that the line gives for the key fits it. -/
def Sets (line : List Char) (key : Key) (c : Content) : Prop :=
  ∃ value, Assigns line key value ∧ key.kind.read? value = some c

/-- No name of a key looks like a comment. -/
theorem Assigns.head?_ne (h : Assigns line key value) : (trim line).head? ≠ some '#' := by
  obtain ⟨left, right, hline, -, hname, -⟩ := h
  rw [hline]
  cases left with
  | nil => simp
  | cons c left =>
    intro hhead
    obtain rfl : c = '#' := Option.some.inj hhead
    rw [trim_cons_of_not_blank rfl] at hname
    have hkey : key.name.toList.head? ≠ some '#' := by cases key <;> decide
    exact hkey (hname ▸ rfl)

theorem assignment?_eq_some : assignment? line = some (key, value) ↔ Assigns line key value := by
  constructor
  · intro h
    rw [assignment?] at h
    split at h
    · cases h
    · obtain ⟨⟨left, right⟩, hsplit, h⟩ := Option.bind_eq_some_iff.mp h
      obtain ⟨own, hname, h⟩ := Option.bind_eq_some_iff.mp h
      cases h
      obtain ⟨hline, hfirst⟩ := splitFirst_eq_some.mp hsplit
      refine ⟨left, right, hline, hfirst, ?_, rfl⟩
      rw [← ofName?_eq_some.mp hname, String.toList_ofList]
  · intro h
    have hhead := h.head?_ne
    obtain ⟨left, right, hline, hfirst, hname, rfl⟩ := h
    have hread : ¬((trim line).isEmpty || (trim line).head? = some '#') = true := by
      simpa [hhead] using fun e : trim line = [] => by simp [e] at hline
    have hkey : Key.ofName? (String.ofList (trim left)) = some key := by
      rw [ofName?_eq_some, hname, String.ofList_toList]
    rw [assignment?, if_neg hread]
    exact Option.bind_eq_some_iff.mpr ⟨(left, right), splitFirst_eq_some.mpr ⟨hline, hfirst⟩,
      Option.bind_eq_some_iff.mpr ⟨key, hkey, rfl⟩⟩

/-- A line is about one key and gives one value for it. -/
theorem Assigns.unique {value' : List Char} (h : Assigns line key value)
    (h' : Assigns line other value') : key = other ∧ value = value' := by
  have e := (assignment?_eq_some.mpr h).symm.trans (assignment?_eq_some.mpr h')
  simpa using e

theorem given?_eq_some {c : Content} : given? line key = some c ↔ Sets line key c := by
  rw [given?, Option.bind_eq_some_iff]
  constructor
  · rintro ⟨⟨own, value⟩, hline, hread⟩
    obtain ⟨rfl, hread⟩ : own = key ∧ key.kind.read? value = some c := by simpa using hread
    exact ⟨value, assignment?_eq_some.mp hline, hread⟩
  · rintro ⟨value, hline, hread⟩
    exact ⟨(key, value), assignment?_eq_some.mpr hline, by simpa using hread⟩

theorem given?_eq_none : given? line key = none ↔ ∀ c, ¬Sets line key c := by
  simp only [← given?_eq_some, Option.eq_none_iff_forall_ne_some, ne_eq]

inductive Idle (line : List Char) : Prop
  | comment (h : (trim line).head? = some '#')
  | malformed (h : '=' ∉ trim line)
  | unknown {left right : List Char} (split : trim line = left ++ '=' :: right)
    (first : '=' ∉ left) (h : ∀ key : Key, trim left ≠ key.name.toList)
  | unfit {key : Key} {value : List Char} (assigns : Assigns line key value)
    (h : key.kind.read? value = none)

theorem Idle.not_sets (h : Idle line) (key : Key) (c : Content) : ¬Sets line key c := by
  rintro ⟨value, hassigns, hread⟩
  cases h with
  | comment h => exact hassigns.head?_ne h
  | malformed h =>
    obtain ⟨left, right, hline, -⟩ := hassigns
    exact h (by simp [hline])
  | unknown split first h =>
    obtain ⟨left, right, hline, hfirst, hname, -⟩ := hassigns
    cases (splitFirst_eq_some.mpr ⟨hline, hfirst⟩).symm.trans
      (splitFirst_eq_some.mpr ⟨split, first⟩)
    exact h key hname
  | unfit assigns h =>
    obtain ⟨rfl, rfl⟩ := hassigns.unique assigns
    cases hread.symm.trans h

theorem Idle.applyLine_eq (h : Idle line) (s : Settings) : s.applyLine line = s :=
  applyLine_of_given?_eq_none fun key => given?_eq_none.mpr (h.not_sets key)

/-- Lines about different keys may change places. -/
theorem applyLine_comm {first second : List Char}
    (h : ∀ key value value', Assigns first key value → ¬Assigns second key value') :
    (s.applyLine first).applyLine second = (s.applyLine second).applyLine first := by
  change [first, second].foldl applyLine s = [second, first].foldl applyLine s
  refine foldl_congr_of_lastGiven? fun key => ?_
  have hapart : given? first key = none ∨ given? second key = none := by
    by_contra hboth
    obtain ⟨hfirst, hsecond⟩ := not_or.mp hboth
    obtain ⟨c, hc⟩ := Option.ne_none_iff_exists'.mp hfirst
    obtain ⟨c', hc'⟩ := Option.ne_none_iff_exists'.mp hsecond
    obtain ⟨value, hassigns, -⟩ := given?_eq_some.mp hc
    obtain ⟨value', hassigns', -⟩ := given?_eq_some.mp hc'
    exact h key value value' hassigns hassigns'
  simp only [lastGiven?_cons]
  rcases hapart with hnone | hnone <;> simp [hnone, lastGiven?]

/-- The last line that sets a key decides, if there is one. -/
theorem lastGiven?_cases (ls : List (List Char)) (key : Key) :
    (∃ before line after c, ls = before ++ line :: after ∧ Sets line key c ∧
      (∀ later ∈ after, ∀ c', ¬Sets later key c') ∧ lastGiven? ls key = some c) ∨
    ((∀ line ∈ ls, ∀ c, ¬Sets line key c) ∧ lastGiven? ls key = none) := by
  cases hlast : lastGiven? ls key with
  | none =>
    refine Or.inr ⟨fun line hline => given?_eq_none.mp ?_, rfl⟩
    exact List.findSome?_eq_none_iff.mp hlast line (List.mem_reverse.mpr hline)
  | some c =>
    obtain ⟨after, line, before, hsplit, hline, hafter⟩ := List.findSome?_eq_some_iff.mp hlast
    refine Or.inl ⟨before.reverse, line, after.reverse, c, ?_, given?_eq_some.mp hline,
      fun later hlater => given?_eq_none.mp (hafter later (List.mem_reverse.mp hlater)), rfl⟩
    simpa using congrArg List.reverse hsplit

/-- **Independent lines.** A text is taken into account part by part. Neighbouring lines about
different keys may change places, and a line that sets nothing may be left out. What is held under
a key afterwards is what the last line about it says whose value fits it, as every value does for a
text or a switch; if there is no such line, it is what was held before. -/
theorem settings_lines_independent (s : Settings) :
    (∀ a b, s.applyText (a ++ '\n' :: b) = (s.applyText a).applyText b) ∧
    (∀ a b before first second after, lines a = before ++ first :: second :: after →
      lines b = before ++ second :: first :: after →
      (∀ key value value', Assigns first key value → ¬Assigns second key value') →
      s.applyText a = s.applyText b) ∧
    (∀ a b before line after, lines a = before ++ line :: after → lines b = before ++ after →
      Idle line → s.applyText a = s.applyText b) ∧
    (∀ text key,
      (∃ before line after c, lines text = before ++ line :: after ∧ Sets line key c ∧
        (∀ later ∈ after, ∀ c', ¬Sets later key c') ∧ (s.applyText text).content key = c) ∨
      ((∀ line ∈ lines text, ∀ c, ¬Sets line key c) ∧
        (s.applyText text).content key = s.content key)) ∧
    (∀ line key value, Assigns line key value → key.kind = .text ∨ key.kind = .flag →
      ∃ c, Sets line key c) ∧
    ∀ text, (s.applyText text).settingsPath = s.settingsPath ∧
      (s.applyText text).timestamp = s.timestamp := by
  refine ⟨applyText_append_newline s, ?swap, ?idle, ?last, ?fits,
    fun text => unkeyed_foldl s (lines text)⟩
  case swap =>
    intro a b before first second after ha hb hapart
    rw [applyText, applyText, ha, hb]
    simp only [List.foldl_append, List.foldl_cons]
    rw [applyLine_comm hapart]
  case idle =>
    intro a b before line after ha hb hidle
    rw [applyText, applyText, ha, hb]
    simp only [List.foldl_append, List.foldl_cons]
    rw [hidle.applyLine_eq]
  case last =>
    intro text key
    rw [applyText, content_foldl]
    rcases lastGiven?_cases (lines text) key with
      ⟨before, line, after, c, hsplit, hsets, hafter, hlast⟩ | ⟨hnone, hlast⟩
    · exact Or.inl ⟨before, line, after, c, hsplit, hsets, hafter, by rw [hlast, Option.getD_some]⟩
    · exact Or.inr ⟨hnone, by rw [hlast, Option.getD_none]⟩
  case fits =>
    rintro line key value hassigns (hkind | hkind)
    · exact ⟨_, value, hassigns, by rw [hkind, Kind.read?]⟩
    · exact ⟨_, value, hassigns, by rw [hkind, Kind.read?]⟩

/-- A full dump every week, and no time of day in the stamp of a run. -/
def weekly : List Char := "DUMPCYCLE=\"7\"\nUSETIMESTAMPS=no".toList

/-- The order of these two lines does not count, nor do a comment between them and what cannot be
a dump cycle. -/
theorem weekly_lines_independent :
    ({} : Settings).applyText weekly =
      ({} : Settings).applyText "USETIMESTAMPS=no\nDUMPCYCLE=\"7\"".toList ∧
    ({} : Settings).applyText "DUMPCYCLE=\"7\"\n# DUMPCYCLE=10\nUSETIMESTAMPS=no".toList =
      ({} : Settings).applyText weekly ∧
    ({} : Settings).applyText (weekly ++ '\n' :: "DUMPCYCLE=fortnight".toList) =
      (({} : Settings).applyText weekly).applyText "DUMPCYCLE=fortnight".toList ∧
    ∃ c, Sets "USETIMESTAMPS=no".toList .useTimestamps c := by
  obtain ⟨happend, hswap, hidle, -, hfits, -⟩ := settings_lines_independent {}
  have hcycle : Assigns "DUMPCYCLE=\"7\"".toList .dumpCycle "7".toList :=
    assignment?_eq_some.mp rfl
  have hstamps : Assigns "USETIMESTAMPS=no".toList .useTimestamps "no".toList :=
    assignment?_eq_some.mp rfl
  refine ⟨hswap _ _ [] _ _ [] rfl rfl fun key value value' h h' => ?_,
    hidle _ _ ["DUMPCYCLE=\"7\"".toList] _ ["USETIMESTAMPS=no".toList] rfl rfl (.comment rfl),
    happend _ _, hfits _ _ _ hstamps (Or.inr rfl)⟩
  have hkeys : Key.dumpCycle = .useTimestamps :=
    (hcycle.unique h).1.trans (hstamps.unique h').1.symm
  cases hkeys

end Settings

end NightlyBackup
