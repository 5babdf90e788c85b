import NightlyBackup.Proofs.Answers
import NightlyBackup.Proofs.TakingApart

/-!
Requests for sizes. A host that is ready and whose features are known is asked about all its disks
at once. Every disk that was to be asked about leaves the start queue: it waits for the answer, it
is settled by its history, or it fails because nobody can size it. The request is two lines about
the host and one line for each level of each disk that waits.
-/

namespace NightlyBackup

open Night Planning Text

variable {n m k : Night} {h id : Nat} {features : FeatureSet} {p : DiskPlan} {e : LevelEstimate}
  {fail : Fault → Night → Prop}

/-! ## What there is to ask -/

namespace Planning

/-- A record that a verdict puts on the start queue has levels to ask for. -/
theorem Verdicted.levels_ne_nil {history : History} (hv : Verdicted n id history m)
    (hp : m.place id = some .start) : (m.plan id).levels ≠ [] := by
  cases hv with
  | asked s r today runs judged strategy becomes =>
    obtain ⟨-, -, -, hlevels⟩ := Outlook.considered_of_judge judged
    rw [becomes.plan]
    simpa [takeOutlook] using hlevels
  | failed d reason becomes => cases becomes.place.symm.trans hp
  | leftOut d sound only hosts place skips plan => cases place.symm.trans hp

/-- Every disk that is to be asked about has levels to ask for. -/
theorem leads_prepareAll_start {disks : List Disk} (hn : n.Fresh disks) (store : Store) :
    Leads (prepareAll store) n
      (fun _ m => ∀ id < n.plans.length, m.place id = some .start → (m.plan id).levels ≠ [])
      anyhow := by
  refine leads_prepareAll_each (Q := fun _ p q => q = some .start → p.levels ≠ []) hn store ?_
  exact fun id _ m history hs hlt hp _ _ =>
    (leads_prepare_verdicted hs hlt hp history).imp fun _ _ hv => hv.levels_ne_nil

end Planning

/-- A disk that is still to be asked about has levels to ask for, each with a date as watermark. -/
theorem Reached.asks {settings : Settings} {disks : List Disk} {rotation : Rotation} {today : Int}
    {store : Store} {n₀ : Night} {t : Talks}
    (hbegin : Night.begin settings disks rotation today = .ok n₀)
    (hprepare : prepareAll store n₀ = .ok () n) (hr : Reached n m t)
    (hp : m.place id = some .start) : (m.plan id).levels ≠ [] ∧
      ∀ e ∈ (m.plan id).levels, ∃ moment, e.watermark = Calendar.watermark moment := by
  have hfresh := fresh_of_begin hbegin
  have hsetUp := (leads_prepareAll hfresh store).ok hprepare
  have hm := hr.inTurn (hsetUp.same.hosted hfresh.hosted) (.begin hfresh hsetUp)
  have hstart : n.place id = some .start := (hp ▸ hm.conversing.standing id).of_start.1
  have hid : id < n₀.plans.length := hsetUp.same.length ▸ hsetUp.sound.lt_of_place hstart
  have hlevels : (n.plan id).levels ≠ [] :=
    (leads_prepareAll_start hfresh store).ok hprepare id hid hstart
  have hterms : (m.plan id).terms = (n.plan id).terms := hr.steps.plan (fun _ hf => hf) id
  have hsome : (m.plan id).levels ≠ [] :=
    fun hnone => hlevels ((DiskPlan.levels_eq_nil_iff hterms).mp hnone)
  obtain ⟨d, history, hlaid⟩ := hr.laidDown hbegin hprepare hsome
  exact ⟨hsome, fun e he => ⟨_, hlaid.watermark (List.mem_map_of_mem he)⟩⟩

/-! ## Lines -/

structure LineWord (s : String) : Prop where
  word : Word s
  unbroken : Unbroken s

theorem lineWord_of_bare {s : String} (hs : Bare s) (hne : s ≠ "") : LineWord s :=
  ⟨hs.word hne, hs.unbroken⟩

theorem lineWord_quote (s : String) : LineWord (quote s) := ⟨word_quote s, unbroken_quote s⟩

theorem lineWord_toString_int (i : Int) : LineWord (toString i) :=
  ⟨word_toString_int i, (bare_toString_int i).unbroken⟩

namespace DiskPlan

def Askable (p : DiskPlan) : Prop :=
  p.disk.clientSource.isSome ∧ hasEstimateLines p.disk.program

instance (p : DiskPlan) : Decidable p.Askable := inferInstanceAs (Decidable (_ ∧ _))

def requestWords (p : DiskPlan) (features : FeatureSet) (e : LevelEstimate) : List String :=
  (if p.disk.clientSource = some .calcsize ∧ features.has .calcsize then ["CALCSIZE"] else [])
    ++ [p.disk.program, quote p.disk.name, quote (p.disk.device.getD p.disk.name),
      toString e.level, e.watermark, toString p.disk.spindle]
    ++ (if features.has .requestOptions then ["OPTIONS", "|" ++ programOptions p.disk] else [])

def requestText (p : DiskPlan) (features : FeatureSet) (e : LevelEstimate) : String :=
  joinWith " " (p.requestWords features e)

theorem requestLines_of_askable (ha : p.Askable) (features : FeatureSet) :
    p.requestLines features = p.levels.map (p.requestText features · ++ "\n") := by
  obtain ⟨hsource, hlines⟩ := ha
  obtain ⟨source, hsource⟩ := Option.isSome_iff_exists.mp hsource
  have hlead : ∀ s : String, " " ++ ("OPTIONS " ++ ("|" ++ s)) = " OPTIONS |" ++ s := fun s => by
    rw [← String.append_assoc, ← String.append_assoc]
    exact congrArg (· ++ s) (by decide)
  simp only [requestLines, hsource, if_pos hlines]
  refine List.map_congr_left fun e _ => ?_
  rw [requestLine, requestText, requestWords, hsource]
  cases source <;> cases hcalcsize : features.has .calcsize <;>
    cases hoptions : features.has .requestOptions <;>
    simp [usedSource, hcalcsize, joinWith, String.append_assoc, hlead]

theorem requestLines_of_not_askable (ha : ¬p.Askable) (features : FeatureSet) :
    p.requestLines features = [] := by
  unfold requestLines
  split
  · rfl
  · rename_i source hsource
    exact if_neg fun hlines => ha ⟨by simp [hsource], hlines⟩

theorem requestLines_eq_nil (hlevels : p.levels ≠ []) :
    p.requestLines features = [] ↔ ¬p.Askable := by
  refine ⟨fun hnone ha => ?_, fun ha => requestLines_of_not_askable ha features⟩
  rw [requestLines_of_askable ha, List.map_eq_nil_iff] at hnone
  exact hlevels hnone

/-- Where a request takes a disk with levels to ask for. -/
theorem afterRequest_eq (hlevels : p.levels ≠ []) : p.afterRequest features =
    if p.Askable then if p.disk.serverSized then .partialEstimate else .waiting
    else if p.disk.serverSized then .estimated else .failed := by
  by_cases ha : p.Askable
  · rw [afterRequest, if_neg fun hnone => (requestLines_eq_nil hlevels).mp hnone ha, if_pos ha]
  · rw [afterRequest, if_pos (requestLines_of_not_askable ha features), if_neg ha]

theorem bare_programOptions (d : Disk) : Bare ("|" ++ programOptions d) := by
  unfold programOptions
  cases d.compress <;> cases d.encrypt <;> decide

theorem lineWord_requestWords (ha : p.Askable) (hmark : LineWord e.watermark) :
    ∀ word ∈ p.requestWords features e, LineWord word := by
  have hprogram : LineWord p.disk.program := by
    have hlines := ha.2
    simp only [hasEstimateLines, Bool.or_eq_true, decide_eq_true_eq] at hlines
    rcases hlines with e | e <;> rw [e] <;> exact lineWord_of_bare (by decide) (by decide)
  have hoptions : LineWord ("|" ++ programOptions p.disk) :=
    lineWord_of_bare (bare_programOptions p.disk) (by simp)
  intro word hword
  simp only [requestWords, List.mem_append, List.mem_cons, List.not_mem_nil, or_false] at hword
  rcases hword with (hsource | rfl | rfl | rfl | rfl | rfl | rfl) | hwords
  · split at hsource
    · rw [List.mem_singleton.mp hsource]
      exact lineWord_of_bare (by decide) (by decide)
    · cases hsource
  · exact hprogram
  · exact lineWord_quote _
  · exact lineWord_quote _
  · exact lineWord_toString_int e.level
  · exact hmark
  · exact lineWord_toString_int _
  · split at hwords
    · simp only [List.mem_cons, List.not_mem_nil, or_false] at hwords
      rcases hwords with rfl | rfl
      · exact lineWord_of_bare (by decide) (by decide)
      · exact hoptions
    · cases hwords

/-- A line of a request is taken apart into its words again. -/
theorem words_requestText (ha : p.Askable) (hmark : LineWord e.watermark) :
    words (p.requestText features e) = p.requestWords features e := by
  have hall : ∀ word ∈ p.requestWords features e, LineWord word := lineWord_requestWords ha hmark
  rw [requestText, words_joinWith fun word hword => (hall word hword).word.closed]
  exact List.filter_eq_self.mpr fun word hword => decide_eq_true (hall word hword).word.filled

theorem unbroken_requestText (ha : p.Askable) (hmark : LineWord e.watermark) :
    Unbroken (p.requestText features e) :=
  unbroken_joinWith unbroken_blank fun word hword =>
    (lineWord_requestWords ha hmark word hword).unbroken

end DiskPlan

/-! ## Texts of requests -/

def Night.requestOptions (m : Night) (h : Nat) (features : FeatureSet) : String :=
  let told (feature : Feature) (option : String) : String :=
    if features.has feature then option ++ ";" else ""
  "OPTIONS " ++ (told .featuresOption ("features=" ++ FeatureSet.ours.toHex)
    ++ told .maxDumpsOption ("maxdumps=" ++ toString (m.host h).maxDumps)
    ++ told .hostnameOption ("hostname=" ++ (m.host h).name)
    ++ told .configOption ("config=" ++ m.settings.name))

/-- A request for sizes begins with two lines. -/
theorem requestHead_eq (m : Night) (h : Nat) (features : FeatureSet) :
    requestHead m h features = writtenText ["SERVICE sendsize", m.requestOptions h features] := by
  have hlines : ∀ {both first second : String} (a b c d : String),
      both = first ++ "\n" ++ second →
      both ++ a ++ b ++ c ++ d ++ "\n" = writtenText [first, second ++ (a ++ b ++ c ++ d)] := by
    rintro _ first second a b c d rfl
    simp [writtenText, String.append_assoc]
  exact hlines _ _ _ _ (by decide)

/-- The second of these lines is broken only by the name of the host or of the configuration. -/
theorem unbroken_requestOptions (hhost : Unbroken (m.host h).name)
    (hsettings : Unbroken m.settings.name) : Unbroken (m.requestOptions h features) := by
  have htold : ∀ {feature : Feature} {option : String}, Unbroken option →
      Unbroken (if features.has feature then option ++ ";" else "") := by
    intro feature option hoption
    split
    · exact hoption.append (by decide)
    · decide
  refine Unbroken.append (by decide) (((Unbroken.append ?_ ?_).append ?_).append ?_)
  · exact htold (Unbroken.append (by decide) (FeatureSet.bare_toHex _).unbroken)
  · exact htold (Unbroken.append (by decide) (unbroken_toString _))
  · exact htold (Unbroken.append (by decide) hhost)
  · exact htold (Unbroken.append (by decide) hsettings)

/-! ## The request -/

/-- A record on the failed queue has a reason. -/
theorem Conversing.fault_of_failed {named : List Nat} (hc : Conversing named n m)
    (hp : m.place id = some .failed) : (m.plan id).fault.isSome := by
  rcases hp ▸ hc.standing id with ⟨-, hin⟩ | haside
  · cases hin with
    | failed progress place fault => exact fault
    | ready progress place => cases place
    | named progress place mem => cases place
    | waiting progress place => cases place
    | answering progress place => cases place
    | estimated progress place => cases place
  · rcases haside.why with e | ⟨-, fault⟩
    · cases haside.place.trans e
    · exact fault

def Night.newlyAwaiting (m k : Night) (h : Nat) : List Nat :=
  (m.host h).disks.filter fun id =>
    m.place id = some .start ∧ (k.place id = some .waiting ∨ k.place id = some .partialEstimate)

/-- The disks that wait for the answer are those that the request names. -/
theorem newlyAwaiting_eq
    (hplaces : ∀ id ∈ (m.host h).disks, k.place id = m.placeAsked features id) :
    m.newlyAwaiting k h = m.requested h features := by
  refine List.filter_congr fun id hid => decide_eq_decide.mpr ?_
  rw [hplaces id hid]
  refine and_congr_right fun hp => ?_
  rw [placeAsked, if_pos hp, DiskPlan.afterRequest]
  split
  · rename_i hnone
    split <;> simp [hnone]
  · rename_i hlines
    split <;> simp [hlines]

/-- The levels of a disk are asked for in the same words before and after the request. -/
theorem requestWords_congr {p' : DiskPlan} (hdisk : p'.disk = p.disk)
    (hterms : p'.terms = p.terms) :
    p'.levels.map (p'.requestWords features) = p.levels.map (p.requestWords features) := by
  have hwords : ∀ q : DiskPlan, q.disk = p.disk → q.levels.map (q.requestWords features) =
      q.terms.levels.map fun about =>
        p.requestWords features { level := about.1, watermark := about.2 } := by
    intro q hq
    simp only [DiskPlan.terms, List.map_map]
    refine List.map_congr_left fun e _ => ?_
    simp only [DiskPlan.requestWords, hq, Function.comp_apply]
  rw [hwords p' hdisk, hterms, ← hwords p rfl]

def Night.requestTexts (m : Night) (h : Nat) (features : FeatureSet) : List String :=
  (m.requested h features).flatMap fun id =>
    (m.plan id).levels.map ((m.plan id).requestText features)

theorem askable_of_requested (hid : id ∈ m.requested h features) : (m.plan id).Askable := by
  by_contra hnot
  exact (mem_requested.mp hid).2.2 (DiskPlan.requestLines_of_not_askable hnot features)

/-- What is sent is a text of two lines about the host and the lines about disks, and the host has
time for as many lines. -/
theorem eq_of_sizesRequest {r : HostRequest} (hr : m.sizesRequest h features = some r) :
    r = { host := h
          hostName := (m.host h).name
          kind := .sizes
          body := writtenText (["SERVICE sendsize", m.requestOptions h features]
            ++ m.requestTexts h features)
          timeout := m.settings.sizesTimeout (m.requestTexts h features).length } := by
  obtain ⟨-, hr⟩ := Option.ite_none_left_eq_some.mp hr
  have hlines : (m.requested h features).flatMap (fun id => (m.plan id).requestLines features) =
      (m.requestTexts h features).map (· ++ "\n") := by
    rw [requestTexts, List.map_flatMap]
    refine List.flatMap_congr fun id hid => ?_
    rw [DiskPlan.requestLines_of_askable (askable_of_requested hid), List.map_map]
    rfl
  rw [← Option.some.inj hr, hlines, List.length_map, writtenText_append, requestHead_eq]
  rfl

section
variable (hmarks : ∀ id ∈ m.requested h features, ∀ e ∈ (m.plan id).levels, LineWord e.watermark)
include hmarks

theorem unbroken_requestTexts : ∀ line ∈ m.requestTexts h features, Unbroken line := by
  intro line hline
  obtain ⟨id, hid, hline⟩ := List.mem_flatMap.mp hline
  obtain ⟨e, he, rfl⟩ := List.mem_map.mp hline
  exact DiskPlan.unbroken_requestText (askable_of_requested hid) (hmarks id hid e he)

theorem words_requestTexts : (m.requestTexts h features).map words =
    (m.requested h features).flatMap fun id =>
      (m.plan id).levels.map ((m.plan id).requestWords features) := by
  rw [requestTexts, List.map_flatMap]
  refine List.flatMap_congr fun id hid => ?_
  rw [List.map_map]
  refine List.map_congr_left fun e he => ?_
  exact DiskPlan.words_requestText (askable_of_requested hid) (hmarks id hid e he)

end

/-- **The request covers the disks that wait.** When a host that is ready and whose features are
known is asked for sizes, every disk of it that was to be asked about leaves the start queue: one
that the host can be asked about awaits the answer, with or without sizes from its history; another
is estimated by its history, or it fails with a reason. A request is made if and only if a disk
goes to await the answer. It is two lines about the host, and one line for each level of each of
these disks, in the order of the disks and of the levels, and the host has the time for as many
lines. -/
theorem request_covers_waiting {settings : Settings} {disks : List Disk} {rotation : Rotation}
    {today : Int} {store : Store} {n₀ : Night} {t : Talks}
    (hbegin : Night.begin settings disks rotation today = .ok n₀)
    (hprepare : prepareAll store n₀ = .ok () n) (hreached : Reached n m t)
    (hready : (m.host h).state = .ready) (hfeatures : (m.host h).features = some features) :
    ∃ asked k, request h m = .ok asked k ∧
      (∀ id ∈ (m.host h).disks, m.place id = some .start →
        k.place id = some (if (m.plan id).Askable then
            if (m.plan id).disk.serverSized then .partialEstimate else .waiting
          else if (m.plan id).disk.serverSized then .estimated else .failed) ∧
        (k.place id = some .failed → (k.plan id).fault.isSome)) ∧
      (asked.isSome ↔ m.newlyAwaiting k h ≠ []) ∧
      ∀ r ∈ asked, r.host = h ∧ r.hostName = (m.host h).name ∧ r.kind = .sizes ∧
        ∃ lines, r.body = writtenText (["SERVICE sendsize", m.requestOptions h features] ++ lines) ∧
          (Unbroken (m.host h).name → Unbroken m.settings.name →
            readLines r.body =
              (["SERVICE sendsize", m.requestOptions h features] ++ lines).map (· ++ "\n")) ∧
          lines.map words = (m.newlyAwaiting k h).flatMap (fun id =>
            (k.plan id).levels.map ((k.plan id).requestWords features)) ∧
          r.timeout = m.settings.sizesTimeout lines.length := by
  have hfresh := fresh_of_begin hbegin
  have hsetUp := (leads_prepareAll hfresh store).ok hprepare
  have hn := hsetUp.same.hosted hfresh.hosted
  have hc := (hreached.inTurn hn (.begin hfresh hsetUp)).conversing
  obtain ⟨asked, k, hask, hk, -, hplaces, hrequest⟩ :=
    (leads_request_known hn hc hready hfeatures : Leads _ _ _ never).exists_ok
  have hnew : m.newlyAwaiting k h = m.requested h features := newlyAwaiting_eq hplaces
  refine ⟨asked, k, hask, fun id hid hp => ⟨?_, fun hfailed => ?_⟩, ?_, fun r hr => ?_⟩
  · rw [hplaces id hid, placeAsked, if_pos hp,
      DiskPlan.afterRequest_eq (hreached.asks hbegin hprepare hp).1]
  · exact hk.fault_of_failed hfailed
  · rw [hnew, hrequest, ne_eq, ← sizesRequest_eq_none, Option.isSome_iff_ne_none]
  · obtain rfl := eq_of_sizesRequest (hrequest ▸ hr)
    have hmarks : ∀ id ∈ m.requested h features, ∀ e ∈ (m.plan id).levels,
        LineWord e.watermark := by
      intro id hid e he
      obtain ⟨moment, hmark⟩ :=
        (hreached.asks hbegin hprepare (mem_requested.mp hid).2.1).2 e he
      rw [hmark]
      exact ⟨Calendar.word_watermark moment, (Calendar.bare_watermark moment).unbroken⟩
    refine ⟨rfl, rfl, rfl, m.requestTexts h features, rfl, fun hhost hsettings => ?_, ?_, rfl⟩
    · refine readLines_writtenText fun line hline => ?_
      rcases List.mem_append.mp hline with hline | hline
      · simp only [List.mem_cons, List.not_mem_nil, or_false] at hline
        rcases hline with rfl | rfl
        · decide
        · exact unbroken_requestOptions hhost hsettings
      · exact unbroken_requestTexts hmarks line hline
    · rw [hnew, words_requestTexts hmarks]
      have hquestion := ((confined_request hn).leaves ⟨hc.sound, hc.same⟩ hask).question
      refine List.flatMap_congr fun id _ => (requestWords_congr ?_ ?_).symm
      · exact congrArg Question.disk (hquestion id)
      · exact ((within_request.onTerms m).ok hask).plan (fun _ hf => hf) id

/-- Disks that are sized by their host, by their host and their history, by their history since
their host cannot, and not at all. -/
def manyWays : List Disk :=
  [Disk.plain "alpha" "/home" 10 default,
    { Disk.plain "alpha" "/srv" 10 default with sizeSources := [.server, .client] },
    { Disk.plain "alpha" "/opt" 10 default with
      sizeSources := [.server, .client]
      program := "STAR" },
    { Disk.plain "alpha" "/db" 10 default with program := "STAR" }]

set_option synthInstance.maxSize 512 in
/-- A host has one disk for each way that a disk can go. -/
theorem request_covers_waiting_of_many : ∃ n₀ n m t r k,
    Night.begin {} manyWays default 0 = .ok n₀ ∧ prepareAll {} n₀ = .ok () n ∧ Reached n m t ∧
    request 0 m = .ok (some r) k ∧ k.place 0 = some .waiting ∧
    k.place 1 = some .partialEstimate ∧ k.place 2 = some .estimated ∧ k.place 3 = some .failed ∧
    ∃ lines, r.body = writtenText (["SERVICE sendsize", m.requestOptions 0 {}] ++ lines) ∧
      lines.map words = [["GNUTAR", "/home", "/home", "0", "1970:1:1:0:0:0", "-1"],
        ["GNUTAR", "/srv", "/srv", "0", "1970:1:1:0:0:0", "-1"]] ∧
      r.timeout = m.settings.sizesTimeout 2 := by
  obtain ⟨n₀, hbegin, hrun⟩ : ∃ n₀, Night.begin {} manyWays default 0 = .ok n₀ ∧
      Leads (prepareAll {}) n₀ (fun _ n => n.hosts.length = 1 ∧
        Leads (do
            let _ ← (Turn.ask 0).act
            (Turn.packet 0 ⟨.rep, ""⟩).act) n
          (fun _ m => (m.host 0).state = .ready ∧ (m.host 0).features = some {} ∧
            (m.host 0).disks = [0, 1, 2, 3] ∧ (∀ id < 4, m.place id = some .start) ∧
            ((m.plan 0).Askable ∧ ¬(m.plan 0).disk.serverSized) ∧
            ((m.plan 1).Askable ∧ (m.plan 1).disk.serverSized) ∧
            (¬(m.plan 2).Askable ∧ (m.plan 2).disk.serverSized) ∧
            (¬(m.plan 3).Askable ∧ ¬(m.plan 3).disk.serverSized) ∧
            Leads (request 0) m (fun _ k =>
              (k.plan 0).levels.map ((k.plan 0).requestWords {}) =
                [["GNUTAR", "/home", "/home", "0", "1970:1:1:0:0:0", "-1"]] ∧
              (k.plan 1).levels.map ((k.plan 1).requestWords {}) =
                [["GNUTAR", "/srv", "/srv", "0", "1970:1:1:0:0:0", "-1"]]) never)
          never) never :=
    ⟨_, rfl, by decide +kernel⟩
  obtain ⟨_, n, hprepare, hhosts, hrun⟩ := hrun.exists_ok
  obtain ⟨_, m, hasked, hready, hfeatures, hdisks, hstart, h0, h1, h2, h3, hrun⟩ := hrun.exists_ok
  obtain ⟨_, a, hprobe, hprobed⟩ := ok_of_bind hasked
  have hdue : (Talks.begin n).Allows (.ask 0) := by simp [Talks.Allows, Talks.begin, hhosts]
  have hreached := (Reached.begin.turn hdue hprobe).turn
    (show (Talks.after _ _ _).Allows (.packet 0 ⟨.rep, ""⟩) by trivial) hprobed
  obtain ⟨asked, k, hask, hplaces, hsome, hsent⟩ :=
    request_covers_waiting hbegin hprepare hreached hready hfeatures
  obtain ⟨hwords0, hwords1⟩ := hrun.ok hask
  have hplace := fun id (hid : id < 4) =>
    (hplaces id (by rw [hdisks]; simp; omega) (hstart id hid)).1
  have hp0 := hplace 0 (by decide)
  have hp1 := hplace 1 (by decide)
  have hp2 := hplace 2 (by decide)
  have hp3 := hplace 3 (by decide)
  simp only [h0, h1, h2, h3, if_true, if_false] at hp0 hp1 hp2 hp3
  have hnew : m.newlyAwaiting k 0 = [0, 1] := by
    simp [Night.newlyAwaiting, hdisks, hstart, hp0, hp1, hp2, hp3]
  obtain ⟨r, rfl⟩ := Option.isSome_iff_exists.mp (hsome.mpr (by simp [hnew]))
  obtain ⟨-, -, -, lines, hbody, -, hwords, htimeout⟩ := hsent r rfl
  have hboth : lines.map words = [["GNUTAR", "/home", "/home", "0", "1970:1:1:0:0:0", "-1"],
      ["GNUTAR", "/srv", "/srv", "0", "1970:1:1:0:0:0", "-1"]] := by
    rw [hwords, hnew]
    simp [hwords0, hwords1]
  have hcount : lines.length = 2 := by simpa using congrArg List.length hboth
  exact ⟨n₀, n, m, _, r, k, hbegin, hprepare, hreached, hask, hp0, hp1, hp2, hp3, lines, hbody,
    hboth, hcount ▸ htimeout⟩

end NightlyBackup
