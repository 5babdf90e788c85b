import NightlyBackup.Night.Output
import NightlyBackup.Proofs.Phases
import NightlyBackup.Proofs.ReplyLines
import NightlyBackup.Proofs.Splitting

/-!
Honest answers. A request for sizes names levels of disks, each disk by its quoted name; a host that
gives the words back with a size is understood, whatever the disks are called: the name finds the
disk, the level finds its place in the plan, and the sizes decide what becomes of the disk.
-/

namespace NightlyBackup

open Night Planning

variable {n m k : Night} {h id : Nat} {features : FeatureSet} {fail : Fault → Night → Prop}

/-! ## The request -/

namespace Planning

/-- A host with known features that is ready is asked about the sizes of all disks that can be asked
about, and every disk that was to be asked about goes where it should. -/
theorem leads_request_known (hn : n.Hosted) (hc : Conversing [] n m)
    (hready : (m.host h).state = .ready) (hfeatures : (m.host h).features = some features) :
    Leads (request h) m (fun request k => Conversing [] n k ∧ Spares h m k ∧
      (∀ id ∈ (m.host h).disks, k.place id = m.placeAsked features id) ∧
      request = m.sizesRequest h features) fail := by
  simp only [Planning.request, leads_bind, leads_get]
  rw [if_neg (by simp [hready])]
  simp only [leads_bind, leads_get]
  refine ((leads_expectAll (h := h) hn hc : Leads _ _ _ never).and
    (Within.forM (fun id _ => within_expectSizes.onTerms) m)).mono ?_ fun _ _ hf => hf.1.elim
  rintro _ k ⟨⟨hk, hm, hhosts, hall⟩, hsteps⟩
  have hhost : k.host h = m.host h := by simp only [Night.host, hhosts]
  have hrequest : k.sizesRequest h features = m.sizesRequest h features :=
    sizesRequest_eq hhost (Steps.sameRun hsteps).settings fun id hid => (hall id hid).2.1
  split
  · rename_i hleft
    have hleft : ∀ id ∈ (m.host h).disks, k.place id ≠ some .start := fun id hid =>
      of_decide_eq_true (List.all_eq_true.mp hleft id (hhost ▸ hid))
    refine ⟨hk.setState h .done, hm.trans (.setState h k .done), fun id hid => ?_, ?_⟩
    · rw [place_setHost, ← (hall id hid).2.2, placeAsked, if_neg (hleft id hid)]
    · refine (hrequest.symm.trans (sizesRequest_eq_none.mpr ?_)).symm
      refine List.eq_nil_iff_forall_not_mem.mpr fun id hid => ?_
      obtain ⟨hid, hp, -⟩ := mem_requested.mp hid
      exact hleft id (hhost ▸ hid) hp
  · rw [hhost, hfeatures]
    refine (leads_requestSizes hn hk features).imp ?_
    rintro request l ⟨hl, hkl, hplaces, -, hsent⟩
    refine ⟨hl, hm.trans hkl, fun id hid => ?_, hsent.trans hrequest⟩
    rw [hplaces id (hhost ▸ hid), (hall id hid).2.2]

/-- A host with known features is asked about the sizes of all disks that are to be asked about,
and after that these disks await the answer. -/
theorem leads_request_sizes (hn : n.Hosted) (hc : Conversing [] n m)
    (hfeatures : (m.host h).features = some features) :
    Leads (request h) m (fun request k => Conversing [] n k ∧ Spares h m k ∧
      ∀ r ∈ request, r.kind = .sizes ∧
        r.body = requestHead m h features ++ String.join
          ((m.requested h features).flatMap fun id => (m.plan id).requestLines features) ∧
        ∀ id ∈ m.requested h features, Awaits k id) fail := by
  by_cases hready : (m.host h).state = .ready
  · refine (leads_request_known hn hc hready hfeatures).imp ?_
    rintro _ k ⟨hk, hm, hplaces, rfl⟩
    refine ⟨hk, hm, fun r hr => ?_⟩
    obtain ⟨-, hr⟩ := Option.ite_none_left_eq_some.mp hr
    obtain rfl := Option.some.inj hr
    refine ⟨rfl, rfl, fun id hid => ?_⟩
    rw [Awaits, hplaces id (mem_requested.mp hid).1]
    exact placeAsked_of_requested hid
  · simp only [Planning.request, leads_bind, leads_get]
    rw [if_pos hready]
    exact ⟨hc, .refl h m, by simp⟩

end Planning

/-! ## The answer -/

/-- Where no key repeats, the entry that is found by a key is the only one with it. -/
theorem modify_findIdx? {α : Type} {key : α → Nat} {l : List α} (hd : (l.map key).Nodup) (a : Nat)
    (f : α → α) : (match l.findIdx? (key · = a) with
      | some i => l.modify i f
      | none => l) = l.map fun e => if key e = a then f e else e := by
  induction l with
  | nil => rfl
  | cons e l ih =>
    obtain ⟨he, hd⟩ := List.nodup_cons.mp hd
    rw [List.findIdx?_cons, List.map_cons]
    by_cases hkey : key e = a
    · have hrest : l.map (fun e => if key e = a then f e else e) = l := by
        refine (List.map_congr_left fun x hx => ?_).trans (List.map_id l)
        refine if_neg fun e' => he ?_
        rw [hkey, ← e']
        exact List.mem_map_of_mem hx
      simp [hkey, hrest]
    · rw [← ih hd]
      simp only [hkey, decide_false, if_false]
      cases l.findIdx? (key · = a) <;> rfl

theorem DiskPlan.levels_takeSize {p : DiskPlan} (hd : p.question.levels.Nodup) (level kb : Nat) :
    (p.takeSize level kb).levels = p.levels.map fun e =>
      if e.level = level then e.setSize (.sized kb) false else e := by
  have hpart : (kb : Int) ≠ -2 ∧ 0 ≤ (kb : Int) := ⟨by omega, by omega⟩
  rw [← modify_findIdx? hd, takeSize, if_pos (Int.natCast_nonneg level), slot?, Int.toNat_natCast]
  cases p.levels.findIdx? (·.level = level) with
  | none => rfl
  | some slot =>
    simp only [if_neg hpart.1, if_pos hpart.2, Int.toNat_natCast]
    rfl

/-- A disk is found by its name. -/
theorem find?_diskName (hnames : ((m.host h).disks.map m.diskName).Nodup)
    (hid : id ∈ (m.host h).disks) :
    (m.host h).disks.find? (m.diskName · = m.diskName id) = some id := by
  cases hfind : (m.host h).disks.find? (m.diskName · = m.diskName id) with
  | none => exact absurd (List.find?_eq_none.mp hfind id hid) (by simp)
  | some found =>
    have hname : m.diskName found = m.diskName id := by simpa using List.find?_some hfind
    exact congrArg some
      (List.inj_on_of_nodup_map hnames (List.mem_of_find?_eq_some hfind) hid hname)

/-- The line about a disk and a level. -/
def Night.sizeTold (m : Night) (kb : Nat → Nat → Nat) (about : Nat × Nat) : ReplyLine :=
  .size (m.diskName about.1) about.2 (kb about.1 about.2)

def LevelEstimate.told (e : LevelEstimate) (kb : Nat → Nat → Nat) (id : Nat)
    (about : List (Nat × Nat)) : LevelEstimate :=
  if (id, e.level) ∈ about then e.setSize (.sized (kb id e.level)) false else e

section
variable (kb : Nat → Nat → Nat) {about : List (Nat × Nat)}

theorem LevelEstimate.told_cons (e : LevelEstimate) (id : Nat) (a : Nat × Nat)
    (about : List (Nat × Nat)) :
    (e.told kb id [a]).told kb id about = e.told kb id (a :: about) := by
  by_cases hfirst : (id, e.level) = a
  · by_cases hmore : (id, e.level) ∈ about <;> simp_all [told, setSize]
  · by_cases hmore : (id, e.level) ∈ about <;> simp_all [told, setSize]

theorem levels_enterLine {a : Nat × Nat} (hnames : ((m.host h).disks.map m.diskName).Nodup)
    (ha : a.1 ∈ (m.host h).disks) (hd : (m.plan id).question.levels.Nodup) :
    ((m.enterLine h (m.sizeTold kb a)).plan id).levels =
      (m.plan id).levels.map (·.told kb id [a]) := by
  obtain ⟨j, level⟩ := a
  simp only [sizeTold, enterLine, Night.tell, find?_diskName hnames ha]
  by_cases hj : id = j
  · subst hj
    by_cases hlt : id < m.plans.length
    · rw [plan_setPlan_self hlt]
      refine (DiskPlan.levels_takeSize hd level (kb id level)).trans
        (List.map_congr_left fun e _ => ?_)
      by_cases hlevel : e.level = level <;> simp [LevelEstimate.told, hlevel]
    · have hle := Nat.le_of_not_lt hlt
      rw [plan_of_le (by simpa using hle), plan_of_le hle]
      rfl
  · rw [plan_setPlan_of_ne hj]
    simp [LevelEstimate.told, hj]

theorem levels_enterLines (hnames : ((m.host h).disks.map m.diskName).Nodup)
    (habout : ∀ a ∈ about, a.1 ∈ (m.host h).disks) (hd : (m.plan id).question.levels.Nodup) :
    ((m.enterLines h (about.map (m.sizeTold kb))).plan id).levels =
      (m.plan id).levels.map (·.told kb id about) := by
  induction about generalizing m with
  | nil => simp [enterLines, LevelEstimate.told]
  | cons a about ih =>
    obtain ⟨ha, habout⟩ := List.forall_mem_cons.mp habout
    have hu : Undisturbed h m (m.enterLine h (m.sizeTold kb a)) := undisturbed_enterLine _
    have hname : (m.enterLine h (m.sizeTold kb a)).diskName = m.diskName :=
      funext fun j => congrArg (·.disk.name) (hu.question j)
    have hlines : ∀ {k : Night}, k.diskName = m.diskName → k.sizeTold kb = m.sizeTold kb := by
      intro k e
      funext a
      rw [sizeTold, sizeTold, e]
    have hrest := ih (m := m.enterLine h (m.sizeTold kb a)) (by rwa [hu.disks, hname])
      (by rwa [hu.disks]) (by rwa [hu.question])
    rw [hlines hname, levels_enterLine kb hnames ha hd, List.map_map] at hrest
    refine hrest.trans (List.map_congr_left fun e _ => ?_)
    exact e.told_cons kb id a about
end

/-- The sizes decide what becomes of a disk all of whose levels have one. -/
theorem DiskPlan.outcome_of_sized {p : DiskPlan} {kb : Nat → Nat}
    (hsized : ∀ e ∈ p.levels, e.size = .sized (kb e.level)) :
    p.outcome = if ∃ level ∈ p.question.levels, 0 < kb level then .estimated else .failed := by
  have hpositive : p.hasPositiveSize ↔ ∃ level ∈ p.question.levels, 0 < kb level := by
    simp only [hasPositiveSize, List.any_eq_true, question, List.mem_map,
      exists_exists_and_eq_and]
    refine exists_congr fun e => and_congr_right fun he => ?_
    simp [hsized e he]
  simp only [outcome, hpositive]

/-! ## Honest hosts -/

/-- What can be read line by line can be read as a whole. -/
theorem readReply_writtenText {α : Type} {answers : List α} {line : α → String}
    {read : α → ReplyLine} (h : ∀ a ∈ answers, readReply (line a) = .ok [read a]) :
    readReply (writtenText (answers.map line)) = .ok (answers.map read) := by
  induction answers with
  | nil => rfl
  | cons a answers ih =>
    obtain ⟨ha, hrest⟩ := List.forall_mem_cons.mp h
    have htext : writtenText ((a :: answers).map line) =
        line a ++ "\n" ++ writtenText (answers.map line) := by simp [writtenText]
    rw [htext, readReply_append_newline, ha, ih hrest]
    rfl

def Night.answer (m : Night) (kb : Nat → Nat → Nat) (about : Nat × Nat) : String :=
  sizeLine (m.diskName about.1) about.2 (kb about.1 about.2)

/-- A host may tell sizes of the disks that it was asked about. -/
theorem tells_answers {kb : Nat → Nat → Nat} {answers : List (Nat × Nat)}
    (hnames : ((m.host h).disks.map m.diskName).Nodup) (hkb : ∀ id level, kb id level < 1 <<< 63)
    (hanswers : ∀ a ∈ answers, a.1 ∈ (m.host h).disks ∧ m.diskName a.1 ∉ ReplyLine.reserved ∧
      a.2 ∈ (m.plan a.1).question.levels ∧ a.2 < 1 <<< 31) :
    (Packet.mk .rep (writtenText (answers.map (m.answer kb)))).Tells m h
      (answers.map (m.sizeTold kb)) := by
  refine ⟨by simp, readReply_writtenText fun a ha => ?_, fun line hline => ?_⟩
  · obtain ⟨-, hword, -, hlevel⟩ := hanswers a ha
    exact readReply_sizeLine hword hlevel (hkb a.1 a.2)
  · obtain ⟨a, ha, rfl⟩ := List.mem_map.mp hline
    obtain ⟨hid, -, hlevel, -⟩ := hanswers a ha
    exact ⟨a.1, find?_diskName hnames hid, Or.inr hlevel⟩

/-- A final packet with sizes of disks. A disk that awaited it and whose levels all have a size by
it has these sizes, and they decide what becomes of it. -/
theorem Planning.onReply_answers {kb : Nat → Nat → Nat} {answers : List (Nat × Nat)}
    (hn : n.Hosted) (hc : Conversing [] n m) (hnames : ((m.host h).disks.map m.diskName).Nodup)
    (hkb : ∀ id level, kb id level < 1 <<< 63)
    (hanswers : ∀ a ∈ answers, a.1 ∈ (m.host h).disks ∧ m.diskName a.1 ∉ ReplyLine.reserved ∧
      a.2 ∈ (m.plan a.1).question.levels ∧ a.2 < 1 <<< 31) :
    ∃ k, onReply h ⟨.rep, writtenText (answers.map (m.answer kb))⟩ m = .ok () k ∧
      ∀ id ∈ (m.host h).disks, Awaits m id → (m.plan id).question.levels.Nodup →
        (∀ level ∈ (m.plan id).question.levels, (id, level) ∈ answers) →
        (k.plan id).question.levels = (m.plan id).question.levels ∧
        (∀ e ∈ (k.plan id).levels, e.size = .sized (kb id e.level) ∧ e.guessed = false) ∧
        k.place id = some (if ∃ level ∈ (m.plan id).question.levels, 0 < kb id level
          then .estimated else .failed) := by
  obtain ⟨ids, hp⟩ := InParts.begin hc h
  obtain ⟨k, hk, hwhole⟩ := hp.final (tells_answers hnames hkb hanswers)
  rw [enterLines_heard] at hwhole
  refine ⟨k, hk, fun id hid hawaits hd hall => ?_⟩
  obtain ⟨hplace, hplan⟩ := resolved_as_told hn hc hwhole id hid hawaits
  have hsized : ∀ e ∈ ((m.enterLines h (answers.map (m.sizeTold kb))).plan id).levels,
      e.size = .sized (kb id e.level) ∧ e.guessed = false := by
    rw [levels_enterLines kb hnames (fun a ha => (hanswers a ha).1) hd]
    refine List.forall_mem_map.mpr fun e he => ?_
    have htold : (id, e.level) ∈ answers := hall e.level (List.mem_map_of_mem he)
    simp [LevelEstimate.told, htold, LevelEstimate.setSize]
  have hsame := (undisturbed_enterLines (h := h) (m := m)
    (answers.map (m.sizeTold kb))).question id
  rw [hplan, hplace, DiskPlan.outcome_of_sized fun e he => (hsized e he).1, hsame]
  exact ⟨congrArg (·.levels) hsame, hsized, rfl⟩

def Night.askedLevels (m : Night) (h : Nat) (features : FeatureSet) : List (Nat × Nat) :=
  (m.requested h features).flatMap fun id => (m.plan id).question.levels.map (id, ·)

theorem Night.mem_askedLevels {a : Nat × Nat} : a ∈ m.askedLevels h features ↔
    a.1 ∈ m.requested h features ∧ a.2 ∈ (m.plan a.1).question.levels := by
  obtain ⟨id, level⟩ := a
  simp only [askedLevels, List.mem_flatMap, List.mem_map, Prod.mk.injEq]
  constructor
  · rintro ⟨_, hid, _, hlevel, rfl, rfl⟩
    exact ⟨hid, hlevel⟩
  · rintro ⟨hid, hlevel⟩
    exact ⟨id, hid, level, hlevel, rfl, rfl⟩

/-- Plans with the same terms ask for levels both or neither. -/
theorem DiskPlan.levels_eq_nil_iff {p q : DiskPlan} (h : p.terms = q.terms) :
    p.levels = [] ↔ q.levels = [] := by
  rw [← List.map_eq_nil_iff (l := p.levels), ← List.map_eq_nil_iff (l := q.levels)]
  exact Eq.to_iff (congrArg (·.levels = []) h)

section
variable {settings : Settings} {disks : List Disk} {rotation : Rotation} {today : Int}
  {store : Store} {n₀ : Night} {t : Talks}
  (hbegin : Night.begin settings disks rotation today = .ok n₀)
  (hprepare : prepareAll store n₀ = .ok () n) (hr : Reached n m t)
include hbegin hprepare hr

/-- The levels that a disk is asked about have been laid down for it. -/
theorem Reached.laidDown (hlevels : (m.plan id).levels ≠ []) :
    ∃ d history, LaidDown d history (m.plan id).terms := by
  have hfresh := fresh_of_begin hbegin
  have hterms : (m.plan id).terms = (n.plan id).terms := hr.steps.plan (fun _ hf => hf) id
  have hkept : (n.plan id).levels ≠ [] :=
    fun hnone => hlevels ((DiskPlan.levels_eq_nil_iff hterms).mpr hnone)
  have hid : id < n₀.plans.length := by
    have hsetUp := (leads_prepareAll hfresh store).ok hprepare
    rw [← hsetUp.same.length]
    by_contra hle
    exact hkept (by rw [plan_of_le (Nat.le_of_not_lt hle)]; rfl)
  obtain ⟨history, -, hfrom⟩ := (leads_prepareAll_terms hfresh store).ok hprepare id hid
  exact ⟨_, _, hterms ▸ hfrom.resolve_left hkept⟩

/-- No disk is asked about one level twice. -/
theorem Reached.nodup_levels (id : Nat) : (m.plan id).question.levels.Nodup := by
  by_cases hnone : (m.plan id).levels = []
  · simp [DiskPlan.question, hnone]
  · obtain ⟨d, history, hlaid⟩ := hr.laidDown hbegin hprepare hnone
    simpa [DiskPlan.question, DiskPlan.terms, Function.comp_def] using hlaid.nodup

end

/-- **Honest hosts are understood.** A host with known features is asked about all disks that are to
be asked about, each disk by its quoted name and each of its levels. If it gives back, in any
order, a line for each of them with a size, then every level that was asked for has exactly this
size, and each of the disks is estimated if one of its sizes is positive, and fails otherwise. The
names of the disks of a host need only be different, and none of the three bare words with which
lines of another kind begin. -/
theorem honest_host_understood {settings : Settings} {disks : List Disk} {rotation : Rotation}
    {today : Int} {store : Store} {n₀ : Night} {t : Talks} {r : HostRequest}
    (hbegin : Night.begin settings disks rotation today = .ok n₀)
    (hprepare : prepareAll store n₀ = .ok () n) (hreached : Reached n m t)
    (hfeatures : (m.host h).features = some features)
    (hnames : ((m.host h).disks.map m.diskName).Nodup)
    (hwords : ∀ id ∈ (m.host h).disks, m.diskName id ∉ ReplyLine.reserved)
    (hlevels : ∀ id ∈ (m.host h).disks, ∀ level ∈ (m.plan id).question.levels, level < 1 <<< 31)
    (hask : request h m = .ok (some r) k) :
    r.kind = .sizes ∧
    r.body = requestHead m h features ++ String.join
      ((m.requested h features).flatMap fun id => (m.plan id).requestLines features) ∧
    ∀ (kb : Nat → Nat → Nat) (answers : List (Nat × Nat)), (∀ id level, kb id level < 1 <<< 63) →
      answers.Perm (m.askedLevels h features) →
      ∃ l, onReply h ⟨.rep, writtenText (answers.map (m.answer kb))⟩ k = .ok () l ∧
        ∀ id ∈ m.requested h features,
          (l.plan id).question.levels = (m.plan id).question.levels ∧
          (∀ e ∈ (l.plan id).levels, e.size = .sized (kb id e.level) ∧ e.guessed = false) ∧
          l.place id = some (if ∃ level ∈ (m.plan id).question.levels, 0 < kb id level
            then .estimated else .failed) := by
  have hfresh := fresh_of_begin hbegin
  have hsetUp := (leads_prepareAll hfresh store).ok hprepare
  have hn := hsetUp.same.hosted hfresh.hosted
  have hc := (hreached.inTurn hn (.begin hfresh hsetUp)).conversing
  obtain ⟨hk, hspares, hsent⟩ := (leads_request_sizes hn hc hfeatures : Leads _ _ _ never).ok hask
  obtain ⟨hkind, hbody, hawaits⟩ := hsent r rfl
  refine ⟨hkind, hbody, fun kb answers hkb hanswers => ?_⟩
  -- the request changes neither the names nor the levels, and the host answers in these terms
  have hquestion := ((confined_request hn).leaves ⟨hc.sound, hc.same⟩ hask).question
  have hdisks : (k.host h).disks = (m.host h).disks := hspares.same.disks h
  have hname : k.diskName = m.diskName := funext fun id => congrArg (·.disk.name) (hquestion id)
  have hanswer : m.answer kb = k.answer kb := by
    funext a
    rw [Night.answer, Night.answer, hname]
  have hanswered : ∀ a ∈ answers, a.1 ∈ (k.host h).disks ∧
      k.diskName a.1 ∉ ReplyLine.reserved ∧ a.2 ∈ (k.plan a.1).question.levels ∧
      a.2 < 1 <<< 31 := by
    intro a ha
    obtain ⟨hid, hlevel⟩ := mem_askedLevels.mp (hanswers.mem_iff.mp ha)
    have hin : a.1 ∈ (m.host h).disks := (mem_requested.mp hid).1
    rw [hdisks, hname, hquestion]
    exact ⟨hin, hwords _ hin, hlevel, hlevels _ hin _ hlevel⟩
  obtain ⟨l, hl, hsized⟩ := onReply_answers hn hk (by rwa [hdisks, hname]) hkb hanswered
  rw [hanswer]
  refine ⟨l, hl, fun id hid => ?_⟩
  have hin : id ∈ (m.host h).disks := (mem_requested.mp hid).1
  rw [← hquestion id]
  refine hsized id (hdisks ▸ hin) (hawaits id hid) ?_ fun level hlevel => ?_
  · rw [hquestion]
    exact hreached.nodup_levels hbegin hprepare id
  · exact hanswers.mem_iff.mpr (mem_askedLevels.mpr ⟨hid, hquestion id ▸ hlevel⟩)

set_option synthInstance.maxSize 256 in
/-- A host has two disks whose names need quotes. It tells a size of the one, and that there is
nothing of the other. -/
theorem honest_host_understood_of_quoted : ∃ n₀ n m t r k l,
    Night.begin {} [Disk.plain "alpha" "my \"home\"\n" 10 default,
      Disk.plain "alpha" "ERROR 0 SIZE" 10 default] default 0 = .ok n₀ ∧
    prepareAll {} n₀ = .ok () n ∧ Reached n m t ∧ request 0 m = .ok (some r) k ∧
    onReply 0 ⟨.rep, "\"ERROR 0 SIZE\" 0 SIZE 0\n" ++
      "\"my \\\"home\\\"\\n\" 0 SIZE 7\n"⟩ k = .ok () l ∧
    l.place 0 = some .estimated ∧ l.place 1 = some .failed := by
  obtain ⟨n₀, hbegin, hrun⟩ : ∃ n₀, Night.begin {}
        [Disk.plain "alpha" "my \"home\"\n" 10 default,
          Disk.plain "alpha" "ERROR 0 SIZE" 10 default] default 0 = .ok n₀ ∧
      Leads (prepareAll {}) n₀ (fun _ n => n.hosts.length = 1 ∧
        Leads (do
            let _ ← (Turn.ask 0).act
            (Turn.packet 0 ⟨.rep, ""⟩).act) n
          (fun _ m => (m.host 0).disks = [0, 1] ∧ m.diskName 0 = "my \"home\"\n" ∧
            m.diskName 1 = "ERROR 0 SIZE" ∧ (m.plan 0).question.levels = [0] ∧
            (m.plan 1).question.levels = [0] ∧
            (∃ features ∈ (m.host 0).features, m.requested 0 features = [0, 1]) ∧
            Leads (request 0) m (fun request _ => request.isSome = true) never)
          never) never :=
    ⟨_, rfl, by decide +kernel⟩
  obtain ⟨_, n, hprepare, hhosts, hrun⟩ := hrun.exists_ok
  obtain ⟨_, m, hasked, hdisks, hfirst, hsecond, hlevel, hlevel', ⟨features, hf, hrequested⟩,
    hrun⟩ := hrun.exists_ok
  obtain ⟨_, a, hprobe, hprobed⟩ := ok_of_bind hasked
  obtain ⟨request, k, hask, hsome⟩ := hrun.exists_ok
  obtain ⟨r, rfl⟩ := Option.isSome_iff_exists.mp hsome
  have hdue : (Talks.begin n).Allows (.ask 0) := by simp [Talks.Allows, Talks.begin, hhosts]
  have hreached := (Reached.begin.turn hdue hprobe).turn
    (show (Talks.after _ _ _).Allows (.packet 0 ⟨.rep, ""⟩) by trivial) hprobed
  obtain ⟨-, -, hunderstood⟩ := honest_host_understood hbegin hprepare hreached hf
    (by simp [hdisks, hfirst, hsecond]) (by simp [hdisks, hfirst, hsecond, ReplyLine.reserved])
    (by simp [hdisks, hlevel, hlevel']) hask
  obtain ⟨l, hl, htaken⟩ := hunderstood (fun id _ => if id = 0 then 7 else 0) [(1, 0), (0, 0)]
    (fun id _ => by split <;> omega)
    (by simpa [Night.askedLevels, hrequested, hlevel, hlevel'] using List.Perm.swap ..)
  have hsaid : writtenText ([(1, 0), (0, 0)].map (m.answer fun id _ => if id = 0 then 7 else 0)) =
      "\"ERROR 0 SIZE\" 0 SIZE 0\n" ++ "\"my \\\"home\\\"\\n\" 0 SIZE 7\n" := by
    simp only [List.map_cons, List.map_nil, Night.answer, hfirst, hsecond]
    decide
  rw [hsaid] at hl
  refine ⟨n₀, n, m, _, r, k, l, hbegin, hprepare, hreached, hask, hl, ?_, ?_⟩
  · simpa [hlevel] using (htaken 0 (by simp [hrequested])).2.2
  · simpa [hlevel'] using (htaken 1 (by simp [hrequested])).2.2

end NightlyBackup
