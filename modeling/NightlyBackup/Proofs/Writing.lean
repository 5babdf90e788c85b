import NightlyBackup.Proofs.Ceilings
import NightlyBackup.Proofs.Incrementals
import NightlyBackup.Proofs.Printing
import NightlyBackup.Proofs.Ranking

/-!
The written schedule. Writing changes nothing of a planned night but that sizes on media stand and
that events are told: one for every failed line, a warning for every dump whose size is a guess,
and at last the report of the run. Lines, counts and sizes are therefore those of the planned
night, of which every disk is scheduled, failed or left out.
-/

namespace NightlyBackup

open Night Planning Text

/-- Where no line is missing, none is dropped. -/
theorem map_some_filterMap {ι α : Type} {f : ι → Option α} {l : List ι}
    (h : ∀ i ∈ l, (f i).isSome) : ((l.map f).filterMap id).map some = l.map f := by
  induction l with
  | nil => rfl
  | cons i l ih =>
    obtain ⟨hi, hl⟩ := List.forall_mem_cons.mp h
    obtain ⟨a, ha⟩ := Option.isSome_iff_exists.mp hi
    rw [List.map_cons, ha, List.filterMap_cons_some (f := id) rfl, List.map_cons, ih hl]

variable {n m g k p : Night} {id : Nat} {sink : Sink}
  {fail : Fault → Night → Prop}

/-! ## Sizes that are held on to -/

namespace DiskPlan

theorem held_fixWritten (a : DiskPlan) : a.Held a.fixWritten := by
  have hdump : a.Held a.fixDumpMedia := by
    unfold fixDumpMedia
    split
    · exact a.held_fixMedia _
    · exact .refl
  unfold fixWritten
  dsimp only
  split
  · exact hdump.tail ⟨_, rfl⟩
  · exact hdump

@[simp]
theorem figures_fixMedia (a : DiskPlan) (slot other : Nat) (rate : Float) :
    (a.fixMedia slot).figures other rate = a.figures other rate := by
  simp only [figures, mediaSize?_fixMedia, List.getD_eq_getElem?_getD, levels_fixMedia]
  cases a.levels[other]? with
  | none => rfl
  | some e =>
    simp only [Option.map_some, Option.getD_some]
    split <;> rfl

@[simp]
theorem fallbackWords_fixMedia (a : DiskPlan) (slot : Nat) :
    (a.fixMedia slot).fallbackWords = a.fallbackWords := by
  have hfallback : (a.fixMedia slot).writtenFallback? = a.writtenFallback? := by
    simp [writtenFallback?]
  simp only [fallbackWords, hfallback, figures_fixMedia]
  rfl

def lineFor (a : DiskPlan) (host : Host) (stamp : String) : Option String :=
  a.dump.map fun slot => joinWith " " <|
    ["DUMP", host.name, host.featureWord, quote a.disk.name, stamp, toString a.priority]
      ++ (a.figures slot (if a.isFull then a.fullRate else a.incrRate)).words ++ a.fallbackWords

theorem lineFor_fixMedia (a : DiskPlan) (slot : Nat) (host : Host) (stamp : String) :
    (a.fixMedia slot).lineFor host stamp = a.lineFor host stamp := by
  simp only [lineFor, dump_fixMedia, figures_fixMedia, isFull_fixMedia, fallbackWords_fixMedia]
  rfl

end DiskPlan

theorem Night.dumpLine?_eq : n.dumpLine? id =
    (n.plan id).lineFor (n.host (n.plan id).host) n.timestamp := rfl

/-! ## Writing -/

structure Rewritten (n k : Night) : Prop where
  rest : k = { n with plans := k.plans, events := k.events }
  held : ∀ id, (n.plan id).Held (k.plan id)

namespace Rewritten

theorem refl (n : Night) : Rewritten n n := ⟨rfl, fun _ => .refl⟩

theorem setPlan {f : DiskPlan → DiskPlan} (h : Rewritten n k) (hf : ∀ a : DiskPlan, a.Held (f a)) :
    Rewritten n (k.setPlan id f) := by
  refine ⟨?_, fun j => ?_⟩
  · rw [h.rest]
    rfl
  · exact plan_setPlan_cases (P := fun a => (n.plan j).Held a) ((h.held j).trans (hf _)) (h.held j)

theorem told (h : Rewritten n k) (e : Event) : Rewritten n (k.say e) := by
  refine ⟨?_, h.held⟩
  rw [h.rest]
  rfl

/-- No line changes. -/
theorem dumpLine?_eq (h : Rewritten n k) (id : Nat) : k.dumpLine? id = n.dumpLine? id := by
  have hhost : k.host = n.host := by
    rw [h.rest]
    rfl
  have hstamp : k.timestamp = n.timestamp := by rw [h.rest]
  have howner : (k.plan id).host = (n.plan id).host :=
    (h.held id).keeps (f := DiskPlan.host) fun _ _ => rfl
  rw [Night.dumpLine?_eq, Night.dumpLine?_eq, hhost, hstamp, howner]
  exact (h.held id).keeps (f := (DiskPlan.lineFor · _ _)) fun a slot => a.lineFor_fixMedia slot _ _

end Rewritten

def Night.failedEvent (n : Night) (id : Nat) : Event :=
  .estimateFailed (n.hostName id) (n.diskName id) (n.plan id).failedLevel
    ((n.plan id).fault.getD "")

def Sink.Refuses (sink : Sink) (fault : Fault) (_ : Night) : Prop :=
  ∃ words, sink.refusal = some words ∧ fault = .output words

/-- A sink takes what is written, or the run ends. -/
theorem leads_writeTo {post : Unit → Night → Prop} (h : post () n) :
    Leads (writeTo sink) n post sink.Refuses := by
  unfold writeTo
  split
  · rename_i words hwords
    exact ⟨words, hwords, rfl⟩
  · exact h

namespace Planning

theorem leads_writeFailed (n : Night) (id : Nat) : Leads (writeFailed sink id) n
    (fun line k => line = n.failedLine id ∧ k = n.after [n.failedEvent id]) sink.Refuses := by
  simp only [writeFailed, leads_bind, leads_get]
  exact leads_writeTo ⟨rfl, rfl⟩

/-- Every failed record is written and told, in order. -/
theorem leads_writeEachFailed (n : Night) (ids : List Nat) : Leads (ids.mapM (writeFailed sink)) n
    (fun lines k => lines = ids.map n.failedLine ∧ k = n.after (ids.map n.failedEvent))
    sink.Refuses := by
  induction ids generalizing n with
  | nil =>
    refine ⟨rfl, ?_⟩
    simp [Night.after]
  | cons id ids ih =>
    rw [List.mapM_cons]
    simp only [leads_bind, leads_pure]
    refine (leads_writeFailed n id).imp ?_
    rintro line _ ⟨rfl, rfl⟩
    refine (ih _).imp ?_
    rintro lines _ ⟨rfl, rfl⟩
    refine ⟨rfl, ?_⟩
    simp only [Night.after, List.append_assoc]
    rfl

def Warned (n k : Night) : Prop :=
  ∃ warnings, k.events = n.events ++ warnings ∧ ∀ e ∈ warnings, ∃ message, e = .warning message

theorem Warned.refl (n : Night) : Warned n n := ⟨[], by simp⟩

theorem Warned.trans (h : Warned n m) (h' : Warned m k) : Warned n k := by
  obtain ⟨first, hfirst, hw⟩ := h
  obtain ⟨more, hmore, hw'⟩ := h'
  refine ⟨first ++ more, ?_, fun e he => (List.mem_append.mp he).elim (hw e) (hw' e)⟩
  rw [hmore, hfirst, List.append_assoc]

theorem leads_announceGuess (h : Rewritten n k) : Leads (announceGuess id) k
    (fun _ l => Rewritten n l ∧ Warned k l) fail := by
  simp only [announceGuess, leads_bind, leads_get]
  split
  · split
    · exact ⟨h.told _, [_], rfl, by simp⟩
    · exact ⟨h, .refl k⟩
  · exact ⟨h, .refl k⟩

theorem leads_writeDump (h : Rewritten n k) (id : Nat) : Leads (writeDump sink id) k
    (fun line l => line = n.dumpLine? id ∧ Rewritten n l ∧ Warned k l) sink.Refuses := by
  simp only [writeDump, takeDumpLine, Planning.setPlan, leads_bind, leads_modify, leads_get,
    leads_pure]
  -- the line is made after its sizes have been held on to, which does not change it
  have hset : Rewritten n (k.setPlan id DiskPlan.fixWritten) := h.setPlan DiskPlan.held_fixWritten
  have hline := hset.dumpLine?_eq id
  split
  · rename_i hnone
    exact ⟨hnone.symm.trans hline, hset, .refl k⟩
  · rename_i line hsome
    simp only [leads_bind, leads_pure]
    refine (leads_announceGuess hset).imp ?_
    rintro _ l ⟨hl, hwarned⟩
    exact leads_writeTo ⟨hsome.symm.trans hline, hl, hwarned⟩

/-- Every scheduled record is written as it was planned. -/
theorem leads_writeEachDump (h : Rewritten n k) (ids : List Nat) :
    Leads (ids.mapM (writeDump sink)) k
      (fun lines l => lines = ids.map n.dumpLine? ∧ Rewritten n l ∧ Warned k l) sink.Refuses := by
  induction ids generalizing k with
  | nil => exact ⟨rfl, h, .refl k⟩
  | cons id ids ih =>
    rw [List.mapM_cons]
    simp only [leads_bind, leads_pure]
    refine (leads_writeDump h id).imp ?_
    rintro line m ⟨rfl, hm, hwarned⟩
    refine (ih hm).imp ?_
    rintro lines l ⟨rfl, hl, hmore⟩
    exact ⟨rfl, hl, hwarned.trans hmore⟩

end Planning

/-- What has been written of the planned night `p`: a line for every failed record in the order of
their queue, then a line for every dump in the order of the schedule. The counts are those of the
lines. Each failed line is told, and the report of the run is told last. -/
structure Written (p k : Night) (summary : Summary) (failed dumps : List String) : Prop where
  failedLines : failed = p.queues.failed.map p.failedLine
  dumpLines : dumps.map some = p.scheduled.map p.dumpLine?
  failedCount : summary.failed = failed.length
  scheduledCount : summary.scheduled = dumps.length
  skippedCount : summary.skipped = p.skipped.length
  totalSize : summary.totalSize = p.totals.size
  events : ∃ warnings, k.events = p.events ++ p.queues.failed.map p.failedEvent ++ warnings ++
      [.runFinished summary.scheduled summary.failed summary.skipped summary.totalSize] ∧
    ∀ e ∈ warnings, ∃ message, e = .warning message

/-- **Writing.** A night whose scheduled records all have a dump is written as it is planned, unless
the sink refuses. -/
theorem Planning.leads_writeSchedule (hdumps : ∀ id ∈ p.scheduled, (p.plan id).dump.isSome) :
    Leads (writeSchedule sink) p (fun r k => ∃ failed dumps, r.2 = failed ++ dumps ∧
      Written p k r.1 failed dumps) sink.Refuses := by
  simp only [writeSchedule, leads_bind, leads_get]
  refine (leads_writeEachFailed p p.queues.failed).imp ?_
  rintro failed m ⟨rfl, rfl⟩
  refine (leads_writeEachDump (.refl _) _).imp ?_
  rintro lines k ⟨rfl, hk, warnings, htold, hwarnings⟩
  refine leads_writeTo ?_
  have hlines : ∀ id ∈ p.scheduled, (p.dumpLine? id).isSome := fun id hid => by
    simpa [dumpLine?] using hdumps id hid
  have hskipped : k.skipped = p.skipped := by
    rw [hk.rest]
    rfl
  have htotals : k.totals = p.totals := by
    rw [hk.rest]
    rfl
  refine ⟨_, _, rfl, rfl, ?_, rfl, rfl, congrArg List.length hskipped, congrArg (·.size) htotals,
    warnings, ?_, hwarnings⟩
  · exact map_some_filterMap hlines
  · show k.events ++ _ = _
    rw [htold]
    rfl

/-! ## The planned night -/

/-- A night begins with the media of its settings, and nothing is told yet. -/
theorem Night.begin_media {settings : Settings} {disks : List Disk} {rotation : Rotation}
    {today : Int} (h : Night.begin settings disks rotation today = .ok n) :
    n.media = Media.ofSettings settings ∧ n.events = [] := by
  have henter : ∀ (n : Night) (d : Disk),
      (n.enterDisk d).media = n.media ∧ (n.enterDisk d).events = n.events := by
    intro n d
    unfold enterDisk enterHost
    cases n.hosts.findIdx? (·.name = d.host) <;> exact ⟨rfl, rfl⟩
  have hall : ∀ (disks : List Disk) (n : Night),
      (disks.foldl enterDisk n).media = n.media ∧ (disks.foldl enterDisk n).events = n.events := by
    intro disks
    induction disks with
    | nil => exact fun n => ⟨rfl, rfl⟩
    | cons d disks ih =>
      intro n
      obtain ⟨hmedia, hevents⟩ := ih (n.enterDisk d)
      exact ⟨hmedia.trans (henter n d).1, hevents.trans (henter n d).2⟩
  simp only [Night.begin] at h
  split at h
  · cases h
  · split at h
    · cases h
    · cases h
      exact hall (disks.filter (·.todo)) _

/-- The schedule is in its order, and there is room for it. -/
theorem Planning.leads_schedule_fits (hg : Sorted .estimated g) : Leads schedule g
    (fun _ k => k.Ranked ∧ k.totals.size ≤ k.media.capacity) anyhow := by
  have he : g.scheduled = [] := hg.empty .scheduled (by decide) (by decide)
  have hranked : g.RankedBut none :=
    rankedBut_none.mpr ⟨hg.sound, by rw [Ranked, he]; exact .nil⟩
  simp only [schedule, leads_bind]
  refine (leads_withinWords ((leads_analyzeAll hg.sound he : Leads _ _ _ anyhow).and
    (ranked_analyzeAll hranked))).mono ?_ fun _ _ _ => trivial
  rintro _ a ⟨-, ha, haranked⟩
  refine (leads_withinWords (leads_fit ha.orderly)).mono ?_ fun _ _ _ => trivial
  rintro _ f ⟨-, s, hf, hsize, -⟩
  have hforder := hf.orderly ha.orderly
  refine (leads_withinWords (leads_balance_roomy hforder : Leads _ _ _ never)).mono ?_
    fun _ _ _ => trivial
  rintro _ k ⟨-, hk⟩
  refine ⟨?_, ?_⟩
  · exact (rankedBut_none.mp (hk.rebalances.ranked (hf.ranked haranked))).2
  · obtain ⟨hmedia, hroom, -⟩ := hk.raised hforder
    exact hmedia ▸ hroom hsize

/-- The schedule, the failed records and those left out are all the records, each of them once. -/
theorem Accounted.perm {disks : List Disk} (h : Accounted disks p) (hs : p.Sound)
    (hskipped : ∀ s ∈ p.skipped, s.record < p.plans.length) :
    (p.scheduled ++ p.queues.failed ++ p.skipped.map (·.record)).Perm p.records := by
  refine List.perm_iff_count.mpr fun id => ?_
  have hskips : (p.skipped.map (·.record)).count id = p.skips id := by
    rw [List.count, List.countP_map, skips]
    exact List.countP_congr fun s _ => by simp
  have hsum : (p.scheduled ++ p.queues.failed ++ p.skipped.map (·.record)).count id =
      (p.queues.members .scheduled).count id + (p.queues.members .failed).count id +
        p.skips id := by
    rw [List.count_append, List.count_append, hskips]
    rfl
  have hnone : ∀ name, id ∉ p.queues.members name → (p.queues.members name).count id = 0 :=
    fun _ => List.count_eq_zero.mpr
  rw [hsum, records]
  by_cases hid : id < p.plans.length
  · rw [List.count_eq_one_of_mem List.nodup_range (List.mem_range.mpr hid)]
    cases h.each id (List.mem_range.mpr hid) with
    | scheduled once only dump kept =>
      have hon : (p.queues.members .scheduled).count id = 1 := once
      have hoff := hnone .failed fun hm => absurd (only _ hm) (by decide)
      omega
    | failed once only fault kept =>
      have hon : (p.queues.members .failed).count id = 1 := once
      have hoff := hnone .scheduled fun hm => absurd (only _ hm) (by decide)
      omega
    | leftOut off once =>
      have hscheduled := hnone .scheduled (off _)
      have hfailed := hnone .failed (off _)
      omega
  · -- a number that no record has is in none of the lists
    have hrange : (List.range p.plans.length).count id = 0 :=
      List.count_eq_zero.mpr fun hm => hid (List.mem_range.mp hm)
    have hscheduled := hnone .scheduled fun hm => hid (hs.known hm)
    have hfailed := hnone .failed fun hm => hid (hs.known hm)
    have hkept : p.skips id = 0 := by
      rw [skips, List.countP_eq_zero]
      intro s hm e
      exact hid (of_decide_eq_true e ▸ hskipped s hm)
    omega

theorem Accounted.hostName {disks : List Disk} (h : Accounted disks p)
    (hid : id < p.plans.length) : ∃ d ∈ disks, d.todo ∧ p.hostName id = d.host := by
  have hmem : p.title id ∈ p.records.map p.title :=
    List.mem_map_of_mem (List.mem_range.mpr hid)
  rw [h.titles] at hmem
  obtain ⟨d, hd, e⟩ := List.mem_map.mp hmem
  obtain ⟨hd, htodo⟩ := List.mem_filter.mp hd
  exact ⟨d, hd, htodo, (Prod.mk.inj e).1.symm⟩

section
variable {store : Store} {act : Planning Unit} {settings : Settings} {disks : List Disk}
  {rotation : Rotation} {today : Int} {summary : Summary} {failed dumps : List String}

theorem Phases.accounted (h : Phases store act n m g p)
    (hbegin : Night.begin settings disks rotation today = .ok n) : Accounted disks p :=
  h.sorted.accounted (fresh_of_begin hbegin) h.orderly h.same

/-- Every scheduled record has a dump to be written. -/
theorem Phases.dump (h : Phases store act n m g p) (hid : id ∈ p.scheduled) :
    (p.plan id).dump.isSome := by
  obtain ⟨slot, hdump, -⟩ := (h.orderly.planned (h.sorted.sound.mem_scheduled.mp hid)).sized
  rw [hdump]
  rfl

/-- The whole night goes by the steps of planning. -/
theorem Phases.steps (h : Phases store act n m g p) : Steps (.preparingAll n) n p := by
  have hprepares := (steps_prepareAll store n).ok h.prepares
  have hterms : Steps (.preparingAll n) m p :=
    (h.terms.1.trans h.terms.2).mono (fun _ _ => trivial) fun _ => False.elim
  exact hprepares.trans hterms

/-- Every disk counts once. -/
theorem Phases.counts (h : Phases store act n m g p)
    (hbegin : Night.begin settings disks rotation today = .ok n) :
    p.scheduled.length + p.queues.failed.length + p.skipped.length =
      (disks.filter (·.todo)).length := by
  have hfresh := fresh_of_begin hbegin
  have haccounted := h.accounted hbegin
  obtain ⟨out, hout, hleft⟩ := h.steps.skipped
  have hperm := haccounted.perm h.sorted.sound fun s hs => by
    rw [hout, hfresh.skipped, List.nil_append] at hs
    exact h.steps.sameRun.length ▸ hleft s hs
  have hlength := congrArg List.length haccounted.titles
  rw [List.length_map, List.length_map, ← hperm.length_eq] at hlength
  simpa [Nat.add_assoc] using hlength

/-- The watermarks of a scheduled record are those of its history. -/
theorem Phases.marked (h : Phases store act n m g p)
    (hbegin : Night.begin settings disks rotation today = .ok n) (hid : id ∈ p.scheduled) :
    (p.plan id).Marked := by
  obtain ⟨d, history, -, -, hlaid⟩ := h.laidDown hbegin hid
  intro e he
  have hmem : (e.level, e.watermark) ∈ (p.plan id).terms.levels := List.mem_map_of_mem he
  rw [hlaid.watermark hmem]
  exact (Calendar.bare_watermark _).unbroken

/-- The lines of a planned night break where a host or the stamp breaks, and nowhere else. -/
theorem Phases.unbroken (h : Phases store act n m g p)
    (hbegin : Night.begin settings disks rotation today = .ok n)
    (hw : Written p k summary failed dumps) (hhosts : ∀ d ∈ disks, d.todo → Unbroken d.host)
    (hstamp : Unbroken n.timestamp) : ∀ line ∈ failed ++ dumps, Unbroken line := by
  have hsound := h.sorted.sound
  have hhost : ∀ name id, id ∈ p.queues.members name → Unbroken (p.hostName id) := by
    intro name id hid
    obtain ⟨d, hd, htodo, e⟩ := (h.accounted hbegin).hostName (hsound.known hid)
    exact e ▸ hhosts d hd htodo
  have hstamped : Unbroken p.timestamp := h.steps.sameRun.timestamp ▸ hstamp
  intro line hline
  rcases List.mem_append.mp hline with hfailed | hdump
  · rw [hw.failedLines] at hfailed
    obtain ⟨id, hid, rfl⟩ := List.mem_map.mp hfailed
    exact unbroken_failedLine (hhost .failed id hid) hstamped
  · have hwritten : some line ∈ p.scheduled.map p.dumpLine? :=
      hw.dumpLines ▸ List.mem_map_of_mem hdump
    obtain ⟨id, hid, hsome⟩ := List.mem_map.mp hwritten
    exact unbroken_dumpLine (h.marked hbegin hid) (hhost .scheduled id hid) hstamped hsome

end

/-- **The written schedule is complete.** If a run ends well, then its output is a line for every
failed record in the order of their queue, and a line for every scheduled record in schedule order:
the higher priority first, then the bigger dump. The counts of the report are those of the lines,
and with the disks that are left out they make up all disks that take part. The size of the report
is what the dumps take on the media, which have room for it. An event is told for every failed line
and one, the last, for the report, and none of either kind before. No line breaks, if the names of
the hosts and the stamp hold no newline. -/
theorem written_schedule_complete {σ : Type} {store : Store} {settings : Settings}
    {disks : List Disk} {rotation : Rotation} {today : Int} {summary : Summary}
    {lines : List String} (net : Network σ) (hosts : σ) (cancelled : Bool)
    (hbegin : Night.begin settings disks rotation today = .ok n)
    (hrun : run store net hosts cancelled sink n = .ok (summary, lines) k) :
    ∃ p failed dumps, planNight store net hosts cancelled n = .ok () p ∧
      lines = failed ++ dumps ∧ Written p k summary failed dumps ∧ p.Ranked ∧
      Accounted disks p ∧
      summary.scheduled + summary.failed + summary.skipped = (disks.filter (·.todo)).length ∧
      summary.totalSize = (Media.ofSettings settings).emptyTape +
        totalSize (p.scheduled.map fun id =>
          (Media.ofSettings settings).dumpCost (p.plan id).dumpMediaSize) ∧
      summary.totalSize ≤ (Media.ofSettings settings).capacity ∧
      (∀ e ∈ p.events, e.ofPlanning = true) ∧
      ((∀ d ∈ disks, d.todo → Unbroken d.host) → Unbroken n.timestamp →
        (∀ line ∈ lines, Unbroken line) ∧
          readLines (writtenText lines) = lines.map (· ++ "\n")) := by
  obtain ⟨_, p, hplan, hwrite⟩ := ok_of_bind hrun
  obtain ⟨m, g, h⟩ := exists_phases hbegin (.rounds net hosts cancelled) hplan
  have haccounted := h.accounted hbegin
  obtain ⟨failed, dumps, rfl, hw⟩ := (leads_writeSchedule fun _ => h.dump).ok hwrite
  obtain ⟨hranked, hroom⟩ := (leads_schedule_fits h.gathered).ok h.schedules
  obtain ⟨hmedia, hnothing⟩ := begin_media hbegin
  have hsame : p.media = Media.ofSettings settings := h.steps.sameRun.media.trans hmedia
  refine ⟨p, failed, dumps, hplan, rfl, hw, hranked, haccounted, ?_, ?_, ?_, ?_, ?_⟩
  · rw [← h.counts hbegin, hw.scheduledCount, hw.failedCount, hw.skippedCount, hw.failedLines,
      List.length_map, ← List.length_map (f := some), hw.dumpLines, List.length_map]
  · rw [hw.totalSize, h.orderly.exact.size, hsame]
  · rw [hw.totalSize, ← hsame]
    exact hroom
  · obtain ⟨told, htold, hplanning⟩ := h.steps.events
    rw [htold, hnothing]
    exact hplanning
  · intro hhosts hstamp
    have hunbroken := h.unbroken hbegin hw hhosts hstamp
    exact ⟨hunbroken, readLines_writtenText hunbroken⟩

/-- A night that is planned is written, if the sink takes it. -/
theorem exists_written {σ : Type} {store : Store} {settings : Settings} {disks : List Disk}
    {rotation : Rotation} {today : Int} {net : Network σ} {hosts : σ} {cancelled : Bool}
    (hbegin : Night.begin settings disks rotation today = .ok n)
    (hplan : planNight store net hosts cancelled n = .ok () p) (sink : Sink)
    (hsink : sink.refusal = none) :
    ∃ summary lines k, run store net hosts cancelled sink n = .ok (summary, lines) k := by
  obtain ⟨m, g, h⟩ := exists_phases hbegin (.rounds net hosts cancelled) hplan
  have hwrites : Leads (writeSchedule sink) p _ _ := leads_writeSchedule fun _ => h.dump
  rcases hwrites.outcome with
    ⟨⟨summary, lines⟩, k, hwrite, -⟩ | ⟨_, _, -, words, hwords, -⟩
  · exact ⟨summary, lines, k, (bind_of_ok hplan).trans hwrite⟩
  · cases hsink.symm.trans hwords

/-- Balancing leaves every record on its queue. -/
theorem Balanced.perm (h : Balanced n k) (hs : n.Sound) (name : QueueName) :
    (k.queues.members name).Perm (n.queues.members name) := by
  refine (List.perm_ext_iff_of_nodup (h.orderly.sound.valid.nodup name)
    (hs.valid.nodup name)).mpr fun id => ?_
  rw [← h.orderly.sound.place_iff, ← hs.place_iff, h.place]

/-- The size of one disk is known, and the host of the other one cannot be reached. -/
theorem written_schedule_complete_of_two : ∃ n k summary lines,
    Night.begin {} [expectedDisk, Disk.plain "beta" "/srv\n" 10 default] default 0 = .ok n ∧
    run {} peerNetwork [] false {} n = .ok (summary, lines) k ∧
    summary.scheduled = 1 ∧ summary.failed = 1 ∧ summary.skipped = 0 ∧ lines.length = 2 ∧
    readLines (writtenText lines) = lines.map (· ++ "\n") := by
  obtain ⟨n, hbegin, hstamp, hdrawn⟩ : ∃ n,
      Night.begin {} [expectedDisk, Disk.plain "beta" "/srv\n" 10 default] default 0 = .ok n ∧
      Unbroken n.timestamp ∧
      Leads (drawWith {} (gather peerNetwork [] false)) n (fun _ a =>
        a.scheduled = [0] ∧ a.queues.failed = [1] ∧ a.totals.size ≤ a.media.capacity ∧
        (a.plan 0).dumpMediaSize ≤ a.media.ceiling (a.plan 0).disk ∧ (a.plan 0).Barred ∧
        sizesOverflow? ((hillDays a).map (heightOf a)) = none) never :=
    ⟨_, rfl, by decide +kernel, by decide +kernel⟩
  obtain ⟨_, a, hdrawn, hscheduled, hfailed, hsize, hdump, hbarred, hheights⟩ := hdrawn.exists_ok
  have honly : ∀ id ∈ a.scheduled, id = 0 := fun id hid => by simpa [hscheduled] using hid
  obtain ⟨ha, q, hplan, hq⟩ := exists_planned_of_fits hbegin (.rounds peerNetwork [] false)
    hdrawn hsize (fun id hid => (honly id hid).symm ▸ hdump)
    ⟨fun id hid => (honly id hid).symm ▸ hbarred, hheights⟩
  obtain ⟨summary, lines, k, hwritten⟩ := exists_written hbegin hplan {} rfl
  obtain ⟨p, failed, dumps, hplan', rfl, hw, -, -, hcounts, -, -, -, hread⟩ :=
    written_schedule_complete peerNetwork [] false hbegin hwritten
  cases hplan.symm.trans hplan'
  have hperm := (hq.balanced ha).perm ha.sound
  have hone : dumps.length = 1 := by
    rw [← List.length_map (f := some), hw.dumpLines, List.length_map]
    exact ((hperm .scheduled).trans (.of_eq hscheduled)).length_eq
  have hother : failed.length = 1 := by
    rw [hw.failedLines, List.length_map]
    exact ((hperm .failed).trans (.of_eq hfailed)).length_eq
  have htwo : ([expectedDisk, Disk.plain "beta" "/srv\n" 10 default].filter (·.todo)).length = 2 :=
    rfl
  rw [hw.scheduledCount, hw.failedCount, hone, hother, htwo] at hcounts
  refine ⟨n, k, summary, failed ++ dumps, hbegin, hwritten, hw.scheduledCount.trans hone,
    hw.failedCount.trans hother, by omega, by simp [hone, hother], (hread ?_ hstamp).2⟩
  simp only [List.forall_mem_cons]
  exact ⟨fun _ => by decide, fun _ => by decide, by simp⟩

end NightlyBackup
