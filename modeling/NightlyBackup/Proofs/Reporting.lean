import Mathlib.Data.List.Nodup
import NightlyBackup.Proofs.Confining
import NightlyBackup.Proofs.Fates
import NightlyBackup.Proofs.Fitting

/-!
What the operator hears of fitting. Every change that stands is reported once, the oldest first;
so the reports that name a disk tell whether its dump stays as it was, has fallen back or was
dropped, and no other disk is named or changed.
-/

namespace NightlyBackup

open Night Planning Delaying

variable {a n f : Night} {s : Shrinking} {id : Nat} {kept log : List BeforeImage}
  {image : BeforeImage}

/-! ## Reports -/

def Event.delays (title : String × String) : Event → Bool
  | .delayed host disk .. => (host, disk) = title
  | _ => false

namespace Delaying

def report (n : Night) (image : BeforeImage) : Event :=
  .delayed (n.hostName image.record) (n.diskName image.record) image.level image.deleted
    image.message

theorem delays_report (title : String × String) :
    (report n image).delays title = decide (n.title image.record = title) := rfl

/-- A change that stands is reported, and no name changes. -/
theorem told_settle : Leads (settle image) n (fun _ k => k.plans = n.plans ∧ k.hosts = n.hosts ∧
    k.events = n.events ++ [report n image]) anyhow := by
  simp only [settle, Planning.say, leads_bind, leads_get, leads_modify]
  split
  · refine leads_anyhow fun _ k hok => ?_
    obtain ⟨q, -, rfl⟩ := ok_of_onQueues hok
    exact ⟨rfl, rfl, rfl⟩
  · exact ⟨rfl, rfl, rfl⟩

theorem told_settleLog :
    Leads (kept.forM settle) n (fun _ k => k.events = n.events ++ kept.map (report n)) anyhow := by
  induction kept generalizing n with
  | nil => exact (List.append_nil _).symm
  | cons image kept ih =>
    show Leads (settle image >>= fun _ => kept.forM settle) n _ anyhow
    rw [leads_bind]
    apply told_settle.imp
    rintro _ m ⟨hplans, hhosts, hevents⟩
    apply ih.imp
    intro _ k hk
    have hreport : report m = report n := by
      funext i
      simp only [report, hostName, diskName, plan, host, hplans, hhosts]
    rw [hk, hevents, hreport, List.append_assoc]
    rfl

end Delaying

namespace Fitted

/-- The operator hears of what stands, the oldest change first, and of nothing else. -/
theorem events (h : Fitted a s f) :
    f.events = a.events ++ s.log.reverse.map (report s.night) := by
  rw [told_settleLog.ok h.settled, h.revised.events]

theorem explained (h : Fitted a s f) (ha : a.Orderly) : Explained a s.night s.log :=
  Explained.changes (s := ⟨a, []⟩) (.refl ha) .refl h.changes

/-- The reports that name a disk are those of the images of its record. -/
theorem reports_of (h : Fitted a s f) (ha : a.Orderly) (ht : (a.records.map a.title).Nodup)
    (hp : a.place id = some .scheduled) :
    (s.log.reverse.map (report s.night)).filter (Event.delays (a.title id)) =
      (imagesOf id s.log).reverse.map (report s.night) := by
  have hl := h.logged ha
  have hknown : ∀ {j}, a.place j = some .scheduled → j ∈ a.records := by
    intro j hj
    exact List.mem_range.mpr (ha.sound.lt_of_place hj)
  have hnamed : ∀ i ∈ s.log.reverse,
      ((Event.delays (a.title id)) ∘ report s.night) i = decide (i.record = id) := by
    intro i hi
    have hi := hknown (hl.origin i (List.mem_reverse.mp hi))
    rw [Function.comp_apply, delays_report, hl.same.title]
    refine decide_eq_decide.mpr ⟨fun e => ?_, fun e => by rw [e]⟩
    exact List.inj_on_of_nodup_map ht hi (hknown hp) e
  rw [List.filter_map, List.filter_congr hnamed, imagesOf, List.filter_reverse]

end Fitted

/-! ## What becomes of a scheduled dump -/

/-- How fitting may end for a record that was scheduled. -/
inductive Ending
  | stays
  | fallsBack
  | fails
  deriving DecidableEq, Repr

def heardOf (a : Night) (told : List Event) (id : Nat) : List Event :=
  told.filter (Event.delays (a.title id))

namespace Ending

/-- What an ending means for a record of `a`, when fitting leads to `f` and tells the operator
`told`. A dump that stays is not mentioned; of one that falls back and of one that is dropped the
operator hears once, and twice of a dump that fell back before it was dropped. -/
def Holds (a f : Night) (told : List Event) (id : Nat) : Ending → Prop
  | stays => f.place id = some .scheduled ∧ (f.plan id).dump = (a.plan id).dump ∧
      heardOf a told id = []
  | fallsBack => f.place id = some .scheduled ∧ (a.plan id).FellBack (f.plan id) ∧
      ∃ reason, heardOf a told id =
        [.delayed (a.hostName id) (a.diskName id) 0 false reason]
  | fails => f.place id = some .failed ∧ (f.plan id).fault.isSome ∧
      ∃ before level reason, (f.plan id).dumpLevel? = some level ∧
        heardOf a told id =
          before ++ [.delayed (a.hostName id) (a.diskName id) level true reason] ∧
        (¬(a.plan id).FellBack (f.plan id) ∧ (f.plan id).dump = (a.plan id).dump ∧ before = [] ∨
          (a.plan id).FellBack (f.plan id) ∧ ∃ earlier, before =
            [.delayed (a.hostName id) (a.diskName id) 0 false earlier])

theorem unique {o o' : Ending} {told : List Event} (h : o.Holds a f told id)
    (h' : o'.Holds a f told id) : o = o' := by
  have hplace : ∀ {o : Ending}, o.Holds a f told id → (o = .fails ↔ f.place id = some .failed) := by
    rintro (_ | _ | _) h
    · simp [h.1]
    · simp [h.1]
    · simp [h.1]
  have hheard : ∀ {o : Ending}, o.Holds a f told id → (o = .stays ↔ heardOf a told id = []) := by
    rintro (_ | _ | _) h
    · simp [h.2.2]
    · obtain ⟨-, -, reason, h⟩ := h
      simp [h]
    · obtain ⟨-, -, before, level, reason, -, h, -⟩ := h
      simp [h]
  have hfails : o = .fails ↔ o' = .fails := (hplace h).trans (hplace h').symm
  have hstays : o = .stays ↔ o' = .stays := (hheard h).trans (hheard h').symm
  clear hplace hheard h h'
  cases o <;> cases o' <;> simp at hfails hstays ⊢

end Ending

/-- The level of a dropped dump is that of its image. -/
theorem Delaying.Faithful.dumpLevel {p : DiskPlan} {q : Option QueueName}
    (hi : Faithful image p q) (hd : image.deleted = true) : p.dumpLevel? = some image.level := by
  have hnow := hi.now
  rw [hd] at hnow
  rw [DiskPlan.dumpLevel?_eq, hnow.1]
  exact hi.level

namespace Fitted

variable {told : List Event}

/-- A record that was scheduled has one of the three endings. -/
theorem exists_ending (h : Fitted a s f) (ha : a.Orderly) (ht : (a.records.map a.title).Nodup)
    (hp : a.place id = some .scheduled) :
    ∃ o : Ending, o.Holds a f (s.log.reverse.map (report s.night)) id := by
  have hl := h.logged ha
  obtain ⟨-, hfate⟩ := h.explained ha id hp
  have hheard : heardOf a (s.log.reverse.map (report s.night)) id =
      (imagesOf id s.log).reverse.map (report s.night) := h.reports_of ha ht hp
  have hplan := h.reported.plan id
  have hstill : s.night.place id = some .scheduled → f.place id = some .scheduled :=
    h.reported.scheduled_iff.mpr
  have hgone : s.night.place id = none → f.place id = some .failed := by
    intro hnone
    rcases h.each ha hp with hs | ⟨hf, -⟩
    · cases hnone.symm.trans (h.reported.scheduled_iff.mp hs)
    · exact hf
  have hreport : ∀ {i}, i ∈ imagesOf id s.log → report s.night i =
      .delayed (a.hostName id) (a.diskName id) i.level i.deleted i.message := by
    intro i hi
    have htitle := Prod.mk.inj (hl.same.title id)
    rw [report, (mem_imagesOf.mp hi).2, htitle.1, htitle.2]
  have hlevel : ∀ {i}, i ∈ imagesOf id s.log → i.deleted = true →
      (s.night.plan id).dumpLevel? = some i.level := by
    intro i hi hd
    obtain ⟨hlog, hr⟩ := mem_imagesOf.mp hi
    have hfaithful := hl.faithful i hlog
    rw [hr] at hfaithful
    exact hfaithful.dumpLevel hd
  generalize himages : imagesOf id s.log = images at *
  generalize hplace : s.night.place id = place at *
  cases hfate with
  | stays dump => exact ⟨.stays, hstill rfl, by rw [hplan, dump], hheard⟩
  | fellBack fell softly =>
    rename_i soft
    have hsoft := hreport (List.mem_singleton_self soft)
    rw [softly.level, softly.deleted] at hsoft
    exact ⟨.fallsBack, hstill rfl, by rwa [hplan], soft.message, by simpa [hsoft] using hheard⟩
  | dropped dump fault deleted =>
    rename_i hard
    have hm := List.mem_singleton_self hard
    have hhard := hreport hm
    rw [deleted] at hhard
    refine ⟨.fails, hgone rfl, by rwa [hplan], [], hard.level, hard.message, ?_,
      by simpa [hhard] using hheard, Or.inl ⟨fun hfell => ?_, by rw [hplan, dump], rfl⟩⟩
    · rw [hplan]
      exact hlevel hm deleted
    · rw [hplan] at hfell
      exact hfell.dump_ne (ha.planned hp) dump
  | both fell softly fault deleted =>
    rename_i hard soft
    have hhard := hreport (List.mem_cons_self ..)
    have hsoft := hreport (List.mem_cons_of_mem hard (List.mem_singleton_self soft))
    rw [deleted] at hhard
    rw [softly.level, softly.deleted] at hsoft
    refine ⟨.fails, hgone rfl, by rwa [hplan], [report s.night soft], hard.level, hard.message, ?_,
      by simpa [hhard] using hheard, Or.inr ⟨by rwa [hplan], soft.message, by rw [hsoft]⟩⟩
    rw [hplan]
    exact hlevel (List.mem_cons_self ..) deleted

end Fitted

/-- **The report of fitting.** When fitting has ended, whether the schedule fits or not, every
record that was scheduled has exactly one of the three endings, with the reports that belong to
it; no other record is changed, and none is reported. -/
theorem fitting_reported (ha : a.Orderly) (ht : (a.records.map a.title).Nodup) :
    ∃ f told, (fit a = .ok () f ∨ ∃ why, fit a = .error (.unfittable why) f) ∧
      f.events = a.events ++ told ∧
      (∀ id ∈ a.scheduled, ∃! o : Ending, o.Holds a f told id) ∧
      (∀ id ∉ a.scheduled, f.plan id = a.plan id ∧ f.place id = a.place id) ∧
      ∀ e ∈ told, ∃ id ∈ a.scheduled, e.delays (a.title id) = true := by
  obtain ⟨s, f, h, hfit⟩ := exists_fitted ha
  refine ⟨f, s.log.reverse.map (report s.night), hfit, h.events, fun id hid => ?_,
    fun id hid => ?_, fun e he => ?_⟩
  · obtain ⟨o, ho⟩ := h.exists_ending ha ht (ha.sound.mem_scheduled.mp hid)
    exact ⟨o, ho, fun o' ho' => Ending.unique ho' ho⟩
  · have hp : a.place id ≠ some .scheduled := fun hp => hid (ha.sound.mem_scheduled.mpr hp)
    refine ⟨?_, (h.others ha hp).1⟩
    rw [h.reported.plan, h.revised.plan hp]
  · obtain ⟨image, hi, rfl⟩ := List.mem_map.mp he
    have hl := h.logged ha
    have hp := hl.origin image (List.mem_reverse.mp hi)
    refine ⟨image.record, ha.sound.mem_scheduled.mpr hp, ?_⟩
    rw [delays_report, hl.same.title]
    exact decide_eq_true rfl

/-! ## Three dumps on one tape -/

def DiskPlan.withDumps (dumps : List (Nat × Nat)) (fallback : Option Nat) (p : DiskPlan) :
    DiskPlan :=
  { p with
    levels := dumps.map fun dump =>
      { level := dump.1, watermark := "", size := .sized dump.2, media := some dump.2 }
    dump := some 0
    degraded := fallback
    lastLevel := some 0 }

theorem DiskPlan.withDumps_planned {dumps : List (Nat × Nat)} {fallback : Option Nat}
    (p : DiskPlan) (hd : dumps ≠ [])
    (hf : ∀ slot, fallback = some slot → ∃ dump, dumps[slot]? = some dump ∧ 0 < dump.1) :
    (p.withDumps dumps fallback).Planned where
  sized := by
    obtain ⟨dump, rest, rfl⟩ := List.exists_cons_of_ne_nil hd
    exact ⟨0, rfl, rfl⟩
  stands := by
    intro slot _ e he
    rw [withDumps, List.getElem?_map] at he
    obtain ⟨dump, -, rfl⟩ := Option.map_eq_some_iff.mp he
    rfl
  fallback := by
    intro slot hslot
    obtain ⟨dump, hdump, hpos⟩ := hf slot hslot
    have hlevel : (p.withDumps dumps fallback).levels[slot]? =
        some { level := dump.1, watermark := "", size := .sized dump.2, media := some dump.2 } := by
      simp [withDumps, hdump]
    refine ⟨?_, dump.1, ?_, hpos⟩
    · rw [Sized, mediaSize?, hlevel]
      rfl
    · rw [levelAt?, hlevel]
      rfl

def Night.withDump (n : Night) (id : Nat) (dumps : List (Nat × Nat)) (fallback : Option Nat) :
    Night :=
  (n.withQueues (n.queues.join .scheduled id)).setPlan id (·.withDumps dumps fallback)

def Night.counted (n : Night) : Night :=
  n.withTotals
    { size := n.media.emptyTape +
        totalSize (n.scheduled.map fun id => n.media.dumpCost (n.plan id).dumpMediaSize)
      fullSize := totalSize ((n.scheduled.filter fun id => (n.plan id).isFull).map fun id =>
        (n.plan id).dumpMediaSize) }

/-- A schedule of dumps that can be made, whatever its accounts. -/
structure Night.Drafted (n : Night) : Prop where
  sound : n.Sound
  planned : ∀ {id}, n.place id = some .scheduled → (n.plan id).Planned

/-- At the beginning nothing is scheduled. -/
theorem Night.Fresh.drafted {disks : List Disk} (h : n.Fresh disks) : n.Drafted := by
  refine ⟨h.sound, fun {id} hp => ?_⟩
  cases (h.place id).symm.trans hp

theorem Night.Drafted.counted (h : n.Drafted) : n.counted.Orderly :=
  ⟨h.sound.withTotals _, h.planned, rfl, rfl⟩

theorem Night.Drafted.withDump {dumps : List (Nat × Nat)} {fallback : Option Nat}
    (h : n.Drafted) (hid : id < n.plans.length) (hp : n.place id = none) (hd : dumps ≠ [])
    (hf : ∀ slot, fallback = some slot → ∃ dump, dumps[slot]? = some dump ∧ 0 < dump.1) :
    (n.withDump id dumps fallback).Drafted := by
  have hs : (n.withQueues (n.queues.join .scheduled id)).Sound := h.sound.join hid hp
  refine ⟨hs.setPlan _, fun {j} hj => ?_⟩
  by_cases e : j = id
  · subst e
    have hlt : j < (n.withQueues (n.queues.join .scheduled j)).plans.length := hid
    rw [Night.withDump, plan_setPlan_self hlt]
    exact DiskPlan.withDumps_planned _ hd hf
  · have hplace : (n.withDump id dumps fallback).place j = n.place j :=
      (h.sound.place_join hid hp j).trans (if_neg e)
    rw [Night.withDump, plan_setPlan_of_ne e]
    exact h.planned (hplace.symm.trans hj)

/-- Three disks on a tape of `tape` KB: a full dump that can fall back to an incremental, and two
incrementals. -/
def threeDumps (tape full fallback second third : Nat) : Night :=
  match Night.begin { tapeLength := tape } [Disk.plain "alpha" "/home" 10 default,
    Disk.plain "beta" "/srv" 10 default, Disk.plain "beta" "/var" 10 default] default 0 with
  | .ok n => (((n.withDump 0 [(0, full), (1, fallback)] (some 1)).withDump 1 [(1, second)] none
      ).withDump 2 [(1, third)] none).counted
  | .error _ => default

theorem threeDumps_orderly (tape full fallback second third : Nat) :
    (threeDumps tape full fallback second third).Orderly := by
  obtain ⟨n, hbegin, hlength, hp1, hp2, hthree⟩ : ∃ n, Night.begin { tapeLength := tape }
      [Disk.plain "alpha" "/home" 10 default, Disk.plain "beta" "/srv" 10 default,
        Disk.plain "beta" "/var" 10 default] default 0 = .ok n ∧ n.plans.length = 3 ∧
      (n.withDump 0 [(0, full), (1, fallback)] (some 1)).place 1 = none ∧
      ((n.withDump 0 [(0, full), (1, fallback)] (some 1)).withDump 1 [(1, second)]
        none).place 2 = none ∧
      threeDumps tape full fallback second third =
        (((n.withDump 0 [(0, full), (1, fallback)] (some 1)).withDump 1 [(1, second)] none
          ).withDump 2 [(1, third)] none).counted :=
    ⟨_, rfl, rfl, rfl, rfl, rfl⟩
  have hfresh := fresh_of_begin hbegin
  have hlen : ∀ {m : Night} {id : Nat} {dumps : List (Nat × Nat)} {fallback : Option Nat},
      m.plans.length = 3 → (m.withDump id dumps fallback).plans.length = 3 := by
    intro m id dumps fallback h
    simpa [Night.withDump] using h
  rw [hthree]
  refine Drafted.counted (((hfresh.drafted.withDump (by omega) (hfresh.place 0) (by simp) (by simp)
    ).withDump ?_ hp1 (by simp) (by simp)).withDump ?_ hp2 (by simp) (by simp))
  · rw [hlen hlength]
    decide
  · rw [hlen (hlen hlength)]
    decide

/-- A tape on which one dump has to fall back and another one to be dropped. -/
def crowded : Night := threeDumps 1000 1000 100 500 450

set_option synthInstance.maxSize 1000 in
theorem leads_fit_crowded : Leads fit crowded (fun _ f =>
    f.place 0 = some .scheduled ∧ (f.plan 0).dump = some 1 ∧
    f.place 1 = some .scheduled ∧ (f.plan 1).dump = some 0 ∧ f.place 2 = some .failed ∧
    f.scheduled = [1, 0] ∧ (f.plan 0).degraded = some 1 ∧ (f.plan 1).degraded = none ∧
    f.totals.overflow = none) never := by
  have hoversize : crowded.scheduled.forM delayIfOversize ⟨crowded, []⟩ = .ok () ⟨crowded, []⟩ :=
    rfl
  have hyield : yieldingFulls crowded = [0] := List.mergeSort_singleton ..
  simp only [fit, delayDumps, leads_bind, leads_get, leads_withLog, leads_getNight,
    leads_iff_of_ok hoversize, hyield]
  decide +kernel

/-- The full dump of the crowded tape falls back, the bigger incremental stays, and the smaller
one is dropped. -/
theorem fitting_reported_of_crowded : crowded.Orderly ∧
    (crowded.records.map crowded.title).Nodup ∧ ∃ f told, fit crowded = .ok () f ∧
      f.events = crowded.events ++ told ∧ Ending.fallsBack.Holds crowded f told 0 ∧
      Ending.stays.Holds crowded f told 1 ∧ Ending.fails.Holds crowded f told 2 := by
  have horderly : crowded.Orderly := threeDumps_orderly ..
  have htitles : (crowded.records.map crowded.title).Nodup := by decide
  obtain ⟨f, told, hfit, hevents, hendings, -⟩ := fitting_reported horderly htitles
  obtain ⟨_, g, hrun, hp0, hd0, hp1, hd1, hp2, -⟩ := leads_fit_crowded.exists_ok
  have hok : fit crowded = .ok () f := by
    rcases hfit with hok | ⟨why, hfail⟩
    · exact hok
    · cases hrun.symm.trans hfail
  cases hrun.symm.trans hok
  refine ⟨horderly, htitles, f, told, hok, hevents, ?_, ?_, ?_⟩
  · obtain ⟨o, ho, -⟩ := hendings 0 (by decide)
    cases o with
    | stays => cases hd0.symm.trans ho.2.1
    | fallsBack => exact ho
    | fails => cases hp0.symm.trans ho.1
  · obtain ⟨o, ho, -⟩ := hendings 1 (by decide)
    cases o with
    | stays => exact ho
    | fallsBack =>
      obtain ⟨-, ⟨hfull, -⟩, -⟩ := ho
      cases hfull
    | fails => cases hp1.symm.trans ho.1
  · obtain ⟨o, ho, -⟩ := hendings 2 (by decide)
    cases o with
    | stays => cases hp2.symm.trans ho.1
    | fallsBack => cases hp2.symm.trans ho.1
    | fails => exact ho

end NightlyBackup
