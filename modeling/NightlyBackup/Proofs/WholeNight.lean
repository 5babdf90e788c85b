import NightlyBackup.Plan
import NightlyBackup.Proofs.Summing
import NightlyBackup.Proofs.Rounds

/-!
The whole night. Every phase leaves a record on the queue that the next one starts from, or has
it fail for a reason; what preparation left out stays left out. So no phase finds a record where
it does not expect it, and at the end every disk is accounted for.
-/

namespace NightlyBackup

open Night Planning

variable {disks : List Disk} {store : Store} {n m k g a f : Night} {s : Shrinking} {id : Nat}
  {name target : QueueName} {fail : Fault → Night → Prop}

/-! ## Between the phases -/

/-- Where a record may be between two phases, the second of which starts from `name`. -/
inductive SortedAt (name : QueueName) (n : Night) (id : Nat) : Prop
  | there (place : n.place id = some name) (kept : n.skips id = 0)
  | failed (place : n.place id = some .failed) (fault : (n.plan id).fault.isSome)
    (kept : n.skips id = 0)
  | leftOut (place : n.place id = none) (once : n.skips id = 1)

structure Sorted (name : QueueName) (n : Night) : Prop where
  sound : n.Sound
  each : ∀ {id}, id < n.plans.length → SortedAt name n id

namespace Sorted

/-- A phase moves the records that it starts from, and no others. -/
theorem phase (h : Sorted name n) (hname : name ≠ .failed) (hs : m.Sound) (hsame : n.SameDisks m)
    (hskipped : m.skipped = n.skipped)
    (hmoves : ∀ {id}, n.place id = some name → m.place id = some target ∨
      (m.place id = some .failed ∧ (m.plan id).fault.isSome))
    (hothers : ∀ {id}, n.place id ≠ some name →
      m.place id = n.place id ∧ (m.plan id).fault = (n.plan id).fault) : Sorted target m := by
  refine ⟨hs, fun {id} hid => ?_⟩
  rw [hsame.length] at hid
  have hskips : m.skips id = n.skips id := by rw [skips, skips, hskipped]
  cases h.each hid with
  | there place kept =>
    rcases hmoves place with hp | ⟨hp, hfault⟩
    · exact .there hp (hskips.trans kept)
    · exact .failed hp hfault (hskips.trans kept)
  | failed place fault kept =>
    obtain ⟨hp, hfault⟩ := hothers fun e => hname (Option.some.inj (e.symm.trans place))
    exact .failed (hp.trans place) (hfault ▸ fault) (hskips.trans kept)
  | leftOut place once =>
    obtain ⟨hp, -⟩ := hothers fun e => by cases e.symm.trans place
    exact .leftOut (hp.trans place) (hskips.trans once)

/-- All other queues are empty. -/
theorem empty (h : Sorted name n) (other : QueueName) (hname : other ≠ name)
    (hfailed : other ≠ .failed) : n.queues.members other = [] := by
  refine List.eq_nil_iff_forall_not_mem.mpr fun id hid => ?_
  have hp := h.sound.place_iff.mpr hid
  cases h.each (h.sound.lt_of_place hp) with
  | there place => exact hname (Option.some.inj (hp.symm.trans place))
  | failed place => exact hfailed (Option.some.inj (hp.symm.trans place))
  | leftOut place => cases hp.symm.trans place

theorem gathered {n₀ : Night} (hn : SetUp n₀ n) (hk : Closing [] n k) : Sorted .estimated k := by
  refine ⟨hk.sound, fun {id} hid => ?_⟩
  rw [hk.same.length] at hid
  have hskips : k.skips id = n.skips id := by rw [skips, skips, hk.skipped]
  have hleaving := hk.leaving id
  cases hn.prepared hid with
  | toAsk place kept =>
    rcases hleaving with ⟨-, (hp | ⟨hp, hfault⟩) | ⟨_, hmem, -⟩⟩ | ⟨-, e | ⟨e, -⟩⟩
    · exact .there hp (hskips.trans kept)
    · exact .failed hp hfault (hskips.trans kept)
    · cases hmem
    · cases e.symm.trans place
    · cases e.symm.trans place
  | failed place fault kept =>
    rcases hleaving with ⟨e, -⟩ | ⟨hp, e | ⟨-, hfault⟩⟩
    · cases e.symm.trans place
    · cases e.symm.trans place
    · exact .failed (hp.trans place) hfault (hskips.trans kept)
  | leftOut place once =>
    rcases hleaving with ⟨e, -⟩ | ⟨hp, -⟩
    · cases e.symm.trans place
    · exact .leftOut (hp.trans place) (hskips.trans once)

theorem analysed (h : Sorted .estimated g) (ha : Drawn g a) : Sorted .scheduled a :=
  h.phase (by decide) ha.orderly.sound ha.same ha.skipped (fun hp => (ha.each hp).place) fun hp =>
    ⟨(ha.others hp).1, congrArg DiskPlan.fault (ha.others hp).2⟩

theorem fitted (h : Sorted .scheduled a) (ha : a.Orderly) (hf : Fitted a s f) :
    Sorted .scheduled f :=
  h.phase (by decide) hf.reported.sound (hf.same ha)
    (hf.reported.skipped.trans (hf.logged ha).skipped) (hf.each ha) (hf.others ha)

theorem balanced (h : Sorted .scheduled f) (hk : Balanced f k) : Sorted .scheduled k :=
  h.phase (by decide) hk.orderly.sound hk.same hk.skipped
    (fun hp => Or.inl ((hk.place _).trans hp)) fun _ => ⟨hk.place _, hk.fault _⟩

end Sorted

/-! ## The planned night -/

/-- A record is in one place: once on the schedule, with a dump; once among those that have
failed, for a reason; or once on the list of those that are left out, and on no queue. -/
inductive InOnePlace (n : Night) (id : Nat) : Prop
  | scheduled (once : n.queues.scheduled.count id = 1)
    (only : ∀ name, id ∈ n.queues.members name → name = .scheduled)
    (dump : (n.plan id).dump.isSome) (kept : n.skips id = 0)
  | failed (once : n.queues.failed.count id = 1)
    (only : ∀ name, id ∈ n.queues.members name → name = .failed)
    (fault : (n.plan id).fault.isSome) (kept : n.skips id = 0)
  | leftOut (off : ∀ name, id ∉ n.queues.members name) (once : n.skips id = 1)

/-- A planned night: its records are the disks that take part, each of which is in one place,
and nothing is left on the other queues. -/
structure Accounted (disks : List Disk) (n : Night) : Prop where
  titles : n.records.map n.title = (disks.filter (·.todo)).map fun d => (d.host, d.name)
  each : ∀ id ∈ n.records, InOnePlace n id
  start : n.queues.start = []
  waiting : n.queues.waiting = []
  partialEstimate : n.queues.partialEstimate = []
  estimated : n.queues.estimated = []

theorem Sorted.inOnePlace (h : Sorted .scheduled n) (hn : n.Orderly) (hid : id < n.plans.length) :
    InOnePlace n id := by
  have honce : ∀ {name}, n.place id = some name → (n.queues.members name).count id = 1 ∧
      ∀ other, id ∈ n.queues.members other → other = name := by
    intro name hp
    have hmem := h.sound.place_iff.mp hp
    refine ⟨?_, fun other hm => h.sound.valid.apart hm hmem⟩
    rw [(h.sound.valid.nodup name).count, if_pos hmem]
  cases h.each hid with
  | there place kept =>
    obtain ⟨slot, hd, -⟩ := (hn.planned place).sized
    exact .scheduled (honce place).1 (honce place).2 (by rw [hd]; rfl) kept
  | failed place fault kept => exact .failed (honce place).1 (honce place).2 fault kept
  | leftOut place once => exact .leftOut (h.sound.valid.queueOf_eq_none_iff.mp place) once

theorem Sorted.accounted {n₀ : Night} (hfresh : n₀.Fresh (disks.filter (·.todo)))
    (h : Sorted .scheduled n) (hn : n.Orderly) (hsame : n₀.SameDisks n) : Accounted disks n where
  titles := hsame.titles.trans hfresh.titles
  each id hid := h.inOnePlace hn (by simpa [records] using hid)
  start := h.empty .start (by decide) (by decide)
  waiting := h.empty .waiting (by decide) (by decide)
  partialEstimate := h.empty .partialEstimate (by decide) (by decide)
  estimated := h.empty .estimated (by decide) (by decide)

namespace Planning

/-- Planning is broken off by an overflow. -/
def Overflown (e : Fault) (k : Night) : Prop :=
  ∃ what, k.totals.overflow = some what ∧ e = .overflow what

theorem withinWords_eq_ok {phase : Planning Unit} :
    withinWords phase n = .ok () k ↔ phase n = .ok () k ∧ k.totals.overflow = none := by
  constructor
  · intro h
    unfold withinWords at h
    split at h
    · rename_i m hphase
      split at h
      · cases h
        exact ⟨hphase, ‹_›⟩
      · cases h
    · cases h
  · rintro ⟨hphase, hwords⟩
    simp only [withinWords, hphase, hwords]

theorem withinWords_overflown {phase : Planning Unit} {what : Overflow} (h : phase n = .ok () k)
    (hwhat : k.totals.overflow = some what) : withinWords phase n = .error (.overflow what) k := by
  simp only [withinWords, h, hwhat]

theorem overflow_of_schedule (h : schedule g = .ok () k) : k.totals.overflow = none := by
  obtain ⟨_, a, -, h⟩ := ok_of_bind h
  obtain ⟨_, f, -, h⟩ := ok_of_bind h
  exact (withinWords_eq_ok.mp h).2

/-- A phase ends as it does on its own, unless something overflows. -/
theorem leads_withinWords {phase : Planning Unit} {post : Unit → Night → Prop}
    (h : Leads phase n post fail) :
    Leads (withinWords phase) n (fun a k => k.totals.overflow = none ∧ post a k)
      (fun e k => Overflown e k ∨ fail e k) := by
  rcases h.outcome with ⟨⟨⟩, m, hphase, hpost⟩ | ⟨e, m, hphase, hfail⟩
  · simp only [Leads, withinWords, hphase]
    cases hwhat : m.totals.overflow with
    | none => exact ⟨hwhat, hpost⟩
    | some what => exact .inl ⟨what, hwhat, rfl⟩
  · simp only [Leads, withinWords, hphase]
    cases hwhat : m.totals.overflow with
    | none => exact .inr hfail
    | some what => exact .inl ⟨what, hwhat, rfl⟩

/-- The phases after gathering end with a schedule, or with the fault that none fits, or are
broken off. -/
theorem leads_schedule (hg : Sorted .estimated g) :
    Leads schedule g
      (fun _ k => Sorted .scheduled k ∧ k.Orderly ∧ g.SameDisks k)
      (fun e k => Overflown e k ∨ (∃ why, e = .unfittable why) ∧
        Sorted .scheduled k ∧ k.Orderly ∧ g.SameDisks k) := by
  have he : g.scheduled = [] := hg.empty .scheduled (by decide) (by decide)
  simp only [schedule, leads_bind]
  refine (leads_withinWords (leads_analyzeAll hg.sound he)).imp ?_
  rintro _ a ⟨-, ha⟩
  have hsorted := hg.analysed ha
  refine (leads_withinWords (leads_fit ha.orderly)).mono ?_ ?_
  · rintro _ f ⟨-, s, hf, -⟩
    have hford := hf.orderly ha.orderly
    refine (leads_withinWords (leads_balance hford)).imp ?_
    rintro _ k ⟨-, hk⟩
    have hbalanced := hk.balanced hford
    exact ⟨(hsorted.fitted ha.orderly hf).balanced hbalanced, hbalanced.orderly,
      ha.same.trans ((hf.same ha.orderly).trans hbalanced.same)⟩
  · refine fun e f hfault => hfault.imp_right ?_
    rintro ⟨hwhy, s, hf⟩
    exact ⟨hwhy, hsorted.fitted ha.orderly hf, hf.orderly ha.orderly,
      ha.same.trans (hf.same ha.orderly)⟩

/-- The phases of a night up to the schedule of the dumps that were chosen. -/
def drawWith (store : Store) (gathering : Planning Unit) : Planning Unit := do
  withinWords (prepareAll store)
  withinWords gathering
  withinWords analyzeAll

/-- Where nothing could be promoted from a schedule that fits, the night is planned, and only notes
are made after that. -/
theorem exists_planned_atRest {gathering : Planning Unit}
    (hdrawn : drawWith store gathering n = .ok () a) (hfit : fit a = .ok () f)
    (hrest : f.AtRest) (hwords : f.totals.overflow = none) :
    ∃ k, planWith store gathering n = .ok () k ∧ Noted f k := by
  obtain ⟨_, m, hprepare, hdrawn⟩ := ok_of_bind hdrawn
  obtain ⟨_, g, hgather, hanalyze⟩ := ok_of_bind hdrawn
  have hfitted := withinWords_eq_ok.mpr ⟨hfit, hwords⟩
  obtain ⟨_, k, hbalance, hk, htotals⟩ :=
    (leads_balance_atRest hrest : Leads balance f _ never).exists_ok
  have hbalanced := withinWords_eq_ok.mpr ⟨hbalance, htotals ▸ hwords⟩
  have hends : Leads (planWith store gathering) n (fun _ l => l = k) never := by
    simp only [planWith, schedule, leads_bind, leads_iff_of_ok hprepare, leads_iff_of_ok hgather,
      leads_iff_of_ok hanalyze, leads_iff_of_ok hfitted, leads_iff_of_ok hbalanced]
  obtain ⟨_, _, hplan, rfl⟩ := hends.exists_ok
  exact ⟨_, hplan, hk⟩

end Planning

def tellsSizes (body : String) : List Turn :=
  [.ask 0, .packet 0 ⟨.rep, "OPTIONS features=200000000e0010000020;\n"⟩, .ask 0,
    .packet 0 ⟨.rep, body⟩]

def homeAndSrv : List Disk :=
  [Disk.plain "alpha" "/home" 10 default, Disk.plain "alpha" "/srv" 10 default]

end NightlyBackup
