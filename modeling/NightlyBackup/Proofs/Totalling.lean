import Mathlib.Algebra.Order.BigOperators.Group.List
import Mathlib.Algebra.Order.Group.Nat
import NightlyBackup.Proofs.Arrivals
import NightlyBackup.Proofs.Expecting
import NightlyBackup.Proofs.Phases
import NightlyBackup.Proofs.Writing

/-!
How large the total of a schedule can be. Whatever hosts report, and however it is compressed, a
dump takes no more than the greatest whole number of 64 bits with a sign, and what is expected from
a history no more than what is recorded there. So the total has a bound for each number of dumps,
and this bound is reached. But for two dumps it is past what a machine word holds.
-/

namespace NightlyBackup

open Night Planning Text

variable {n g a : Night} {id slot limit : Nat} {p q : DiskPlan}
  {act : Planning Unit}

/-- The greatest size that can be reported. -/
def reportLimit : Nat := 9223372036854775807

theorem le_reportLimit {size : Int} (h : (WholeRange.signed 64).Holds size) :
    size.toNat ≤ reportLimit := by
  have hle : size ≤ (reportLimit : Int) := h.2
  omega

/-! ## Sizes that are expected -/

namespace History

variable {h : History} {level guess : Nat} {expected : ExpectedSize}

def UpTo (h : History) (limit : Nat) : Prop :=
  (∀ d ∈ h.dumps, d.size ≤ limit) ∧ ∀ e ∈ h.levels, e.2.size ≤ limit

instance (h : History) (limit : Nat) : Decidable (h.UpTo limit) :=
  inferInstanceAs (Decidable (_ ∧ _))

theorem upTo_empty : ({} : History).UpTo limit := by simp [UpTo]

theorem UpTo.levelSize_le (hup : h.UpTo limit) (level : Nat) : h.levelSize level ≤ limit := by
  unfold levelSize level?
  cases hlast : h.levels.lookup level with
  | none => exact Nat.zero_le limit
  | some record =>
    obtain ⟨before, after, hlevels, -⟩ := List.lookup_eq_some_iff.mp hlast
    have hmem : (level, record) ∈ h.levels := by simp [hlevels]
    exact hup.2 _ hmem

theorem RestsOn.size_le (hrests : RestsOn h level guess expected) (hup : h.UpTo limit)
    (hguess : guess ≤ limit) : expected.size ≤ limit := by
  cases hrests with
  | dumps size least greatest =>
    obtain ⟨s, hs, hle⟩ := greatest
    obtain ⟨d, hd, rfl⟩ := List.mem_map.mp hs
    exact Nat.le_trans hle (hup.1 d (List.mem_filter.mp hd).1)
  | record => exact hup.levelSize_le level
  | nothing => exact hguess

/-- What is expected from a history is no more than what is recorded in it, but for the guess for
a new disk. -/
theorem UpTo.expectedSize_le (hup : h.UpTo limit) (hguess : newDiskGuess ≤ limit) (level : Nat)
    (lastLevel : Option Nat) (tapeLength : Nat) :
    (h.expectedSize level lastLevel tapeLength).size ≤ limit := by
  have hfull : ∀ last, (h.expectedSize 0 last tapeLength).size ≤ limit := fun last =>
    (h.expectedSize_restsOn 0 last tapeLength).size_le hup
      (Nat.le_trans (Nat.min_le_left _ _) hguess)
  -- the guess for an incremental is a tenth of what is expected of a full dump or one level below
  induction level generalizing lastLevel with
  | zero => exact hfull lastLevel
  | succ level ih =>
    refine (h.expectedSize_restsOn (level + 1) lastLevel tapeLength).size_le hup ?_
    unfold guessedSize
    rw [if_neg (Nat.succ_ne_zero level)]
    split
    · exact Nat.le_trans (Nat.div_le_self _ _) (hfull lastLevel)
    · exact Nat.le_trans (Nat.div_le_self _ _) (ih (some level))

end History

/-! ## Sizes that are learned -/

/-- The estimate has no size on media yet, and no size that is greater than `limit`. -/
def LevelEstimate.UpTo (e : LevelEstimate) (limit : Nat) : Prop :=
  e.media = none ∧ ∀ kb ∈ e.size.kb?, kb ≤ limit

theorem LevelEstimate.upTo_setSize {e : LevelEstimate} {size : SizeEstimate} {guessed : Bool}
    (h : ∀ kb ∈ size.kb?, kb ≤ limit) : (e.setSize size guessed).UpTo limit := ⟨rfl, h⟩

namespace DiskPlan

/-- Neither what is known of the sizes of a disk nor its history has a size greater than `limit`. -/
structure UpTo (p : DiskPlan) (limit : Nat) : Prop where
  sizes : ∀ e ∈ p.levels, e.UpTo limit
  history : (p.history.getD {}).UpTo limit

namespace UpTo

theorem setSize {size : SizeEstimate} {guessed : Bool} (hp : p.UpTo limit)
    (hsize : ∀ kb ∈ size.kb?, kb ≤ limit) : (p.setSize slot size guessed).UpTo limit := by
  refine ⟨fun e he => ?_, hp.history⟩
  obtain ⟨i, hi⟩ := List.mem_iff_getElem?.mp he
  rw [DiskPlan.setSize, List.getElem?_modify] at hi
  obtain ⟨old, hold, rfl⟩ := Option.map_eq_some_iff.mp hi
  split
  · exact LevelEstimate.upTo_setSize hsize
  · exact hp.sizes old (List.mem_of_getElem? hold)

theorem takeSize (hp : p.UpTo limit) (level : Int) {size : Int}
    (hsize : size.toNat ≤ limit) : (p.takeSize level size).UpTo limit := by
  unfold DiskPlan.takeSize
  split
  · split
    · split
      · exact hp.setSize nofun
      · split
        · exact hp.setSize fun kb hkb => Option.some.inj hkb ▸ hsize
        · exact hp
    · exact hp
  · exact hp

/-- Nothing is learned that is greater than what can be reported or is recorded. -/
theorem learning (hlimit : reportLimit ≤ limit) (h : Learning p q) (hp : p.UpTo limit) :
    q.UpTo limit := by
  cases h with
  | noted same =>
    have hlevels : q.levels = p.levels := congrArg Knowledge.levels same
    have hhistory : q.history = p.history := congrArg Knowledge.history same
    exact ⟨hlevels ▸ hp.sizes, hhistory ▸ hp.history⟩
  | expected capacity =>
    refine ⟨fun e he => ?_, hp.history⟩
    obtain ⟨old, -, rfl⟩ := List.mem_map.mp he
    have hguess : newDiskGuess ≤ limit := Nat.le_trans (by decide) hlimit
    refine LevelEstimate.upTo_setSize fun kb hkb => Option.some.inj hkb ▸ ?_
    exact hp.history.expectedSize_le hguess old.level p.lastLevel capacity
  | expired =>
    refine ⟨fun e he => ?_, hp.history⟩
    obtain ⟨old, hold, rfl⟩ := List.mem_map.mp he
    split
    · exact LevelEstimate.upTo_setSize nofun
    · exact hp.sizes old hold
  | told level fits => exact hp.takeSize level (Nat.le_trans (le_reportLimit fits) hlimit)

end UpTo

end DiskPlan

/-! ## Sizes on media -/

/-- Whatever compression makes of a dump, it is no more than can be reported. -/
theorem compressedSize_le (ratio : Float) (native : Nat) :
    compressedSize ratio native ≤ reportLimit := by
  have hlt := (Float.ofNat native * if ratio ≤ 1.1 then ratio else 1.1).toInt64.toInt_lt
  simp only [compressedSize, reportLimit]
  omega

namespace DiskPlan

theorem ratedSize_le (hlimit : reportLimit ≤ limit) {native : Nat} (hnative : native ≤ limit)
    (level : Nat) : p.ratedSize level native ≤ limit := by
  unfold ratedSize
  split
  · exact hnative
  · exact Nat.le_trans (compressedSize_le _ _) hlimit

theorem UpTo.mediaSize?_le (hp : p.UpTo limit) (hlimit : reportLimit ≤ limit) {kb : Nat}
    (h : p.mediaSize? slot = some kb) : kb ≤ limit := by
  obtain ⟨e, he, hkb⟩ := Option.bind_eq_some_iff.mp h
  obtain ⟨hmedia, hsizes⟩ := hp.sizes e (List.mem_of_getElem? he)
  obtain ⟨native, hnative, rfl⟩ := Option.map_eq_some_iff.mp hkb
  rw [hmedia]
  exact ratedSize_le hlimit (hsizes native hnative) e.level

theorem UpTo.dumpMediaSize_le (hp : p.UpTo limit) (hlimit : reportLimit ≤ limit) :
    p.dumpMediaSize ≤ limit := by
  unfold dumpMediaSize
  cases hsize : p.dump.bind p.mediaSize? with
  | none => exact Nat.zero_le limit
  | some kb =>
    obtain ⟨slot, -, hkb⟩ := Option.bind_eq_some_iff.mp hsize
    exact hp.mediaSize?_le hlimit hkb

theorem dumpMediaSize_fixDumpMedia (p : DiskPlan) :
    p.fixDumpMedia.dumpMediaSize = p.dumpMediaSize := (sameRank_fixDumpMedia p).2

theorem dumpMediaSize_fixFullMedia (p : DiskPlan) :
    p.fixFullMedia.dumpMediaSize = p.dumpMediaSize := by
  unfold fixFullMedia
  split
  · split
    · exact dumpMediaSize_fixMedia
    · rfl
  · rfl

/-- A dump that is chosen takes no more than the sizes that were learned allow. -/
theorem UpTo.analysed_le (hp : p.UpTo limit) (hlimit : reportLimit ≤ limit) :
    p.analysed.dumpMediaSize ≤ limit := by
  have hsame : ∀ q : DiskPlan, q.knowledge = p.knowledge → q.UpTo limit := fun q hq =>
    hp.learning hlimit (.noted hq)
  unfold analysed
  split
  · rw [dumpMediaSize_fixFullMedia, dumpMediaSize_fixDumpMedia]
    exact (hsame (takeChoice p.choose p) rfl).dumpMediaSize_le hlimit
  · exact (hsame { p with fault := some "no estimate" } rfl).dumpMediaSize_le hlimit

end DiskPlan

/-! ## The total -/

theorem Media.dumpCost_eq (media : Media) (size : Nat) :
    media.dumpCost size = media.overhead + size := by
  simp only [dumpCost, overhead]
  omega

/-- What dumps cost on media, apart from their sizes, is the same for each. -/
theorem totalSize_dumpCost (media : Media) (ids : List Nat) (size : Nat → Nat) :
    totalSize (ids.map fun id => media.dumpCost (size id)) =
      ids.length * media.overhead + totalSize (ids.map size) := by
  induction ids with
  | nil => simp
  | cons id ids ih =>
    rw [List.map_cons, totalSize_cons, ih, media.dumpCost_eq, List.map_cons, totalSize_cons,
      List.length_cons, Nat.succ_mul]
    omega

theorem totalSize_le {sizes : List Nat} (h : ∀ kb ∈ sizes, kb ≤ limit) :
    totalSize sizes ≤ sizes.length * limit := by
  have hsum : sizes.sum ≤ sizes.length • limit := List.sum_le_card_nsmul sizes limit h
  exact hsum

def Night.dumpSizes (n : Night) : List Nat := n.scheduled.map fun id => (n.plan id).dumpMediaSize

theorem Night.Exact.size_eq (h : n.Exact) :
    n.totals.size = (n.scheduled.length + 2) * n.media.overhead + totalSize n.dumpSizes := by
  have hcosts := totalSize_dumpCost n.media n.scheduled fun id => (n.plan id).dumpMediaSize
  rw [h.size, hcosts, Media.emptyTape, Night.dumpSizes, Nat.add_mul]
  omega

/-- With no dump above a limit, the total has a bound for the number of dumps. -/
theorem Night.Exact.size_le (h : n.Exact) (hsizes : ∀ kb ∈ n.dumpSizes, kb ≤ limit) :
    n.totals.size ≤
      (n.scheduled.length + 2) * n.media.overhead + n.scheduled.length * limit := by
  have hsum := totalSize_le hsizes
  rw [Night.dumpSizes, List.length_map] at hsum
  rw [h.size_eq, Night.dumpSizes]
  omega

/-- A schedule whose total is past a machine word is broken off where it is drawn up. -/
theorem overflown_of_size (ha : analyzeAll g = .ok () a)
    (hsize : Settings.wordLimit < a.totals.size) :
    ∃ what, withinWords analyzeAll g = .error (.overflow what) a := by
  cases hwhat : a.totals.overflow with
  | none =>
    have hle := (fit_of_analyzed.ok ha hwhat).size.2
    simp only [Settings.wordLimit, IntWord.greatest] at hsize hle
    omega
  | some what => exact ⟨what, withinWords_overflown ha hwhat⟩

section
variable {s : Settings} {disks : List Disk} {r : Rotation} {today : Int} {store : Store}
  {n₀ : Night}

/-- However sizes are gathered, what is learned is no greater than what can be reported or is
recorded. -/
theorem upTo_of_gathered (hbegin : Night.begin s disks r today = .ok n₀)
    (hprepare : prepareAll store n₀ = .ok () n) (hgathering : Gathering act)
    (hact : act n = .ok () g) (hlimit : reportLimit ≤ limit)
    (hrecorded : ∀ p ∈ n.plans, (p.history.getD {}).UpTo limit) (id : Nat) :
    (g.plan id).UpTo limit := by
  obtain ⟨hsetUp, hn, hc⟩ := conversing_of_prepared hbegin hprepare
  have hlearns := (hgathering.learns hn hc).reached hact
  have hpending := (pending_kept.prepareAll
    (fun id => by rw [(fresh_of_begin hbegin).levels]; simp) store).ok hprepare
  refine hlearns.keeps (P := (·.UpTo limit)) (fun f hf p hp => ?_) (fun id => ⟨?_, ?_⟩) id
  · exact (hf p).keeps (DiskPlan.UpTo.learning hlimit) hp
  · intro e he
    obtain ⟨hsize, hmedia⟩ := hpending id e he
    exact ⟨hmedia, by simp [hsize, SizeEstimate.kb?]⟩
  · by_cases hid : id < n.plans.length
    · rw [plan, List.getD_eq_getElem?_getD, List.getElem?_eq_getElem hid]
      exact hrecorded _ (List.getElem_mem hid)
    · rw [plan_of_le (Nat.le_of_not_lt hid)]
      exact History.upTo_empty

/-- **The total of the schedule.** However sizes are gathered, the total is the sum of the sizes of
the scheduled dumps on media and of what each of them, and the tape, takes besides. No dump is
greater than a host can report or than is recorded, which gives the total a bound for each number
of dumps. If the sum is `2 ^ 64` or more, planning is broken off before it is compared with
anything. -/
theorem scheduled_total_bounded (hbegin : Night.begin s disks r today = .ok n₀)
    (hprepare : prepareAll store n₀ = .ok () n) (hgathering : Gathering act)
    (hlimit : reportLimit ≤ limit)
    (hrecorded : ∀ p ∈ n.plans, (p.history.getD {}).UpTo limit) :
    ∃ g a, act n = .ok () g ∧ analyzeAll g = .ok () a ∧
      (∀ kb ∈ a.dumpSizes, kb ≤ limit) ∧
      a.totals.size =
        (a.scheduled.length + 2) * (s.tapeBlocksize + s.tapeFilemark) + totalSize a.dumpSizes ∧
      a.totals.size ≤ (a.scheduled.length + 2) * (s.tapeBlocksize + s.tapeFilemark) +
        a.scheduled.length * limit ∧
      (Settings.wordLimit <
          (a.scheduled.length + 2) * (s.tapeBlocksize + s.tapeFilemark) + totalSize a.dumpSizes →
        ∃ what, withinWords analyzeAll g = .error (.overflow what) a) := by
  obtain ⟨g, hg, hsorted, -⟩ := exists_gathered hbegin hprepare hgathering
  have he : g.scheduled = [] := hsorted.empty .scheduled (by decide) (by decide)
  obtain ⟨_, a, ha, hdrawn⟩ := (leads_analyzeAll hsorted.sound he).exists_ok
  obtain ⟨-, harrive⟩ := (leads_analyzeAll_arrive hsorted.sound he).ok ha
  have hup := upTo_of_gathered hbegin hprepare hgathering hg hlimit hrecorded
  have hsizes : ∀ kb ∈ a.dumpSizes, kb ≤ limit := by
    refine List.forall_mem_map.mpr fun id _ => ?_
    rw [harrive.plan]
    split
    · exact (hup id).analysed_le hlimit
    · exact (hup id).dumpMediaSize_le hlimit
  have hmedia : a.media = Media.ofSettings s := by
    obtain ⟨-, hn, hc⟩ := conversing_of_prepared hbegin hprepare
    have hprepared := ((steps_prepareAll store n₀).ok hprepare).sameRun.media
    have hlearned := ((hgathering.learns hn hc).reached hg).sameRun.media
    rw [hdrawn.media, hlearned, hprepared, (begin_media hbegin).1]
  have htotal := hdrawn.orderly.exact.size_eq
  have hbound := hdrawn.orderly.exact.size_le hsizes
  rw [hmedia] at htotal hbound
  exact ⟨g, a, hg, ha, hsizes, htotal, hbound, fun h => overflown_of_size ha (htotal ▸ h)⟩

end

/-- A machine word has room for the greatest dump that can be reported. -/
theorem scheduled_total_bounded_of_one : ∃ n₀ n g a,
    Night.begin {} [Disk.plain "alpha" "/home" 10 default] default 0 = .ok n₀ ∧
    prepareAll {} n₀ = .ok () n ∧ (∀ p ∈ n.plans, (p.history.getD {}).UpTo reportLimit) ∧
    gatherTurns (tellsSizes "/home 0 SIZE 9223372036854775807\n") n = .ok () g ∧
    analyzeAll g = .ok () a ∧ a.scheduled = [0] ∧ a.totals.size ≤ 9223372036854775906 := by
  let turns := tellsSizes "/home 0 SIZE 9223372036854775807\n"
  obtain ⟨n₀, hbegin, hrun⟩ : ∃ n₀,
      Night.begin {} [Disk.plain "alpha" "/home" 10 default] default 0 = .ok n₀ ∧
      Leads (prepareAll {}) n₀ (fun _ n => (∀ p ∈ n.plans, (p.history.getD {}).UpTo reportLimit) ∧
        Leads (do gatherTurns turns; analyzeAll) n (fun _ a => a.scheduled = [0]) never) never :=
    ⟨_, rfl, by decide +kernel⟩
  obtain ⟨_, n, hprepare, hrecorded, hrun⟩ := hrun.exists_ok
  obtain ⟨_, a, hdrawn, hscheduled⟩ := hrun.exists_ok
  obtain ⟨_, g, hg, ha⟩ := ok_of_bind hdrawn
  obtain ⟨g', a', hg', ha', -, -, hbound, -⟩ := scheduled_total_bounded hbegin hprepare
    (.turns turns) (Nat.le_refl reportLimit) hrecorded
  cases hg.symm.trans hg'
  cases ha.symm.trans ha'
  rw [hscheduled] at hbound
  exact ⟨n₀, n, g, a, hbegin, hprepare, hrecorded, hg, ha, hscheduled, hbound⟩

/-- Two dumps whose total, the greatest that there can be for two, is past a machine word, with
settings that break no rule. -/
theorem reported_sizes_exceed_word : ({} : Settings).fault? = none ∧ ∃ n₀ n g a,
    Night.begin {} homeAndSrv default 0 = .ok n₀ ∧ prepareAll {} n₀ = .ok () n ∧
    gatherTurns (tellsSizes
      "/home 0 SIZE 9223372036854775807\n/srv 0 SIZE 9223372036854775807\n") n = .ok () g ∧
    analyzeAll g = .ok () a ∧ a.scheduled = [0, 1] ∧ a.totals.size = 2 ^ 64 + 130 ∧
    a.totals.overflow.map (·.result) = some (2 ^ 64 + 130) := by
  refine ⟨by decide +kernel, ?_⟩
  obtain ⟨n₀, hbegin, hrun⟩ : ∃ n₀, Night.begin {} homeAndSrv default 0 = .ok n₀ ∧
      Leads (do
          prepareAll {}
          gatherTurns (tellsSizes
            "/home 0 SIZE 9223372036854775807\n/srv 0 SIZE 9223372036854775807\n")
          analyzeAll) n₀ (fun _ a => a.scheduled = [0, 1] ∧ a.totals.size = 2 ^ 64 + 130 ∧
        a.totals.overflow.map (·.result) = some (2 ^ 64 + 130)) never :=
    ⟨_, rfl, by decide +kernel⟩
  obtain ⟨_, a, hrun, hfacts⟩ := hrun.exists_ok
  obtain ⟨_, n, hprepare, hrun⟩ := ok_of_bind hrun
  obtain ⟨_, g, hg, ha⟩ := ok_of_bind hrun
  exact ⟨n₀, n, g, a, hbegin, hprepare, hg, ha, hfacts⟩

end NightlyBackup
