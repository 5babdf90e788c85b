import NightlyBackup.Proofs.Judging

/-!
The levels that are asked for. They are few, different and in ascending order; and none of them is
past the limit if the recorded level of the last dump is not. A level that is not recorded is looked
for among the lowest ones, the directives keep the last level or put it at 0 or 1, and a level above
it is asked for only where the limit allows it.
-/

namespace NightlyBackup

variable {n m k : Night} {id : Nat} {d : Disk} {h : History} {r : Rotation} {s : Settings}

/-! ## The level of the last dump -/

def History.BelowLimit (h : History) : Prop := ∀ last, h.lastLevel = some last → last < levelLimit

def Outlook.BelowLimit (o : Outlook) : Prop := ∀ last, o.lastLevel = some last → last < levelLimit

namespace History

variable {best : Option Nat × Int} {found : Nat}

/-- A search that keeps the best level or takes the one looked at finds one of those looked at. -/
theorem mem_of_foldl {look : Option Nat × Int → Nat → Option Nat × Int}
    (hlook : ∀ best level, (look best level).1 = best.1 ∨ (look best level).1 = some level)
    {levels : List Nat} (hfound : (levels.foldl look best).1 = some found) :
    best.1 = some found ∨ found ∈ levels := by
  induction levels generalizing best with
  | nil => exact .inl hfound
  | cons level levels ih =>
    rcases ih hfound with hbest | hmem
    · rcases hlook best level with hkept | htaken
      · exact .inl (hkept ▸ hbest)
      · cases htaken.symm.trans hbest
        exact .inr (List.mem_cons_self ..)
    · exact .inr (List.mem_cons_of_mem level hmem)

theorem newer_cases (h : History) (best : Option Nat × Int) (level : Nat) :
    (h.newer best level).1 = best.1 ∨ (h.newer best level).1 = some level := by
  unfold newer
  dsimp only
  split
  · exact .inl rfl
  · split
    · exact .inr rfl
    · exact .inl rfl

theorem fresher_cases (h : History) (r : Rotation) (best : Option Nat × Int) (level : Nat) :
    (h.fresher r best level).1 = best.1 ∨ (h.fresher r best level).1 = some level := by
  unfold fresher
  split
  · exact .inl rfl
  · split
    · exact .inl rfl
    · split
      · exact .inr rfl
      · exact .inl rfl

theorem BelowLimit.lastDumped (hh : h.BelowLimit) {reserve last : Nat}
    (hlast : h.lastDumped r reserve = some last) : last < levelLimit := by
  have hsearched : ∀ {look : Option Nat × Int → Nat → Option Nat × Int} {start : Int},
      (∀ best level, (look best level).1 = best.1 ∨ (look best level).1 = some level) →
      ((List.range searchedLevels).foldl look (none, start)).1 = some last →
      last < levelLimit := by
    intro look start hlook hfound
    rcases mem_of_foldl hlook hfound with hnone | hmem
    · cases hnone
    · have hlt : last < searchedLevels := List.mem_range.mp hmem
      exact Nat.lt_of_lt_of_le hlt (by decide)
  unfold History.lastDumped at hlast
  split at hlast
  · rename_i level hrecorded
    cases hlast
    exact hh last hrecorded
  · split at hlast
    · exact hsearched h.newer_cases hlast
    · exact hsearched (h.fresher_cases r) hlast

end History

namespace Outlook

variable {o o' : Outlook} {levels : List Nat}

namespace BelowLimit

theorem ofHistory (hh : h.BelowLimit) {reserve : Nat} {today : Int} :
    (ofHistory d h r reserve today).BelowLimit := fun _ hlast => hh.lastDumped hlast

theorem congr (ho : o.BelowLimit) (hlast : o'.lastLevel = o.lastLevel) : o'.BelowLimit :=
  fun last hl => ho last (hlast ▸ hl)

theorem revision (hr : Revision o o') (ho : o.BelowLimit) : o'.BelowLimit := by
  cases hr with
  | forgotten =>
    intro last hlast
    cases hlast
  | lowered low =>
    intro last hlast
    cases hlast
    exact Nat.lt_of_le_of_lt low (by decide)
  | _ => exact ho

theorem revised (ho : o.BelowLimit) (h : Revised o o') : o'.BelowLimit := h.keeps revision ho

/-! ## The levels that are wanted -/

theorem adds_wantIncrementals (ho : o.BelowLimit) (runs : Nat) :
    Adds (· < levelLimit) o (o.wantIncrementals runs) := by
  unfold wantIncrementals
  split
  · dsimp only
    split
    · exact ((Adds.refl o).withReason _).want (by decide)
    · exact (Adds.refl o).withReason _
  · rename_i last hlast
    refine (adds_incrementals o last runs).mono ?_
    rintro w ⟨rfl | ⟨-, hlimit⟩, -⟩
    · exact ho w hlast
    · exact hlimit

theorem adds_chooseLevels (ho : o.BelowLimit) (runs : Nat) :
    Adds (· < levelLimit) o (o.chooseLevels runs) := by
  have hfulls : ∀ {asked}, AskedFull o asked → Adds (· < levelLimit) o asked :=
    fun hfull => hfull.adds.mono fun w hw => hw ▸ (by decide : 0 < levelLimit)
  refine chooseLevels_cases o runs (fun _ _ _ => ?_) (fun hfull => hfulls hfull)
    fun hfull _ _ => ?_
  · exact (((Adds.refl o).tell _).want (by decide)).withReason _
  · have hasked := ho.congr hfull.adds.lastLevel
    exact (hfulls hfull).trans (hasked.adds_wantIncrementals runs)

end BelowLimit

/-- No level is asked for that is past the limit. -/
theorem lt_of_judge (ho : Fits d o) (hb : o.BelowLimit) (hj : o.judge s r = (o', .ask levels)) :
    ∀ level ∈ levels, level < levelLimit := by
  obtain ⟨runs, rfl, rfl, -⟩ := considered_of_judge hj
  intro level hlevel
  have hwanted := mem_of_mem_dropRepeats (List.mem_of_mem_take hlevel)
  have hrevised := revised_considered o s r
  rcases ((hb.revised hrevised).adds_chooseLevels runs).wanted level hwanted with hbefore | hlt
  · rw [(ho.revised hrevised).wanted] at hbefore
    cases hbefore
  · exact hlt

end Outlook

/-! ## What preparing a disk puts forward -/

/-- Levels as they are asked for: some, but few, in ascending order and below the limit, with
their sizes still open. -/
structure Requested (levels : List LevelEstimate) : Prop where
  nonempty : levels ≠ []
  few : levels.length ≤ maxLevels
  ascending : levels.Pairwise (·.level < ·.level)
  below : ∀ e ∈ levels, e.level < levelLimit
  pending : ∀ e ∈ levels, e.size = .pending
  unguessed : ∀ e ∈ levels, e.guessed = false

/-- A record either has levels to be asked for and waits for its host, or has none and is found in
one of two places: it has failed with a reason, or it is listed once as left out. -/
structure PutForward (n : Night) (id : Nat) : Prop where
  requested : n.place id = some .start → n.skips id = 0 ∧ Requested (n.plan id).levels
  otherwise : n.place id ≠ some .start → (n.plan id).levels = [] ∧
    ((n.place id = some .failed ∧ (∃ reason, (n.plan id).fault = some reason) ∧
        n.skips id = 0) ∨
      (n.place id = none ∧ n.skips id = 1))

theorem requested_takeOutlook {o o' : Outlook} {levels : List Nat} (ho : o.Fits d)
    (hb : o.BelowLimit) (hj : o.judge s r = (o', .ask levels)) (runs : Nat) (p : DiskPlan) :
    Requested (Planning.takeOutlook o' levels runs p).levels := by
  have hascending := Outlook.pairwise_of_judge ho hj
  have hbelow := Outlook.lt_of_judge ho hb hj
  obtain ⟨-, -, htaken, hsome⟩ := Outlook.considered_of_judge hj
  constructor
  · simpa [Planning.takeOutlook] using hsome
  · simp only [Planning.takeOutlook, List.length_map, htaken]
    exact List.length_take_le ..
  · exact List.pairwise_map.mpr hascending
  · intro e he
    obtain ⟨level, hlevel, rfl⟩ := List.mem_map.mp he
    exact hbelow level hlevel
  · intro e he
    obtain ⟨level, -, rfl⟩ := List.mem_map.mp he
    rfl
  · intro e he
    obtain ⟨level, -, rfl⟩ := List.mem_map.mp he
    rfl

namespace Planning

open Night

/-- A record that a verdict puts on the start queue has levels as they are asked for. -/
theorem Verdicted.requested (hv : Verdicted n id h k) (hh : h.BelowLimit)
    (hp : k.place id = some .start) : Requested (k.plan id).levels := by
  cases hv with
  | asked s r today runs judged strategy becomes =>
    rw [becomes.plan]
    exact requested_takeOutlook (Outlook.fits_ofHistory ..) (.ofHistory hh) judged runs _
  | failed d reason becomes => cases becomes.place.symm.trans hp
  | leftOut d sound only hosts place skips plan => cases place.symm.trans hp

/-- A record that is put anywhere else has no more levels than before. -/
theorem Verdicted.levels_eq_nil (hv : Verdicted n id h k) (hlevels : (n.plan id).levels = [])
    (hp : k.place id ≠ some .start) : (k.plan id).levels = [] := by
  cases hv with
  | asked s r today runs judged strategy becomes => exact absurd becomes.place hp
  | failed d reason becomes => rw [becomes.plan, hlevels]
  | leftOut d sound only hosts place skips plan => rw [plan, hlevels]

theorem Prepared.putForward (hm : Prepared m id)
    (hstart : m.place id = some .start → Requested (m.plan id).levels)
    (hother : m.place id ≠ some .start → (m.plan id).levels = []) : PutForward m id := by
  cases hm with
  | toAsk place kept asked => exact ⟨fun _ => ⟨kept, hstart place⟩, fun hp => absurd place hp⟩
  | failed place fault kept =>
    have hp : m.place id ≠ some .start := by simp [place]
    exact ⟨fun hp' => absurd hp' hp,
      fun _ => ⟨hother hp, .inl ⟨place, Option.isSome_iff_exists.mp fault, kept⟩⟩⟩
  | leftOut place skipped =>
    have hp : m.place id ≠ some .start := by simp [place]
    exact ⟨fun hp' => absurd hp' hp, fun _ => ⟨hother hp, .inr ⟨place, skipped⟩⟩⟩

theorem belowLimit_getD {history : Option History}
    (hlast : ∀ h, history = some h → h.BelowLimit) : (history.getD {}).BelowLimit := by
  cases history with
  | none =>
    intro last hnone
    cases hnone
  | some h => exact hlast h rfl

/-- **Requested levels.** Preparing a disk ends without a fault, whatever the settings, the tapes,
the options of the disk and the directives of its history are. If its record is put on the start
queue, it has one to three levels, in ascending order and below the limit, with sizes that are
pending and not guessed. Otherwise it has no level, and it has either failed with a reason or is
listed once as left out. -/
theorem requested_levels (hs : n.Sound) (hid : id < n.plans.length) (hplace : n.place id = none)
    (hskips : n.skips id = 0) (hlevels : (n.plan id).levels = []) (history : Option History)
    (hlast : ∀ h, history = some h → h.BelowLimit) :
    ∃ m, prepare id history n = .ok () m ∧ PutForward m id := by
  have hleads : Leads (prepare id history) n
      (fun _ k => Verdicted n id (history.getD {}) k) never :=
    leads_prepare_verdicted hs hid hplace history
  obtain ⟨_, m, hm, hv⟩ := hleads.exists_ok
  have hprepared : Prepared m id := (hv.decided hskips).2.2.2.2
  exact ⟨m, hm, hprepared.putForward (hv.requested (belowLimit_getD hlast))
    (hv.levels_eq_nil hlevels)⟩

/-- A disk that was last dumped at the highest level of all. -/
def toppedHistory : History := { directives := { forceBump := true }, lastLevel := some 399 }

theorem requested_levels_of_topped : ∃ n,
    Night.begin {} [Disk.plain "alpha" "/home" 10 default] default 0 = .ok n ∧
    n.Sound ∧ 0 < n.plans.length ∧ n.place 0 = none ∧ n.skips 0 = 0 ∧ (n.plan 0).levels = [] ∧
    toppedHistory.BelowLimit ∧ ∃ m, prepare 0 (some toppedHistory) n = .ok () m ∧
      m.place 0 = some .start ∧ (m.plan 0).levels.map (·.level) = [399] ∧ PutForward m 0 := by
  obtain ⟨n, k, hbegin, hlt, hk, hstart, htop⟩ : ∃ n k,
      Night.begin {} [Disk.plain "alpha" "/home" 10 default] default 0 = .ok n ∧
      0 < n.plans.length ∧ prepare 0 (some toppedHistory) n = .ok () k ∧
      k.place 0 = some .start ∧ (k.plan 0).levels.map (·.level) = [399] :=
    ⟨_, _, rfl, by decide, rfl, rfl, rfl⟩
  have hfresh := fresh_of_begin hbegin
  have hskips : n.skips 0 = 0 := by simp [skips, hfresh.skipped]
  have hbelow : toppedHistory.BelowLimit := by
    rintro _ ⟨⟩
    decide
  have hlevels : (n.plan 0).levels = [] := hfresh.levels 0
  obtain ⟨m, hm, hforward⟩ := requested_levels hfresh.sound hlt (hfresh.place 0) hskips hlevels
    (some toppedHistory) (by rintro _ ⟨⟩; exact hbelow)
  cases hk.symm.trans hm
  exact ⟨n, hbegin, hfresh.sound, hlt, hfresh.place 0, hskips, hlevels, hbelow, _, hk, hstart, htop,
    hforward⟩

end Planning

end NightlyBackup
