import Mathlib.Logic.Relation
import NightlyBackup.Proofs.Accounts
import NightlyBackup.Proofs.Leads

/-!
The steps of which planning consists. An action tells the operator something, changes a plan,
moves records between queues, counts, leaves a record out, or talks to a host, and nothing else.
What each of these steps keeps, every phase keeps, whatever it decides and however it ends.
-/

namespace NightlyBackup

variable {n m k : Night} {id slot : Nat} {p : DiskPlan} {α β : Type}

def Event.ofPlanning : Event → Bool
  | .estimateFailed .. | .runFinished .. => false
  | _ => true

/-- What an action is free to do: how it changes plans, and which records it leaves out. -/
structure Scope where
  replans : (DiskPlan → DiskPlan) → Prop
  leavesOut : Nat → Prop

inductive Step (may : Scope) : Night → Night → Prop
  | told {n : Night} {e : Event} : e.ofPlanning = true → Step may n (n.say e)
  | replanned {n : Night} {id : Nat} {f : DiskPlan → DiskPlan} :
    may.replans f → Step may n (n.setPlan id f)
  | queued (n : Night) (q : Queues) : Step may n (n.withQueues q)
  | counted {n : Night} {t : Totals} : n.totals.Follows t → Step may n (n.withTotals t)
  | leftOut {n : Night} {s : Skipped} :
    may.leavesOut s.record → Step may n { n with skipped := n.skipped ++ [s] }
  | hosted (n : Night) (h : Nat) (f : Host → Host) : Step may n (n.setHost h f)
  | sent (n : Night) (sent : List (String × String)) : Step may n { n with sent := sent }

def Steps (may : Scope) : Night → Night → Prop := Relation.ReflTransGen (Step may)

/-- What is the same all night. -/
structure SameRun (n m : Night) : Prop where
  settings : m.settings = n.settings
  media : m.media = n.media
  rotation : m.rotation = n.rotation
  timestamp : m.timestamp = n.timestamp
  today : m.today = n.today
  length : m.plans.length = n.plans.length

theorem SameRun.refl (n : Night) : SameRun n n := ⟨rfl, rfl, rfl, rfl, rfl, rfl⟩

theorem SameRun.trans (h : SameRun n m) (h' : SameRun m k) : SameRun n k :=
  ⟨h'.settings.trans h.settings, h'.media.trans h.media, h'.rotation.trans h.rotation,
    h'.timestamp.trans h.timestamp, h'.today.trans h.today, h'.length.trans h.length⟩

theorem Step.sameRun {may : Scope} (h : Step may n m) : SameRun n m := by
  cases h with
  | replanned hf => exact ⟨rfl, rfl, rfl, rfl, rfl, List.length_modify ..⟩
  | _ => exact ⟨rfl, rfl, rfl, rfl, rfl, rfl⟩

/-! ## What runs of steps keep -/

namespace Steps

variable {may more : Scope}

theorem trans (h : Steps may n m) (h' : Steps may m k) : Steps may n k :=
  Relation.ReflTransGen.trans h h'

theorem mono (hplan : ∀ f, may.replans f → more.replans f)
    (hskip : ∀ id, may.leavesOut id → more.leavesOut id) (h : Steps may n m) :
    Steps more n m := by
  refine Relation.ReflTransGen.mono (fun a b hab => ?_) n m h
  cases hab with
  | told he => exact .told he
  | replanned hf => exact .replanned (hplan _ hf)
  | queued q => exact .queued a q
  | counted ht => exact .counted ht
  | leftOut hs => exact .leftOut (hskip _ hs)
  | hosted h f => exact .hosted a h f
  | sent sent => exact .sent a sent

theorem sameRun (h : Steps may n m) : SameRun n m := by
  induction h with
  | refl => exact .refl n
  | tail _ hstep ih => exact ih.trans hstep.sameRun

/-- An overflow that is known of stands, and as long as none is, the running sizes fit. -/
theorem totals (h : Steps may n m) : n.totals.Follows m.totals := by
  induction h with
  | refl => exact .refl
  | tail _ hstep ih =>
    cases hstep with
    | counted ht => exact ih.trans ht
    | _ => exact ih

/-- The operator hears of the events of planning alone. -/
theorem events (h : Steps may n m) :
    ∃ told, m.events = n.events ++ told ∧ ∀ e ∈ told, e.ofPlanning = true := by
  induction h with
  | refl => exact ⟨[], by simp⟩
  | tail _ hstep ih =>
    obtain ⟨told, htold, hall⟩ := ih
    cases hstep with
    | @told e he =>
      refine ⟨told ++ [e], ?_, ?_⟩
      · rw [Night.say, htold, List.append_assoc]
      · intro x hx
        rcases List.mem_append.mp hx with hx | hx
        · exact hall x hx
        · exact List.mem_singleton.mp hx ▸ he
    | _ => exact ⟨told, htold, hall⟩

/-- Records are left out only as far as the scope goes. -/
theorem skipped (h : Steps may n m) :
    ∃ out, m.skipped = n.skipped ++ out ∧ ∀ s ∈ out, may.leavesOut s.record := by
  induction h with
  | refl => exact ⟨[], by simp⟩
  | tail _ hstep ih =>
    obtain ⟨out, hout, hall⟩ := ih
    cases hstep with
    | @leftOut s hs =>
      refine ⟨out ++ [s], ?_, ?_⟩
      · rw [hout, List.append_assoc]
      · intro x hx
        rcases List.mem_append.mp hx with hx | hx
        · exact hall x hx
        · exact List.mem_singleton.mp hx ▸ hs
    | _ => exact ⟨out, hout, hall⟩

/-- What no change within the scope touches, a plan keeps. -/
theorem plan {g : DiskPlan → α} (hg : ∀ f, may.replans f → ∀ p, g (f p) = g p)
    (h : Steps may n m) (id : Nat) : g (m.plan id) = g (n.plan id) := by
  induction h with
  | refl => rfl
  | tail _ hstep ih =>
    cases hstep with
    | replanned hf =>
      exact Night.plan_setPlan_cases (P := fun p => g p = g (n.plan id))
        ((hg _ hf _).trans ih) ih
    | _ => exact ih

/-- What every change within the scope keeps, all plans keep. -/
theorem keeps {P : DiskPlan → Prop} (hP : ∀ f, may.replans f → ∀ p, P p → P (f p))
    (h : Steps may n m) (hn : ∀ id, P (n.plan id)) (id : Nat) : P (m.plan id) := by
  induction h with
  | refl => exact hn id
  | tail _ hstep ih =>
    cases hstep with
    | replanned hf => exact Night.plan_setPlan_cases (hP _ hf _ ih) ih
    | _ => exact ih

end Steps

/-! ## Actions within a scope -/

/-- However the action ends, it has gone by steps within the scope. -/
def Within (may : Scope) (act : Planning α) : Prop :=
  ∀ n, Leads act n (fun _ m => Steps may n m) fun _ m => Steps may n m

namespace Within

variable {may more : Scope} {act : Planning α} {next : α → Planning β} {ι : Type}

theorem mono (hplan : ∀ f, may.replans f → more.replans f)
    (hskip : ∀ id, may.leavesOut id → more.leavesOut id) (h : Within may act) :
    Within more act :=
  fun n => (h n).mono (fun _ _ => .mono hplan hskip) fun _ _ => .mono hplan hskip

theorem pure (a : α) : Within may (pure a : Planning α) := fun _ => .refl

theorem get : Within may (get : Planning Night) := fun _ => .refl

theorem throw (fault : Fault) : Within may (throw fault : Planning α) := fun _ => .refl

theorem modify {f : Night → Night} (hf : ∀ n, Step may n (f n)) :
    Within may (modify f : Planning Unit) := fun n => .single (hf n)

theorem bind (h : Within may act) (h' : ∀ a, Within may (next a)) :
    Within may (act >>= next) := by
  intro n
  rw [leads_bind]
  exact (h n).imp fun a m hm =>
    (h' a m).mono (fun _ _ hk => hm.trans hk) fun _ _ hk => hm.trans hk

theorem map {f : α → β} (h : Within may act) : Within may (f <$> act) := by
  intro n
  rw [leads_map]
  exact h n

theorem getThen {next : Night → Planning β} (h : ∀ n, Within may (next n)) :
    Within may (MonadState.get >>= next) := get.bind h

theorem forM {visit : ι → Planning Unit} {ids : List ι} (h : ∀ i ∈ ids, Within may (visit i)) :
    Within may (ids.forM visit) := by
  induction ids with
  | nil => exact pure ()
  | cons i ids ih =>
    exact (h i (List.mem_cons_self ..)).bind fun _ =>
      ih fun j hj => h j (List.mem_cons_of_mem _ hj)

theorem mapM {visit : ι → Planning β} (h : ∀ i, Within may (visit i)) (ids : List ι) :
    Within may (ids.mapM visit) := by
  induction ids with
  | nil => exact pure []
  | cons i ids ih =>
    rw [List.mapM_cons]
    exact (h i).bind fun b => ih.bind fun bs => pure (b :: bs)

theorem foldlM {visit : β → ι → Planning β} (h : ∀ b i, Within may (visit b i)) (ids : List ι)
    (b : β) : Within may (ids.foldlM visit b) := by
  induction ids generalizing b with
  | nil => exact pure b
  | cons i ids ih =>
    rw [List.foldlM_cons]
    exact (h b i).bind ih

theorem ite {c : Prop} [Decidable c] {act' : Planning α} (h : Within may act)
    (h' : Within may act') : Within may (if c then act else act') := by
  split
  · exact h
  · exact h'

end Within

/-! ## Plans whose terms stand -/

/-- What preparation lays down for a disk: the last level, and the levels that are asked for,
with their watermarks. -/
structure Terms where
  lastLevel : Option Nat
  levels : List (Nat × String)

def DiskPlan.terms (p : DiskPlan) : Terms where
  lastLevel := p.lastLevel
  levels := p.levels.map fun e => (e.level, e.watermark)

def Scope.onTerms : Scope where
  replans f := ∀ p : DiskPlan, (f p).terms = p.terms
  leavesOut _ := False

def Scope.preparing (id : Nat) : Scope where
  replans _ := True
  leavesOut j := j = id

theorem Within.preparing {act : Planning α} (h : Within .onTerms act) :
    Within (.preparing id) act :=
  h.mono (fun _ _ => trivial) fun _ => False.elim

namespace DiskPlan

theorem terms_levels {levels : List LevelEstimate} {p : DiskPlan}
    (h : levels.map (fun e => (e.level, e.watermark)) =
      p.levels.map fun e => (e.level, e.watermark)) :
    ({ p with levels := levels } : DiskPlan).terms = p.terms := by
  rw [terms, terms, h]

/-- The estimate of a level may change as long as the level and the watermark stand. -/
theorem map_modify_eq {f : LevelEstimate → LevelEstimate}
    (hf : ∀ e, (f e).level = e.level ∧ (f e).watermark = e.watermark)
    (levels : List LevelEstimate) (slot : Nat) :
    (levels.modify slot f).map (fun e => (e.level, e.watermark)) =
      levels.map fun e => (e.level, e.watermark) := by
  refine List.ext_getElem? fun i => ?_
  simp only [List.getElem?_map, List.getElem?_modify]
  split
  · cases levels[i]? with
    | none => rfl
    | some e => simp [hf e]
  · simp

@[simp]
theorem terms_fixMedia : (p.fixMedia slot).terms = p.terms := by
  refine terms_levels (map_modify_eq ?_ _ _)
  exact fun _ => ⟨rfl, rfl⟩

@[simp]
theorem terms_fixDumpMedia : p.fixDumpMedia.terms = p.terms := by
  unfold fixDumpMedia
  split
  · exact terms_fixMedia
  · rfl

theorem terms_setSize (size : SizeEstimate) (guessed : Bool) :
    (p.setSize slot size guessed).terms = p.terms := by
  refine terms_levels (map_modify_eq ?_ _ _)
  exact fun _ => ⟨rfl, rfl⟩

/-- The estimates may all change as long as the levels and the watermarks stand. -/
theorem terms_map {f : LevelEstimate → LevelEstimate}
    (hf : ∀ e, (f e).level = e.level ∧ (f e).watermark = e.watermark) :
    ({ p with levels := p.levels.map f } : DiskPlan).terms = p.terms := by
  refine terms_levels ?_
  simp [hf]

end DiskPlan

/-! ## Elementary actions -/

namespace Planning

variable {may : Scope}

theorem within_say {e : Event} (he : e.ofPlanning = true) : Within may (say e) :=
  .modify fun _ => .told he

theorem within_warn (message : String) : Within may (warn message) := within_say rfl

theorem within_setPlan {f : DiskPlan → DiskPlan} (hf : may.replans f) :
    Within may (setPlan id f) := .modify fun _ => .replanned hf

theorem within_setHost (h : Nat) (f : Host → Host) : Within may (setHost h f) :=
  .modify fun n => .hosted n h f

theorem within_getPlan : Within may (getPlan id) := .getThen fun _ => .pure _

theorem within_onQueues (f : Queues → Except QueueFault Queues) : Within may (onQueues f) := by
  refine .getThen fun n => ?_
  split
  · rename_i q _
    exact .modify fun n => .queued n q
  · exact .throw _

theorem within_count {f : Night → Totals} (hf : ∀ n : Night, n.totals.Follows (f n)) :
    Within may (modify fun n => { n with totals := f n } : Planning Unit) :=
  .modify fun n => .counted (hf n)

theorem within_reckon (what : Option Overflow) : Within may (reckon what) :=
  within_count fun _ => (Totals.Reckons.refl.reckon what).follows

theorem within_failUnqueued (reason : String) : Within .onTerms (failUnqueued id reason) :=
  (within_onQueues _).bind fun _ => within_setPlan fun _ => rfl

theorem within_mediaSize? : Within .onTerms (mediaSize? id slot) :=
  (within_setPlan fun _ => DiskPlan.terms_fixMedia).bind fun _ => .getThen fun _ => .pure _

theorem within_mediaSizeAt? (level : Nat) : Within .onTerms (mediaSizeAt? id level) := by
  refine within_getPlan.bind fun p => ?_
  split
  · exact within_mediaSize?
  · exact .pure _

theorem within_dumpMediaSize : Within .onTerms (dumpMediaSize id) :=
  (within_setPlan fun _ => DiskPlan.terms_fixDumpMedia).bind fun _ => .getThen fun _ => .pure _

theorem within_fixCompared (ids : List Nat) : Within .onTerms (fixCompared id ids) := by
  refine .forM fun j _ => within_getPlan.bind fun p => within_getPlan.bind fun q => ?_
  refine .ite ?_ (.pure ())
  exact (within_setPlan fun _ => DiskPlan.terms_fixDumpMedia).bind fun _ =>
    within_setPlan fun _ => DiskPlan.terms_fixDumpMedia

theorem within_insertScheduled : Within .onTerms (insertScheduled id) :=
  .getThen fun _ => (within_onQueues _).bind fun _ => within_fixCompared _

theorem within_resortScheduled : Within .onTerms (resortScheduled id) :=
  (within_onQueues _).bind fun _ => within_insertScheduled

theorem within_skip (level : Nat) (reason : String) (hid : may.leavesOut id) :
    Within may (skip id level reason) :=
  .getThen fun _ => (within_say rfl).bind fun _ => .modify fun _ => .leftOut hid

end Planning

end NightlyBackup
