import NightlyBackup.Proofs.Delaying

/-!
Actions that leave a part of the night as it was. To put off a dump tells the operator nothing, and
neither does undoing this; only what stands in the end is reported.
-/

namespace NightlyBackup

namespace Planning

variable {α β γ : Type} {act : Planning α} {next : α → Planning β} {view : Night → γ}
  {id slot : Nat} {name : QueueName}

/-- However the action ends, the night gives the view that it gave before. -/
def Keeps (view : Night → γ) (act : Planning α) : Prop :=
  ∀ n, Leads act n (fun _ k => view k = view n) fun _ k => view k = view n

/-- A view that shows neither plans nor queues. -/
structure Aside (view : Night → γ) : Prop where
  plans : ∀ n id f, view (n.setPlan id f) = view n
  queues : ∀ n q, view (n.withQueues q) = view n

theorem keeps_pure (a : α) : Keeps view (pure a) := fun _ => rfl

theorem keeps_get : Keeps view (get : Planning Night) := fun _ => rfl

theorem keeps_throw (fault : Fault) : Keeps view (throw fault : Planning α) := fun _ => rfl

theorem keeps_modify {f : Night → Night} (hf : ∀ n, view (f n) = view n) :
    Keeps view (modify f : Planning Unit) := hf

theorem Keeps.bind (h : Keeps view act) (h' : ∀ a, Keeps view (next a)) :
    Keeps view (act >>= next) := by
  intro n
  rw [leads_bind]
  apply (h n).imp
  intro a m hm
  rw [← hm]
  exact h' a m

theorem Keeps.forM {ι : Type} {visit : ι → Planning Unit} (h : ∀ i, Keeps view (visit i))
    (ids : List ι) : Keeps view (ids.forM visit) := by
  induction ids with
  | nil => exact keeps_pure ()
  | cons i ids ih => exact (h i).bind fun _ => ih

namespace Aside

theorem keeps_setPlan (hv : Aside view) (f : DiskPlan → DiskPlan) : Keeps view (setPlan id f) :=
  keeps_modify fun n => hv.plans n id f

theorem keeps_onQueues (hv : Aside view) (f : Queues → Except QueueFault Queues) :
    Keeps view (onQueues f) := by
  refine keeps_get.bind fun n => ?_
  split
  · exact keeps_modify fun m => hv.queues m _
  · exact keeps_throw _

theorem keeps_mediaSize? (hv : Aside view) : Keeps view (mediaSize? id slot) :=
  (hv.keeps_setPlan _).bind fun _ => keeps_get.bind fun _ => keeps_pure _

theorem keeps_dumpMediaSize (hv : Aside view) : Keeps view (dumpMediaSize id) :=
  (hv.keeps_setPlan _).bind fun _ => keeps_get.bind fun _ => keeps_pure _

theorem keeps_fixCompared (hv : Aside view) (ids : List Nat) : Keeps view (fixCompared id ids) := by
  refine Keeps.forM (fun j => ?_) ids
  refine (keeps_get.bind fun _ => keeps_pure _).bind fun p => ?_
  refine (keeps_get.bind fun _ => keeps_pure _).bind fun q => ?_
  split
  · exact (hv.keeps_setPlan _).bind fun _ => hv.keeps_setPlan _
  · exact keeps_pure ()

theorem keeps_insertScheduled (hv : Aside view) : Keeps view (insertScheduled id) :=
  keeps_get.bind fun _ => (hv.keeps_onQueues _).bind fun _ => hv.keeps_fixCompared _

theorem keeps_resortScheduled (hv : Aside view) : Keeps view (resortScheduled id) :=
  (hv.keeps_onQueues _).bind fun _ => hv.keeps_insertScheduled

end Aside

theorem aside_totals : Aside Night.totals := ⟨fun _ _ _ => rfl, fun _ _ => rfl⟩

theorem aside_events : Aside Night.events := ⟨fun _ _ _ => rfl, fun _ _ => rfl⟩

/-- However the action ends, the operator has heard nothing new. -/
abbrev Silent (act : Planning α) : Prop := Keeps Night.events act

end Planning

namespace Delaying

open Planning

variable {s : Shrinking} {n : Night} {id slot : Nat} {image : BeforeImage} {reason : String}

theorem silent_fallBack : Silent (fallBack id slot) := by
  refine (aside_events.keeps_setPlan _).bind fun _ => ?_
  refine aside_events.keeps_dumpMediaSize.bind fun _ => ?_
  exact Keeps.bind (keeps_modify fun _ => rfl) fun _ => aside_events.keeps_resortScheduled

theorem silent_drop : Silent (drop id reason) :=
  (aside_events.keeps_onQueues _).bind fun _ => aside_events.keeps_setPlan _

theorem silent_undo (total : Nat) : Silent (undo image total) := by
  have hcount : Silent (if image.level = 0 then modify (recountFull image.mediaSize)
      else pure ()) := by
    split
    · exact keeps_modify fun _ => rfl
    · exact keeps_pure ()
  simp only [undo]
  refine Keeps.bind (keeps_modify fun _ => rfl) fun _ => ?_
  refine (aside_events.keeps_setPlan _).bind fun _ => ?_
  split
  · exact aside_events.keeps_insertScheduled.bind fun _ => hcount
  · exact aside_events.keeps_resortScheduled.bind fun _ => hcount

theorem silent_undoIfFits : Silent (undoIfFits image) := by
  intro n
  refine keeps_undoIfFits (aside_events.keeps_dumpMediaSize n) (fun _ hm => hm) ?_ rfl
  intro total m hm
  rw [← hm]
  exact silent_undo total m

/-- The operator hears nothing when a dump is put off. -/
theorem events_delay {delete : Bool} :
    Leads (delay id delete reason) s (fun _ t => t.night.events = s.night.events) anyhow := by
  have hsilent : ∀ {act : Planning Unit} {m : Night}, Silent act →
      m.events = s.night.events →
      Leads act m (fun _ k => k.events = s.night.events) anyhow := fun {_ m} hact hm =>
    (hact m).mono (fun _ _ hk => hk.trans hm) fun _ _ _ => trivial
  exact keeps_delay
    ((aside_events.keeps_dumpMediaSize s.night).mono (fun _ _ h => h) fun _ _ _ => trivial)
    (fun _ hm => hm) (fun _ => hsilent silent_fallBack) (hsilent silent_drop)

end Delaying
end NightlyBackup
