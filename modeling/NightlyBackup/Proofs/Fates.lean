import NightlyBackup.Proofs.Changes

/-!
What the log tells of one record. A full dump can fall back and whatever is left can be dropped,
in this order and each once, and both can be undone. So a record that was scheduled is in one of
four states, and the images of it in the log tell in which.
-/

namespace NightlyBackup

open Night Delaying

variable {a n k : Night} {s t : Shrinking} {id slot : Nat} {p q q' : DiskPlan}
  {place place' : Option QueueName} {log later older images : List BeforeImage}
  {image : BeforeImage} {delete : Bool} {reason : String}

/-! ## One record -/

namespace DiskPlan

structure SameLevels (p q : DiskPlan) : Prop where
  disk : q.disk = p.disk
  degraded : q.degraded = p.degraded
  level : ∀ slot, q.levelAt? slot = p.levelAt? slot
  mediaSize : ∀ slot, q.mediaSize? slot = p.mediaSize? slot

namespace SameLevels

theorem refl : p.SameLevels p := ⟨rfl, rfl, fun _ => rfl, fun _ => rfl⟩

theorem trans (h : p.SameLevels q) (h' : q.SameLevels q') : p.SameLevels q' :=
  ⟨h'.disk.trans h.disk, h'.degraded.trans h.degraded,
    fun slot => (h'.level slot).trans (h.level slot),
    fun slot => (h'.mediaSize slot).trans (h.mediaSize slot)⟩

theorem fixMedia : p.SameLevels (p.fixMedia slot) :=
  ⟨rfl, rfl, fun _ => levelAt?_fixMedia, fun _ => mediaSize?_fixMedia⟩

theorem putOff (hoff : PutOff p delete reason q place) : p.SameLevels q := by
  unfold PutOff at hoff
  cases delete with
  | true =>
    obtain ⟨rfl, -⟩ := hoff
    exact ⟨rfl, rfl, fun _ => rfl, fun _ => rfl⟩
  | false =>
    obtain ⟨⟨d, -, rfl⟩, -⟩ := hoff
    exact ⟨rfl, rfl, fun _ => levelAt?_fixMedia, fun _ => mediaSize?_fixMedia⟩

theorem isFull (h : p.SameLevels q) (hd : q.dump = p.dump) : q.isFull = p.isFull := by
  have hl : q.levelAt? = p.levelAt? := funext h.level
  rw [DiskPlan.isFull, DiskPlan.isFull, dumpLevel?_eq, dumpLevel?_eq, hl, hd]

end SameLevels

def FellBack (p q : DiskPlan) : Prop :=
  p.isFull = true ∧ ∃ slot, p.degraded = some slot ∧ q.dump = some slot

/-- A fallback is not the full dump that it replaces. -/
theorem FellBack.dump_ne (h : p.FellBack q) (hp : p.Planned) : q.dump ≠ p.dump := by
  obtain ⟨hfull, slot, hd, hq⟩ := h
  obtain ⟨-, level, hl, hpos⟩ := hp.fallback hd
  intro e
  rw [isFull_eq_of_dump (e.symm.trans hq) hl] at hfull
  have := of_decide_eq_true hfull
  omega

end DiskPlan

structure BeforeImage.Softly (image : BeforeImage) (p : DiskPlan) : Prop where
  deleted : image.deleted = false
  level : image.level = 0
  dump : p.dump = some image.slot

/-- What has become of a record that was scheduled with the plan `p`, by its plan `q`, its place
and its images, newest first. -/
inductive Fate (p q : DiskPlan) : Option QueueName → List BeforeImage → Prop
  | stays (dump : q.dump = p.dump) : Fate p q (some .scheduled) []
  | fellBack {soft : BeforeImage} (fell : p.FellBack q) (softly : soft.Softly p) :
    Fate p q (some .scheduled) [soft]
  | dropped {hard : BeforeImage} (dump : q.dump = p.dump) (fault : q.fault.isSome)
    (deleted : hard.deleted = true) : Fate p q none [hard]
  | both {hard soft : BeforeImage} (fell : p.FellBack q) (softly : soft.Softly p)
    (fault : q.fault.isSome) (deleted : hard.deleted = true) : Fate p q none [hard, soft]

namespace Fate

theorem congr (h : Fate p q place images) (hd : q'.dump = q.dump) (hf : q'.fault = q.fault) :
    Fate p q' place images := by
  have hfell : p.FellBack q → p.FellBack q' := by
    rintro ⟨hfull, slot, hdeg, hq⟩
    exact ⟨hfull, slot, hdeg, hd.trans hq⟩
  cases h with
  | stays dump => exact .stays (hd.trans dump)
  | fellBack fell softly => exact .fellBack (hfell fell) softly
  | dropped dump fault deleted => exact .dropped (hd.trans dump) (hf ▸ fault) deleted
  | both fell softly fault deleted => exact .both (hfell fell) softly (hf ▸ fault) deleted

/-- A full dump falls back, or a dump is dropped. -/
theorem delayed (h : Fate p (n.plan id) (some .scheduled) images)
    (hsame : p.SameLevels (n.plan id)) (hn : (n.plan id).Planned)
    (hf : delete = false → CanFallBack (n.plan id))
    (hoff : PutOff (n.plan id) delete reason q' place') :
    Fate p q' place' (imageOf n id delete reason :: images) := by
  obtain ⟨slot, hd, -⟩ := hn.sized
  unfold PutOff at hoff
  cases delete with
  | true =>
    obtain ⟨rfl, rfl⟩ := hoff
    cases h with
    | stays dump => exact .dropped dump rfl rfl
    | fellBack fell softly => exact .both fell softly rfl rfl
  | false =>
    obtain ⟨⟨d, hdeg, rfl⟩, rfl⟩ := hoff
    obtain ⟨hfull, -⟩ := hf rfl
    cases h with
    | stays dump =>
      have hp : p.isFull = true := (hsame.isFull dump).symm.trans hfull
      refine .fellBack ⟨hp, d, hsame.degraded.symm.trans hdeg, rfl⟩ ⟨rfl, ?_, ?_⟩
      · rw [isFull_iff_level hn] at hfull
        exact of_decide_eq_true hfull
      · rw [← dump, hd]
        simp [imageOf, hd]
    | fellBack fell softly =>
      -- what has fallen back is no full dump any more
      obtain ⟨-, e, hpe, hne⟩ := fell
      obtain ⟨-, level, hl, hpos⟩ := hn.fallback (hsame.degraded.trans hpe)
      rw [DiskPlan.isFull_eq_of_dump hne hl] at hfull
      have := of_decide_eq_true hfull
      omega

/-- A record of which an image says that it fell back has done so. -/
theorem fell (h : Fate p q place images) (hi : image ∈ images) (hd : image.deleted = false) :
    p.FellBack q := by
  cases h with
  | stays dump => cases hi
  | fellBack fell softly => exact fell
  | dropped dump fault deleted =>
    cases List.mem_singleton.mp hi
    cases hd.symm.trans deleted
  | both fell softly fault deleted => exact fell

/-- A change that can be undone is the newest of its record. -/
theorem newest (h : Fate p q place (later ++ image :: older))
    (hwhere : image.deleted = true ∧ place = none ∨
      image.deleted = false ∧ place = some .scheduled) : later = [] := by
  generalize himages : later ++ image :: older = images at h
  cases h with
  | stays dump => simp at himages
  | fellBack fell softly => exact (List.append_eq_singleton_iff.mp himages).elim (·.1) (by simp)
  | dropped dump fault deleted =>
    exact (List.append_eq_singleton_iff.mp himages).elim (·.1) (by simp)
  | both fell softly fault deleted =>
    cases later with
    | nil => rfl
    | cons first later =>
      -- the older of two images is of a dump that fell back and is not on the schedule any more
      obtain ⟨-, hrest⟩ := List.cons.inj himages
      obtain ⟨-, rfl, -⟩ : later = [] ∧ image = _ ∧ older = [] := by
        simpa [List.append_eq_singleton_iff] using hrest
      simp [softly.deleted] at hwhere

/-- The newest change of a record is taken back. -/
theorem undone (h : Fate p q place (image :: older)) (hi : Faithful image q place) :
    Fate p (putBack image q) (some .scheduled) older := by
  have hnow := hi.now
  cases h with
  | fellBack fell softly => exact .stays softly.dump.symm
  | dropped dump fault deleted =>
    rw [deleted] at hnow
    exact .stays (hnow.1.symm.trans dump)
  | both fell softly fault deleted =>
    rw [deleted] at hnow
    obtain ⟨hfull, slot, hdeg, hq⟩ := fell
    exact .fellBack ⟨hfull, slot, hdeg, hnow.1.symm.trans hq⟩ softly

end Fate

/-! ## All records -/

def imagesOf (id : Nat) (log : List BeforeImage) : List BeforeImage := log.filter (·.record = id)

theorem mem_imagesOf : image ∈ imagesOf id log ↔ image ∈ log ∧ image.record = id := by
  simp [imagesOf]

theorem imagesOf_cons_self (h : image.record = id) :
    imagesOf id (image :: log) = image :: imagesOf id log := by
  simp [imagesOf, h]

theorem imagesOf_cons_of_ne (h : image.record ≠ id) :
    imagesOf id (image :: log) = imagesOf id log := by
  simp [imagesOf, h]

theorem imagesOf_append : imagesOf id (later ++ older) = imagesOf id later ++ imagesOf id older :=
  List.filter_append ..

/-- The log explains what has become in `n` of every record that `a` had scheduled. -/
def Explained (a n : Night) (log : List BeforeImage) : Prop :=
  ∀ id, a.place id = some .scheduled → (a.plan id).SameLevels (n.plan id) ∧
    Fate (a.plan id) (n.plan id) (n.place id) (imagesOf id log)

/-- A dropped dump can be undone as long as its record has no place, and one that fell back as
long as it is scheduled. -/
theorem undone_where {total : Nat}
    (hi : Faithful image (n.plan image.record) (n.place image.record))
    (htotal : undoneSize? n image = some total) :
    image.deleted = true ∧ n.place image.record = none ∨
      image.deleted = false ∧ n.place image.record = some .scheduled := by
  rcases undoneSize?_eq hi htotal with ⟨hd, hp, -⟩ | ⟨hd, hp, -⟩
  · exact Or.inl ⟨hd, hp⟩
  · exact Or.inr ⟨hd, hp⟩

namespace Explained

theorem refl : Explained a a [] := by
  intro id hp
  rw [hp]
  exact ⟨.refl, .stays rfl⟩

theorem delayed {tot : Totals} (h : Explained a s.night s.log) (hn : s.night.Orderly)
    (hp : s.night.place id = some .scheduled)
    (hf : delete = false → CanFallBack (s.night.plan id))
    (hlog : t.log = imageOf s.night id delete reason :: s.log)
    (hb : Becomes id p place (s.night.withTotals tot) t.night)
    (hoff : PutOff (s.night.plan id) delete reason p place) : Explained a t.night t.log := by
  have hrecord : (imageOf s.night id delete reason).record = id := rfl
  intro j hj
  obtain ⟨hsame, hfate⟩ := h j hj
  rw [hlog]
  by_cases e : j = id
  · subst e
    rw [hp] at hfate
    rw [hb.plan, hb.place, imagesOf_cons_self hrecord]
    exact ⟨hsame.trans (.putOff hoff), hfate.delayed hsame (hn.planned hp) hf hoff⟩
  · have hplan : t.night.plan j = s.night.plan j := hb.only.plan e
    have hplace : t.night.place j = s.night.place j := hb.only.place e
    rw [hplan, hplace, imagesOf_cons_of_ne fun er => e (er.symm.trans hrecord)]
    exact ⟨hsame, hfate⟩

theorem undone {total : Nat} (h : Explained a n (later ++ image :: older))
    (hi : Faithful image (n.plan image.record) (n.place image.record))
    (htotal : undoneSize? n image = some total) (hk : Undone image n total k) :
    Explained a k (later ++ older) := by
  obtain ⟨-, -, tot, hb⟩ := hk
  intro j hj
  obtain ⟨hsame, hfate⟩ := h j hj
  rw [imagesOf_append] at hfate ⊢
  by_cases e : image.record = j
  · subst e
    rw [imagesOf_cons_self rfl] at hfate
    have hlater := hfate.newest (undone_where hi htotal)
    rw [hlater] at hfate ⊢
    rw [hb.plan, hb.place]
    exact ⟨⟨hsame.disk, hsame.degraded, hsame.level, hsame.mediaSize⟩, hfate.undone hi⟩
  · have hplan : k.plan j = n.plan j := hb.only.plan fun er => e er.symm
    have hplace : k.place j = n.place j := hb.only.place fun er => e er.symm
    rw [imagesOf_cons_of_ne e] at hfate
    rw [hplan, hplace]
    exact ⟨hsame, hfate⟩

/-- The log explains the schedule after every change. -/
theorem change (hl : Logged a s.night s.log) (h : Explained a s.night s.log) (hc : Change s t) :
    Explained a t.night t.log := by
  cases hc with
  | delayed hp hf hact =>
    obtain ⟨hlog, -, p, q, tot, hb, hoff⟩ := (leads_delay hl.orderly hp hf).reached hact
    exact h.delayed hl.orderly hp hf hlog hb hoff
  | undone hact =>
    have himage := hl.faithful _ (List.mem_append_right _ (List.mem_cons_self ..))
    cases (leads_undoIfFits hl.orderly himage).reached hact with
    | undone htotal _ hk => exact h.undone himage htotal hk
  | reckoned => exact h
  | looked n log id slot =>
    intro j hj
    obtain ⟨hsame, hfate⟩ := h j hj
    exact plan_setPlan_cases (P := fun p => (a.plan j).SameLevels p ∧
        Fate (a.plan j) p (n.place j) (imagesOf j log))
      ⟨hsame.trans .fixMedia, hfate.congr rfl rfl⟩ ⟨hsame, hfate⟩

theorem changes (hl : Logged a s.night s.log) (h : Explained a s.night s.log)
    (hc : Changes s t) : Explained a t.night t.log := by
  induction hc with
  | refl => exact h
  | tail hc hstep ih => exact ih.change (hl.changes hc) hstep

end Explained

end NightlyBackup
