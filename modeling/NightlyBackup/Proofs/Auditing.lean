import NightlyBackup.Proofs.Ceilings
import NightlyBackup.Proofs.Phases

/-!
The accounts of a night, at every moment. The running sizes are what the scheduled dumps add up
to, and nothing is taken out that is not in them. They are worked out exactly, and they are what
the words hold as long as no overflow is known; so are the sums that come up on the way, which can
be greater than the accounts are before and after.
-/

namespace NightlyBackup

open Night Planning

variable {n m k g a : Night} {s t : Shrinking}

/-- What is taken out of the running sizes when a scheduled dump is put off, when another one
comes back in its place or when it is promoted, is never more than what is in them. -/
def Night.Unclipped (n : Night) : Prop := ∀ id ∈ n.scheduled,
  n.media.dumpCost (n.plan id).dumpMediaSize ≤ n.totals.size ∧
    ((n.plan id).isFull = true → (n.plan id).dumpMediaSize ≤ n.totals.fullSize)

/-- The accounts of a night are right, and in words that hold them unless an overflow is known. -/
structure Night.Audited (n : Night) : Prop where
  exact : n.Exact
  unclipped : n.Unclipped
  fit : n.totals.overflow = none → n.totals.Fit

theorem Night.Orderly.audited (hn : n.Orderly) (hfit : n.totals.overflow = none → n.totals.Fit) :
    n.Audited :=
  ⟨hn.exact, fun _ hid => hn.exact.no_clip hn.sound (hn.sound.mem_scheduled.mp hid), hfit⟩

/-! ## What changes the accounts -/

theorem Change.follows (h : Change s t) : s.night.totals.Follows t.night.totals := by
  cases h with
  | delayed _ _ hact => exact ((Delaying.within_delay s).ok hact).totals
  | @undone n k _ _ image hact => exact ((Delaying.within_undoIfFits image n).ok hact).totals
  | looked => exact .refl
  | reckoned n log what => exact (Totals.Reckons.refl.reckon what).follows

theorem Changes.follows (h : Changes s t) : s.night.totals.Follows t.night.totals := by
  induction h with
  | refl => exact .refl
  | tail _ hstep ih => exact ih.trans hstep.follows

theorem Rebalance.follows (h : Rebalance n k) : n.totals.Follows k.totals := by
  cases h with
  | promoted _ _ hact => exact ((within_promote _ n).ok hact).totals
  | looked => exact .refl
  | scored => exact .refl
  | reckoned what => exact (Totals.Reckons.refl.reckon what).follows

theorem Rebalances.follows (h : Rebalances n k) : n.totals.Follows k.totals := by
  induction h with
  | refl => exact .refl
  | tail _ hstep ih => exact ih.trans hstep.follows

/-- However fitting ends. -/
theorem follows_of_fit {f : Night}
    (h : fit a = .ok () f ∨ ∃ why, fit a = .error (.unfittable why) f) :
    a.totals.Follows f.totals := by
  rcases h with h | ⟨why, h⟩
  · exact ((within_fit a).ok h).totals
  · exact ((within_fit a).failed h).totals

/-! ## The whole night -/

/-- **Exact accounts.** The running sizes are what the scheduled dumps add up to: once the
schedule has been drawn up, after every change that fitting makes or undoes, whether the
schedule fits in the end or not, and after every step of balancing. They fit the words that they
are kept in as long as none of the sums on the way overflows. -/
theorem exact_accounts (hs : g.Sound) (he : g.scheduled = []) :
    ∃ a s f k, analyzeAll g = .ok () a ∧
      (∀ t, Changes ⟨a, []⟩ t → t.night.Audited) ∧
      Changes ⟨a, []⟩ s ∧ Reported s.log s.night f ∧
      (fit a = .ok () f ∨ ∃ why, fit a = .error (.unfittable why) f) ∧
      (∀ m, Rebalances f m → m.Audited) ∧
      balance f = .ok () k ∧ Rebalances f k := by
  obtain ⟨_, a, hanalyzed, ha⟩ := (leads_analyzeAll hs he).exists_ok
  have hwords : a.totals.overflow = none → a.totals.Fit := fit_of_analyzed.ok hanalyzed
  have hfollows : ∀ {n : Night}, a.totals.Follows n.totals →
      n.totals.overflow = none → n.totals.Fit :=
    fun hn h => hn.fit h (hwords (hn.overflow h))
  have hchanges : ∀ t, Changes ⟨a, []⟩ t → t.night.Audited := by
    intro t ht
    have hl : Logged a t.night t.log := Logged.changes (s := ⟨a, []⟩) (.refl ha.orderly) ht
    exact hl.orderly.audited (hfollows ht.follows)
  obtain ⟨s, f, hfitted, hfit⟩ := exists_fitted ha.orderly
  have hf := hfitted.orderly ha.orderly
  have haf := follows_of_fit hfit
  obtain ⟨_, k, hbalance, hk⟩ := (leads_balance hf).exists_ok
  exact ⟨a, s, f, k, hanalyzed, hchanges, hfitted.changes, hfitted.reported, hfit,
    fun m hm => (hm.balanced hf).orderly.audited (hfollows (haf.trans hm.follows)), hbalance, hk⟩

/-- The accounts of a schedule of one dump. -/
theorem exact_accounts_of_one : ∃ g, g.Sound ∧ g.scheduled = [] ∧ ∃ a, analyzeAll g = .ok () a ∧
    a.scheduled = [0] ∧ a.Audited := by
  obtain ⟨g, a, hs, he, -, ha, hscheduled, -⟩ := analyzeAll_of_one_size
  obtain ⟨b, -, -, -, hb, hall, -⟩ := exact_accounts hs he
  cases ha.symm.trans hb
  exact ⟨g, hs, he, a, ha, hscheduled, hall ⟨a, []⟩ .refl⟩

/-- A disk whose full dump and whose incremental take half a word each, on a volume that holds one
of them. -/
def halfWordPutOff : Night :=
  match Night.begin { tapeLength := 9223372036854776808 } [Disk.plain "alpha" "/home" 10 default]
    default 0 with
  | .ok n => (n.putOff 0 9223372036854775807 9223372036854775807).withTotals
      { size := 9223372036854775906 }
  | .error _ => default

/-- A promotion adds the full dump before it takes the incremental out, and overflows, although the
words hold the accounts before and after. -/
theorem promotion_past_word : halfWordPutOff.Exact ∧ halfWordPutOff.totals.Fit ∧
    ∃ k, promote 0 0 false halfWordPutOff = .ok () k ∧ k.Exact ∧ k.totals.Fit ∧
      k.totals.overflow.map (·.result) = some 18446744073709551713 :=
  ⟨⟨by decide, by decide⟩, ⟨by decide, by decide⟩, _, rfl, ⟨by decide, by decide⟩,
    ⟨by decide, by decide⟩, by decide⟩

end NightlyBackup
