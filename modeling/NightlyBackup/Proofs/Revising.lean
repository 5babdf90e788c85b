import NightlyBackup.Night.Outlook
import NightlyBackup.Proofs.Steps

/-!
What becomes of an outlook before levels are chosen. The directive for a full dump is carried out or
refused, the tapes are looked at, and full dumps that are made elsewhere are expected. All of this
comes down to a few kinds of changes; so whatever each kind keeps holds when levels are chosen.
-/

namespace NightlyBackup.Outlook

variable {o o' o'' : Outlook}

/-- One change to an outlook. The last level is forgotten or put at 0 or 1 but never raised above,
and when the full dump is due changes only where the strategy has full dumps. -/
inductive Revision : Outlook → Outlook → Prop
  | told (o : Outlook) {e : Event} (planning : e.ofPlanning = true) : Revision o (o.say e)
  | refused (o : Outlook) :
    Revision o { o with directives := { o.directives with forceFull := false } }
  | excused (o : Outlook) (reason : String) : Revision o { o with degradedReason := some reason }
  | due (o : Outlook) (nextFull : Int) (takesFulls : o.disk.strategy.skipsFulls = false) :
    Revision o { o with nextFull := nextFull }
  | forgotten (o : Outlook) : Revision o { o with lastLevel := none }
  | lowered (o : Outlook) {level : Nat} (low : level ≤ 1) :
    Revision o { o with lastLevel := some level }
  | reckoned (o : Outlook) (what : Option Overflow) : Revision o (o.reckon what)

def Revised : Outlook → Outlook → Prop := Relation.ReflTransGen Revision

namespace Revised

theorem refl (o : Outlook) : Revised o o := Relation.ReflTransGen.refl

theorem trans (h : Revised o o') (h' : Revised o' o'') : Revised o o'' :=
  Relation.ReflTransGen.trans h h'

theorem tail (h : Revised o o') (hlast : Revision o' o'') : Revised o o'' :=
  Relation.ReflTransGen.tail h hlast

theorem say {e : Event} (h : Revised o o') (planning : e.ofPlanning = true) :
    Revised o (o'.say e) := h.tail (.told o' planning)

theorem tell (h : Revised o o') (message : String) : Revised o (o'.tell message) := h.say rfl

theorem keeps {P : Outlook → Prop} (hP : ∀ {o o'}, Revision o o' → P o → P o')
    (h : Revised o o') (ho : P o) : P o' := by
  induction h with
  | refl => exact ho
  | tail _ hlast ih => exact hP hlast ih

end Revised

theorem revised_force (o : Outlook) (dumpCycle : Nat) : Revised o (o.force dumpCycle) := by
  unfold force
  split
  · split
    · exact ((Revised.refl o).tail (.refused o)).say rfl
    · rename_i htakes
      have hfulls : o.disk.strategy.skipsFulls = false := Bool.eq_false_iff.mpr htakes
      exact ((((Revised.refl o).tail (.excused o _)).tail (.forgotten _)).tail
        (.due _ _ hfulls)).tell _
  · split
    · exact (Revised.refl o).tail (.lowered o (Nat.le_refl 1))
    · exact .refl o

theorem revised_announceOverwrite (o : Outlook) (level : Nat) (label : String) (runs : Int) :
    Revised o (o.announceOverwrite level label runs) := by
  unfold announceOverwrite
  split
  · exact (Revised.refl o).say rfl
  · exact .refl o

theorem revised_watchFull (o : Outlook) (r : Rotation) : Revised o (o.watchFull r) := by
  unfold watchFull
  split
  · exact revised_announceOverwrite ..
  · exact .refl o

theorem revised_watchLevel1 (o : Outlook) (r : Rotation) : Revised o (o.watchLevel1 r) := by
  unfold watchLevel1
  split
  · rename_i label _ _
    split
    · have hannounced := revised_announceOverwrite o 1 label (r.runsUntilOverwrite label)
      dsimp only
      split
      · exact hannounced.tail (.lowered _ (Nat.zero_le 1))
      · exact hannounced
    · exact .refl o
  · exact .refl o

theorem revised_expectFullElsewhere (o : Outlook) : Revised o o.expectFullElsewhere := by
  have hexpected : Revised o { o with lastLevel := some (o.lastLevel.getD 0) } := by
    cases hlast : o.lastLevel with
    | none => exact (Revised.refl o).tail (.lowered o (Nat.zero_le 1))
    | some last =>
      rw [Option.getD_some, ← hlast]
      exact .refl o
  unfold expectFullElsewhere
  split
  · dsimp only
    split
    · exact hexpected.say rfl
    · exact hexpected
  · exact .refl o

theorem revised_trustTapes (o : Outlook) (reserve : Nat) : Revised o (o.trustTapes reserve) := by
  unfold trustTapes
  split
  · rename_i hmissing
    exact ((Revised.refl o).tail (.due o 0 hmissing.2.2.1)).say rfl
  · exact .refl o

theorem revised_reckonPriority (o : Outlook) : Revised o o.reckonPriority := by
  unfold reckonPriority
  split
  · exact (Revised.refl o).tail (.reckoned o _)
  · exact .refl o

def watched (o : Outlook) (s : Settings) (r : Rotation) : Outlook :=
  (((o.force s.dumpCycle).watchFull r).watchLevel1 r).reckonPriority

theorem revised_watched (o : Outlook) (s : Settings) (r : Rotation) : Revised o (o.watched s r) :=
  (((revised_force o s.dumpCycle).trans (revised_watchFull _ r)).trans
    (revised_watchLevel1 _ r)).trans (revised_reckonPriority _)

/-- The outlook by which levels are chosen, if the disk neither fails nor is left out before. -/
def considered (o : Outlook) (s : Settings) (r : Rotation) : Outlook :=
  (o.watched s r).expectFullElsewhere.trustTapes s.reserve

theorem revised_considered (o : Outlook) (s : Settings) (r : Rotation) :
    Revised o (o.considered s r) :=
  ((revised_watched o s r).trans (revised_expectFullElsewhere _)).trans (revised_trustTapes _ _)

end NightlyBackup.Outlook
