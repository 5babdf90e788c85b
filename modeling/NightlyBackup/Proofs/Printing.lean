import NightlyBackup.Night.Output
import NightlyBackup.Proofs.Quoting

/-!
Lines of output. Numbers, dates, features and quoted texts hold no newline, so a line breaks only
where the name of a host or the stamp of the run does. A text that is made up of lines without
newlines is read as these lines again.
-/

namespace NightlyBackup

open Text

variable {n : Night} {p : DiskPlan} {id slot : Nat}

/-! ## Bare words -/

theorem Text.bare_printRounded (x : Float) : Bare (printRounded x) := by
  have hsign : ∀ bit : Nat, Bare (if bit = 1 then "-" else "") := fun bit => by
    split <;> decide
  unfold printRounded
  dsimp only
  split
  · split
    · exact (hsign _).append (by decide)
    · decide
  · exact (hsign _).append (bare_toString _)

theorem Calendar.bare_yearText (year : Int) : Bare (yearText year) := by
  have hzeros : ∀ count, Bare ("".pushn '0' count) := by
    intro count
    induction count with
    | zero => exact fun c hc => absurd hc (List.not_mem_nil)
    | succ count ih =>
      intro c hc
      change c ∈ (("".pushn '0' count).push '0').toList at hc
      rw [String.toList_push, List.mem_append, List.mem_singleton] at hc
      rcases hc with hc | rfl
      · exact ih c hc
      · decide
  have hpadded := (hzeros (4 - (toString year.natAbs).length)).append
    (bare_toString year.natAbs)
  unfold yearText
  dsimp only
  split
  · exact hpadded
  · refine Bare.append ?_ hpadded
    split <;> decide

theorem Calendar.bare_watermark (moment : Int) : Bare (watermark moment) := by
  have hcolon : Bare ":" := by decide
  unfold watermark
  dsimp only
  refine forall_joinWith hcolon fun part hpart => ?_
  simp only [List.mem_cons, List.not_mem_nil, or_false] at hpart
  rcases hpart with rfl | rfl | rfl | rfl | rfl | rfl
  · exact bare_yearText _
  all_goals exact bare_toString _

theorem FeatureSet.exists_of_mem_toHex {s : FeatureSet} {c : Char} (hc : c ∈ s.toHex.toList) :
    ∃ n < 16, c = hexDigit n := by
  rw [toHex, String.toList_ofList] at hc
  obtain ⟨b, -, hmem⟩ := List.mem_flatMap.mp hc
  have hb := b.toNat_lt
  simp only [List.mem_cons, List.not_mem_nil, or_false] at hmem
  rcases hmem with rfl | rfl
  · exact ⟨_, by omega, rfl⟩
  · exact ⟨_, by omega, rfl⟩

theorem FeatureSet.bare_toHex (s : FeatureSet) : Bare s.toHex := by
  have hdigit : ∀ n < 16, isBlank (hexDigit n) = false ∧ hexDigit n ≠ '"' ∧ hexDigit n ≠ '\\' := by
    decide
  intro c hc
  obtain ⟨n, hn, rfl⟩ := exists_of_mem_toHex hc
  exact hdigit n hn

theorem Host.bare_featureWord (h : Host) : Bare h.featureWord := by
  unfold featureWord
  split
  · exact FeatureSet.bare_toHex _
  · decide

/-! ## Lines -/

theorem Text.unbroken_blank : Unbroken " " := by decide

namespace DiskPlan

def Marked (p : DiskPlan) : Prop := ∀ e ∈ p.levels, Unbroken e.watermark

theorem Marked.unbroken_figures (h : p.Marked) (slot : Nat) (rate : Float) :
    ∀ word ∈ (p.figures slot rate).words, Unbroken word := by
  have hmark : Unbroken (p.levels.getD slot default).watermark := by
    rw [List.getD_eq_getElem?_getD]
    cases he : p.levels[slot]? with
    | none => decide
    | some e => exact h e (List.mem_of_getElem? he)
  simp only [figures, DumpFigures.words, List.forall_mem_cons]
  exact ⟨unbroken_toString _, hmark, unbroken_toString _, unbroken_toString _,
    unbroken_toString _, (bare_printRounded _).unbroken, by simp⟩

theorem Marked.unbroken_fallbackWords (h : p.Marked) :
    ∀ word ∈ p.fallbackWords, Unbroken word := by
  unfold fallbackWords
  split
  · exact h.unbroken_figures _ _
  · exact List.forall_mem_singleton.mpr (unbroken_quote _)

end DiskPlan

/-- A dump line is one line, if the name of its host and the stamp of the run are. -/
theorem Night.unbroken_dumpLine {line : String} (hp : (n.plan id).Marked)
    (hhost : Unbroken (n.hostName id)) (hstamp : Unbroken n.timestamp)
    (hline : n.dumpLine? id = some line) : Unbroken line := by
  obtain ⟨slot, -, rfl⟩ := Option.map_eq_some_iff.mp hline
  refine unbroken_joinWith unbroken_blank fun word hword => ?_
  simp only [dumpWords, List.append_assoc, List.mem_append, List.mem_cons, List.not_mem_nil,
    or_false] at hword
  rcases hword with (rfl | rfl | rfl | rfl | rfl | rfl) | hfigures | hfallback
  · decide
  · exact hhost
  · exact (Host.bare_featureWord _).unbroken
  · exact unbroken_quote _
  · exact hstamp
  · exact (bare_toString_int _).unbroken
  · exact hp.unbroken_figures _ _ word hfigures
  · exact hp.unbroken_fallbackWords word hfallback

theorem Night.unbroken_failedLine (hhost : Unbroken (n.hostName id))
    (hstamp : Unbroken n.timestamp) : Unbroken (n.failedLine id) := by
  refine unbroken_joinWith unbroken_blank ?_
  simp only [List.forall_mem_cons]
  exact ⟨by decide, hhost, unbroken_quote _, hstamp, unbroken_toString _, unbroken_quote _,
    by simp⟩

/-! ## Texts made up of lines -/

theorem Text.splitAfter_line {line : List Char} (hline : ∀ c ∈ line, c ≠ '\n')
    (rest : List Char) :
    splitAfter '\n' (line ++ '\n' :: rest) = (line ++ ['\n']) :: splitAfter '\n' rest := by
  induction line with
  | nil => simp [splitAfter]
  | cons c line ih =>
    obtain ⟨hc, hline⟩ := List.forall_mem_cons.mp hline
    rw [List.cons_append, splitAfter, if_neg hc, ih hline]
    rfl

theorem writtenText_append (lines more : List String) :
    writtenText (lines ++ more) = writtenText lines ++ writtenText more := by
  simp [writtenText]

/-- Lines without newlines are read as they were written. -/
theorem readLines_writtenText {lines : List String} (hlines : ∀ line ∈ lines, Unbroken line) :
    readLines (writtenText lines) = lines.map (· ++ "\n") := by
  induction lines with
  | nil => rfl
  | cons line lines ih =>
    obtain ⟨hline, hlines⟩ := List.forall_mem_cons.mp hlines
    have htext : (writtenText (line :: lines)).toList =
        line.toList ++ '\n' :: (writtenText lines).toList := by simp [writtenText]
    have hrest : (splitAfter '\n' (writtenText lines).toList).map String.ofList =
        lines.map (· ++ "\n") := ih hlines
    rw [readLines, htext, splitAfter_line hline, List.map_cons, List.map_cons, hrest,
      String.ofList_append, String.ofList_toList]

end NightlyBackup
