import NightlyBackup.Exchange.Reply

/-!
Replies one after another. Where two texts meet at a newline nothing is read across it: a line
that was not ended before is ended there, and the blank lines that may arise are not read. So a
reply that is put together from several ones says what they say, in order.
-/

namespace NightlyBackup

namespace Text

variable {c : Char} {cs ds : List Char}

/-- What stands in front of a text that is trimmed does not depend on what was trimmed off. -/
theorem trimEnd_cons_congr (h : trimEnd cs = trimEnd ds) :
    trimEnd (c :: cs) = trimEnd (c :: ds) := by
  have hrev : cs.reverse.dropWhile isBlank = ds.reverse.dropWhile isBlank :=
    List.reverse_inj.mp h
  simp only [trimEnd, List.reverse_cons, List.dropWhile_append, hrev]

theorem eq_nil_of_lines_eq_nil (h : lines cs = []) : cs = [] := by
  unfold lines at h
  split at h
  · rfl
  · cases h
  · cases h
  · split at h <;> cases h

/-- A character that ends no line begins one. -/
theorem lines_cons (hnewline : c = '\n' → False)
    (hreturn : ∀ rest, c = '\r' → cs = '\n' :: rest → False) :
    lines (c :: cs) = match lines cs with
      | [] => [[c]]
      | line :: more => (c :: line) :: more :=
  (lines.eq_4 c cs hnewline hreturn).trans (by cases lines cs <;> rfl)

/-- Where two texts meet at a newline, the lines are those of the one and of the other. They are
so up to blanks at their ends, and a blank line may come between them. -/
theorem lines_append_newline (cs ds : List Char) : ∃ gap, (∀ line ∈ gap, line = []) ∧
    (lines (cs ++ '\n' :: ds)).map trimEnd =
      (lines cs).map trimEnd ++ (gap ++ (lines ds).map trimEnd) := by
  fun_induction lines cs with
  | case1 => exact ⟨[[]], by simp, rfl⟩
  | case2 rest ih =>
    obtain ⟨gap, hgap, e⟩ := ih
    exact ⟨gap, hgap, by simpa [lines] using e⟩
  | case3 rest ih =>
    obtain ⟨gap, hgap, e⟩ := ih
    exact ⟨gap, hgap, by simpa [lines] using e⟩
  | case4 c rest hnewline hreturn hlines ih =>
    obtain rfl : rest = [] := eq_nil_of_lines_eq_nil hlines
    by_cases hc : c = '\r'
    · subst hc
      exact ⟨[], by simp, by simp [lines, trimEnd, isBlank]⟩
    · have hline : lines (c :: '\n' :: ds) = [c] :: lines ds := by
        rw [lines_cons hnewline fun _ e _ => hc e]
        rfl
      exact ⟨[], by simp, by simp [hline]⟩
  | case5 c rest hnewline hreturn line more hlines ih =>
    obtain ⟨gap, hgap, e⟩ := ih
    rw [hlines, List.map_cons, List.cons_append] at e
    obtain ⟨line', more', hlines', hline, hmore⟩ := List.map_eq_cons_iff.mp e
    have hrest : rest ≠ [] := by
      rintro rfl
      cases hlines
    have hreturn' : ∀ rest', c = '\r' → rest ++ '\n' :: ds = '\n' :: rest' → False := by
      intro rest' hc e
      obtain ⟨d, rest, rfl⟩ := List.exists_cons_of_ne_nil hrest
      exact hreturn rest hc (congrArg (· :: rest) (List.cons.inj e).1)
    refine ⟨gap, hgap, ?_⟩
    rw [List.cons_append, lines_cons hnewline hreturn', hlines']
    simp only [List.map_cons, List.cons_append, hmore, trimEnd_cons_congr hline]

def fullLines (cs : List Char) : List (List Char) :=
  ((lines cs).map trimEnd).filter (!·.isEmpty)

theorem fullLines_append_newline (cs ds : List Char) :
    fullLines (cs ++ '\n' :: ds) = fullLines cs ++ fullLines ds := by
  obtain ⟨gap, hgap, e⟩ := lines_append_newline cs ds
  have hblank : gap.filter (!·.isEmpty) = [] := by simpa [List.filter_eq_nil_iff] using hgap
  rw [fullLines, e, List.filter_append, List.filter_append, hblank]
  rfl

end Text

open Text

/-- A reply that is put together from two is read as one and then the other. -/
theorem readReply_append_newline (a b : String) : readReply (a ++ "\n" ++ b) = (do
    let lines ← readReply a
    let more ← readReply b
    pure (lines ++ more)) := by
  have hchars : (a ++ "\n" ++ b).toList = a.toList ++ '\n' :: b.toList := by simp
  change (fullLines (a ++ "\n" ++ b).toList).mapM ReplyLine.ofLine = _
  rw [hchars, fullLines_append_newline, List.mapM_append]
  rfl

/-- A reply that is put together from several ones says what they say, in order. -/
theorem readReply_joinWith (bodies : List String) :
    readReply (joinWith "\n" bodies) = List.flatten <$> bodies.mapM readReply := by
  induction bodies with
  | nil => rfl
  | cons body rest ih =>
    cases rest with
    | nil =>
      rw [joinWith, String.intercalate_singleton, List.mapM_cons, List.mapM_nil]
      cases readReply body <;> simp
    | cons other rest =>
      rw [joinWith, String.intercalate_cons_cons, readReply_append_newline, ← joinWith, ih]
      generalize other :: rest = rest
      rw [List.mapM_cons]
      cases readReply body with
      | error bad => rfl
      | ok lines => cases rest.mapM readReply <;> rfl

end NightlyBackup
