import NightlyBackup.Proofs.ReplyText

/-!
What is written is read back. A quoted text holds no newline, it neither begins nor ends with a
blank, and it denotes the text that was quoted; a whole number that is written out denotes itself.
-/

namespace NightlyBackup

namespace Text

variable {c d : Char} {cs rest word : List Char} {n : Nat}

/-! ## Quoting -/

/-- An escape denotes its character; other characters have no meaning between quotes, and do not
end a line. -/
theorem escapeChar_cases (c : Char) :
    (∃ d, escapeChar c = ['\\', d] ∧ unescapeChar d = c ∧ d ≠ '\n') ∨
      (escapeChar c = [c] ∧ c ≠ '\\' ∧ c ≠ '"' ∧ c ≠ '\n') := by
  unfold escapeChar
  split
  · exact Or.inl ⟨'t', rfl, by simp_all [unescapeChar], by decide⟩
  split
  · exact Or.inl ⟨'n', rfl, by simp_all [unescapeChar], by decide⟩
  split
  · exact Or.inl ⟨'r', rfl, by simp_all [unescapeChar], by decide⟩
  split
  · exact Or.inl ⟨'f', rfl, by simp_all [unescapeChar], by decide⟩
  split
  · exact Or.inl ⟨'\\', rfl, by simp_all [unescapeChar], by decide⟩
  split
  · exact Or.inl ⟨'"', rfl, by simp_all [unescapeChar], by decide⟩
  · exact Or.inr ⟨rfl, ‹_›, ‹_›, ‹_›⟩

/-- Quoting leaves a text alone, or it escapes the text between quotes. -/
theorem quoteChars_cases (cs : List Char) :
    (quoteChars cs = cs ∧ cs ≠ [] ∧ ∀ c ∈ cs, needsQuotes c = false) ∨
      quoteChars cs = '"' :: (cs.flatMap escapeChar ++ ['"']) := by
  unfold quoteChars
  split
  · rename_i hempty
    obtain rfl := List.isEmpty_iff.mp hempty
    exact Or.inr rfl
  · rename_i hfull
    split
    · exact Or.inr rfl
    · rename_i hbare
      refine Or.inl ⟨rfl, fun e => hfull (List.isEmpty_iff.mpr e), fun c hc => ?_⟩
      simpa using fun h => hbare (List.any_eq_true.mpr ⟨c, hc, h⟩)

theorem bare_of_needsQuotes (h : needsQuotes c = false) :
    isBlank c = false ∧ c ≠ '"' ∧ c ≠ '\\' ∧ c ≠ '\n' := by
  simp only [needsQuotes, Bool.or_eq_false_iff, beq_eq_false_iff_ne] at h
  obtain ⟨⟨⟨hblank, -⟩, hquote⟩, hslash⟩ := h
  refine ⟨hblank, hquote, hslash, ?_⟩
  rintro rfl
  cases hblank

/-- Whatever is quoted, no newline is in it. -/
theorem unbroken_quoteChars (hc : c ∈ quoteChars cs) : c ≠ '\n' := by
  rcases quoteChars_cases cs with ⟨e, -, hbare⟩ | e
  · rw [e] at hc
    exact (bare_of_needsQuotes (hbare c hc)).2.2.2
  · rw [e] at hc
    have hescape : ∀ d, c ∈ escapeChar d → c ≠ '\n' := by
      intro d hd
      rcases escapeChar_cases d with ⟨d', e, -, hd'⟩ | ⟨e, -, -, hd'⟩
      · rw [e, List.mem_cons, List.mem_singleton] at hd
        rcases hd with rfl | rfl
        · decide
        · exact hd'
      · rw [e, List.mem_singleton] at hd
        exact hd ▸ hd'
    simp only [List.mem_cons, List.mem_append, List.mem_flatMap, List.not_mem_nil, or_false] at hc
    rcases hc with rfl | ⟨d, -, hd⟩ | rfl
    · decide
    · exact hescape d hd
    · decide

theorem unquoteChars_escapeChar (c : Char) (rest : List Char) :
    unquoteChars (escapeChar c ++ rest) = c :: unquoteChars rest := by
  rcases escapeChar_cases c with ⟨d, e, hd, -⟩ | ⟨e, hslash, hquote, -⟩
  · rw [e, ← hd]
    rfl
  · rw [e]
    exact unquoteChars.eq_5 c rest hquote (fun h _ => hslash h) fun _ _ h _ => hslash h

theorem unquoteChars_escaped (cs rest : List Char) :
    unquoteChars (cs.flatMap escapeChar ++ rest) = cs ++ unquoteChars rest := by
  induction cs with
  | nil => rfl
  | cons c cs ih =>
    rw [List.flatMap_cons, List.append_assoc, unquoteChars_escapeChar, ih]
    rfl

theorem unquoteChars_bare (h : ∀ c ∈ cs, needsQuotes c = false) : unquoteChars cs = cs := by
  induction cs with
  | nil => rfl
  | cons c cs ih =>
    obtain ⟨hc, hcs⟩ := List.forall_mem_cons.mp h
    obtain ⟨-, hquote, hslash, -⟩ := bare_of_needsQuotes hc
    rw [unquoteChars.eq_5 c cs hquote (fun h _ => hslash h) fun _ _ h _ => hslash h, ih hcs]

/-- A quoted text denotes the text that was quoted. -/
theorem unquoteChars_quoteChars (cs : List Char) : unquoteChars (quoteChars cs) = cs := by
  rcases quoteChars_cases cs with ⟨e, -, hbare⟩ | e
  · rw [e, unquoteChars_bare hbare]
  · rw [e]
    exact (unquoteChars_escaped cs ['"']).trans (List.append_nil cs)

theorem unquote_quote (s : String) : unquote (quote s) = s := by
  rw [unquote, quote, String.toList_ofList, unquoteChars_quoteChars, String.ofList_toList]

/-! ## Trimmed texts -/

/-- A text that is not empty and neither begins nor ends with a blank. -/
structure Trimmed (cs : List Char) : Prop where
  filled : cs ≠ []
  head : ∀ c ∈ cs.head?, isBlank c = false
  last : ∀ c ∈ cs.getLast?, isBlank c = false

theorem Trimmed.of_not_blank (hne : cs ≠ []) (h : ∀ c ∈ cs, isBlank c = false) : Trimmed cs :=
  ⟨hne, fun c hc => h c (List.mem_of_head? hc), fun c hc => h c (List.mem_of_getLast? hc)⟩

/-- What stands between two trimmed texts does not count. -/
theorem Trimmed.append {ds : List Char} (hcs : Trimmed cs) (hds : Trimmed ds) (gap : List Char) :
    Trimmed (cs ++ (gap ++ ds)) := by
  refine ⟨by simp [hcs.filled], ?_, ?_⟩
  · obtain ⟨c, cs, rfl⟩ := List.exists_cons_of_ne_nil hcs.filled
    exact hcs.head
  · have hlast := hds.last
    rw [List.getLast?_eq_some_getLast hds.filled] at hlast
    rw [← List.append_assoc, List.getLast?_append, List.getLast?_eq_some_getLast hds.filled]
    exact hlast

theorem trimmed_quoteChars (cs : List Char) : Trimmed (quoteChars cs) := by
  rcases quoteChars_cases cs with ⟨e, hne, hbare⟩ | e
  · rw [e]
    exact .of_not_blank hne fun c hc => (bare_of_needsQuotes (hbare c hc)).1
  · have hquote : Trimmed ['"'] := by
      refine .of_not_blank (List.cons_ne_nil _ _) fun c hc => ?_
      rw [List.mem_singleton.mp hc]
      rfl
    rw [e]
    exact hquote.append hquote (cs.flatMap escapeChar)

theorem trimmed_quote (s : String) : Trimmed (quote s).toList := by
  rw [quote, String.toList_ofList]
  exact trimmed_quoteChars s.toList

theorem Trimmed.ne_empty {s : String} (h : Trimmed s.toList) : s ≠ "" := by
  rintro rfl
  exact h.filled rfl

/-- Nothing is trimmed off at the end. -/
theorem Trimmed.trimEnd_eq (h : Trimmed cs) : trimEnd cs = cs := by
  have hlast := h.last
  rw [List.getLast?_eq_head?_reverse] at hlast
  rw [trimEnd, List.reverse_eq_iff]
  cases hrev : cs.reverse with
  | nil => rfl
  | cons c rest =>
    rw [hrev] at hlast
    simp [hlast c rfl]

/-! ## Texts without newlines -/

/-- No newline is in the text. -/
def Unbroken (s : String) : Prop := ∀ c ∈ s.toList, c ≠ '\n'

instance (s : String) : Decidable (Unbroken s) :=
  decidable_of_iff (s.toList.all (· != '\n') = true) (by simp [Unbroken])

theorem unbroken_quote (s : String) : Unbroken (quote s) := fun _ hc =>
  unbroken_quoteChars (by simpa [quote] using hc)

/-- What holds of every character of two texts holds of every character of both together. -/
theorem forall_append {P : Char → Prop} {s t : String} (hs : ∀ c ∈ s.toList, P c)
    (ht : ∀ c ∈ t.toList, P c) : ∀ c ∈ (s ++ t).toList, P c := by
  rw [String.toList_append]
  exact List.forall_mem_append.mpr ⟨hs, ht⟩

theorem Unbroken.append {s t : String} (hs : Unbroken s) (ht : Unbroken t) :
    Unbroken (s ++ t) := forall_append hs ht

/-- What holds of every character of several texts holds of every character when they are
joined. -/
theorem forall_joinWith {P : Char → Prop} {sep : String} {parts : List String}
    (hsep : ∀ c ∈ sep.toList, P c) (hparts : ∀ part ∈ parts, ∀ c ∈ part.toList, P c) :
    ∀ c ∈ (joinWith sep parts).toList, P c := by
  induction parts with
  | nil => exact fun _ hc => absurd hc List.not_mem_nil
  | cons part parts ih =>
    obtain ⟨hpart, hparts⟩ := List.forall_mem_cons.mp hparts
    cases parts with
    | nil => exact hpart
    | cons other parts =>
      intro c hc
      rw [joinWith, String.intercalate_cons_cons, String.toList_append, String.toList_append,
        List.mem_append, List.mem_append] at hc
      exact hc.elim (fun hc => hc.elim (hpart c) (hsep c)) (ih hparts c)

/-- Words without newlines make up a line. -/
theorem unbroken_joinWith {sep : String} {parts : List String} (hsep : Unbroken sep)
    (hparts : ∀ part ∈ parts, Unbroken part) : Unbroken (joinWith sep parts) :=
  forall_joinWith hsep hparts

/-! ## Bare texts -/

/-- Neither blanks nor quotes nor backslashes are in the text. -/
def Bare (s : String) : Prop := ∀ c ∈ s.toList, isBlank c = false ∧ c ≠ '"' ∧ c ≠ '\\'

instance (s : String) : Decidable (Bare s) :=
  decidable_of_iff (s.toList.all (fun c => !isBlank c && c != '"' && c != '\\') = true)
    (by simp [Bare, and_assoc])

theorem Bare.unbroken {s : String} (h : Bare s) : Unbroken s := by
  rintro c hc rfl
  cases (h '\n' hc).1

theorem Bare.append {s t : String} (hs : Bare s) (ht : Bare t) : Bare (s ++ t) :=
  forall_append hs ht

/-! ## Words and numbers -/

theorem dropFront?_eq_some : dropFront? word cs = some rest ↔ cs = word ++ rest := by
  induction word generalizing cs with
  | nil => simp [dropFront?, eq_comm]
  | cons c word ih =>
    cases cs with
    | nil => simp [dropFront?]
    | cons d cs =>
      rw [dropFront?]
      split
      · rename_i e
        rw [ih, e, List.cons_append, List.cons_inj_right]
      · rename_i hne
        simp only [reduceCtorEq, List.cons_append, List.cons.injEq, false_iff, not_and]
        exact fun e => absurd e.symm hne

/-- The word that a line begins with. -/
theorem takeWhile_word (hword : ∀ c ∈ word, isBlank c = false) (hc : isBlank c = true) :
    (word ++ c :: rest).takeWhile (!isBlank ·) = word := by
  rw [List.takeWhile_append_of_pos (by simpa using hword), List.takeWhile_cons]
  simp [hc]

theorem isDigit_iff : c.isDigit = true ↔ 48 ≤ c.toNat ∧ c.toNat ≤ 57 := by
  simp only [Char.isDigit, Bool.and_eq_true, decide_eq_true_eq, ge_iff_le,
    UInt32.le_iff_toNat_le, Char.toNat_val]
  rfl

theorem ne_of_isDigit (h : c.isDigit = true) (hd : d.isDigit = false) : c ≠ d := by
  rintro rfl
  cases h.symm.trans hd

/-- The digits of a number are digits of a numeral, and neither blanks nor signs. -/
theorem numeral_of_isDigit (h : c.isDigit = true) :
    isDecimalDigit c = true ∧ isBlank c = false ∧ c ≠ '-' ∧ c ≠ '+' ∧ c ≠ '\n' := by
  obtain ⟨hleast, hgreatest⟩ := isDigit_iff.mp h
  refine ⟨?_, ?_, ne_of_isDigit h rfl, ne_of_isDigit h rfl, ne_of_isDigit h rfl⟩
  · refine List.any_eq_true.mpr ⟨0x30, by decide, ?_⟩
    simp only [Bool.and_eq_true, decide_eq_true_eq]
    omega
  · simp only [isBlank, Bool.or_eq_false_iff, Bool.and_eq_false_iff, decide_eq_false_iff_not,
      beq_eq_false_iff_ne]
    omega

theorem digitValue?_of_isDigit (h : c.isDigit = true) :
    digitValue? c = some (c.toNat - '0'.toNat) := by
  obtain ⟨hleast, hgreatest⟩ := isDigit_iff.mp h
  refine if_pos ⟨?_, ?_⟩
  · exact UInt32.le_iff_toNat_le.mpr hleast
  · exact UInt32.le_iff_toNat_le.mpr hgreatest

theorem le_ofDigitChars (cs : List Char) (n : Nat) : n ≤ Nat.ofDigitChars 10 cs n := by
  induction cs generalizing n with
  | nil => exact Nat.le_refl n
  | cons c cs ih =>
    rw [Nat.ofDigitChars_cons]
    have := ih (10 * n + (c.toNat - '0'.toNat))
    omega

/-- Digits are read as the number that they denote. -/
theorem readUp_digits {greatest : Int} (hdigits : ∀ c ∈ cs, c.isDigit = true)
    (hle : (Nat.ofDigitChars 10 cs n : Int) ≤ greatest) :
    readUp greatest n cs = .ok (Nat.ofDigitChars 10 cs n) := by
  induction cs generalizing n with
  | nil => rfl
  | cons c cs ih =>
    obtain ⟨hc, hcs⟩ := List.forall_mem_cons.mp hdigits
    have hvalue : (n : Int) * 10 + ((c.toNat - '0'.toNat : Nat) : Int) =
        ((10 * n + (c.toNat - '0'.toNat) : Nat) : Int) := by
      push_cast
      omega
    rw [Nat.ofDigitChars_cons] at hle ⊢
    have hmono := le_ofDigitChars cs (10 * n + (c.toNat - '0'.toNat))
    rw [readUp, digitValue?_of_isDigit hc]
    simp only [hvalue]
    rw [if_neg (by omega), ih hcs hle]

/-- Downwards a number is read as upwards, with the other sign. -/
theorem readDown_neg {least value i : Int} (h : readUp (-least) value cs = .ok i) :
    readDown least (-value) cs = .ok (-i) := by
  induction cs generalizing value with
  | nil =>
    cases h
    rfl
  | cons c cs ih =>
    rw [readUp] at h
    rw [readDown]
    cases hc : digitValue? c with
    | none =>
      rw [hc] at h
      cases h
    | some d =>
      simp only [hc] at h
      split at h
      · cases h
      · rename_i hle
        have hneg : -value * 10 - d = -(value * 10 + d) := by omega
        simp only [hneg]
        rw [if_neg (by omega), ih h]

theorem isDigit_of_mem (hc : c ∈ Nat.toDigits 10 n) : c.isDigit = true :=
  Nat.isDigit_of_mem_toDigits (by decide) (by decide) hc

theorem bare_toString (n : Nat) : Bare (toString n) := by
  intro c hc
  have hdigit : c ∈ Nat.toDigits 10 n := by simpa [Nat.toList_repr] using hc
  have h := isDigit_of_mem hdigit
  exact ⟨(numeral_of_isDigit h).2.1, ne_of_isDigit h rfl, ne_of_isDigit h rfl⟩

theorem unbroken_toString (n : Nat) : Unbroken (toString n) := (bare_toString n).unbroken

theorem bare_toString_int (i : Int) : Bare (toString i) := by
  cases i with
  | ofNat n => exact bare_toString n
  | negSucc n => exact Bare.append (by decide) (bare_toString (n + 1))

theorem toList_toString (n : Nat) : (toString n).toList = Nat.toDigits 10 n := by
  simp [Nat.toList_repr]

/-- A number is written out as its digits, behind a minus sign if it is negative. -/
theorem toList_toString_cases (i : Int) :
    (∃ n : Nat, i = n ∧ (toString i).toList = Nat.toDigits 10 n) ∨
      ∃ n : Nat, 0 < n ∧ i = -(n : Int) ∧ (toString i).toList = '-' :: Nat.toDigits 10 n := by
  cases i with
  | ofNat n => exact Or.inl ⟨n, rfl, toList_toString n⟩
  | negSucc n =>
    refine Or.inr ⟨n + 1, n.succ_pos, rfl, ?_⟩
    change ("-" ++ toString (n + 1)).toList = _
    rw [String.toList_append, toList_toString]
    rfl

theorem ofDigitChars_toDigits (n : Nat) : Nat.ofDigitChars 10 (Nat.toDigits 10 n) 0 = n :=
  Nat.ofDigitChars_toDigits (by decide) (by decide)

theorem trimmed_toString (i : Int) : Trimmed (toString i).toList := by
  refine .of_not_blank ?_ fun c hc => (bare_toString_int i c hc).1
  rcases toList_toString_cases i with ⟨n, -, e⟩ | ⟨n, -, -, e⟩
  · rw [e]
    exact Nat.toDigits_ne_nil
  · rw [e]
    exact List.cons_ne_nil _ _

/-- The number lies between the bounds of the range. -/
def WholeRange.Holds (range : WholeRange) (i : Int) : Prop :=
  range.least ≤ i ∧ i ≤ range.greatest

theorem holds_readUp {greatest value i : Int} (hvalue : WholeRange.Holds ⟨0, greatest⟩ value)
    (h : readUp greatest value cs = .ok i) : WholeRange.Holds ⟨0, greatest⟩ i := by
  fun_induction readUp greatest value cs with
  | case1 value =>
    cases h
    exact hvalue
  | case2 | case3 => cases h
  | case4 value c cs d _ hle ih =>
    obtain ⟨hpos, -⟩ := hvalue
    simp only at hpos
    exact ih ⟨by simp only; omega, by simp only; omega⟩ h

theorem holds_readDown {least value i : Int} (hvalue : WholeRange.Holds ⟨least, 0⟩ value)
    (h : readDown least value cs = .ok i) : WholeRange.Holds ⟨least, 0⟩ i := by
  fun_induction readDown least value cs with
  | case1 value =>
    cases h
    exact hvalue
  | case2 | case3 => cases h
  | case4 value c cs d _ hle ih =>
    obtain ⟨-, hneg⟩ := hvalue
    simp only at hneg
    exact ih ⟨by simp only; omega, by simp only; omega⟩ h

/-- A number that is read lies in the range, if zero does. -/
theorem holds_readWhole {range : WholeRange} {i : Int} (hzero : range.Holds 0)
    (h : readWhole range cs = .ok i) : range.Holds i := by
  obtain ⟨hleast, hgreatest⟩ := hzero
  have hup : ∀ {ds}, readUp range.greatest 0 ds = .ok i → range.Holds i := fun h =>
    (holds_readUp ⟨Int.le_refl 0, hgreatest⟩ h).imp_left (Int.le_trans hleast)
  unfold readWhole at h
  split at h
  case h_1 | h_2 | h_3 => cases h
  case h_4 => exact hup h
  case h_5 =>
    split at h
    · exact (holds_readDown ⟨hleast, Int.le_refl 0⟩ h).imp_right fun hle =>
        Int.le_trans hle hgreatest
    · cases h
  case h_6 => exact hup h

theorem holds_unsigned_zero (bits : Nat) : (WholeRange.unsigned bits).Holds 0 := by
  have hpos : 0 < 1 <<< bits := by
    rw [Nat.one_shiftLeft]
    exact Nat.two_pow_pos bits
  refine ⟨Int.le_refl 0, ?_⟩
  simp only [WholeRange.unsigned]
  omega

theorem readWhole_toDigits {range : WholeRange} (hle : (n : Int) ≤ range.greatest) :
    readWhole range (Nat.toDigits 10 n) = .ok n := by
  have hdigits : ∀ c ∈ Nat.toDigits 10 n, c.isDigit = true := fun _ => isDigit_of_mem
  have hread := readUp_digits (n := 0) hdigits ((ofDigitChars_toDigits n).symm ▸ hle)
  rw [ofDigitChars_toDigits] at hread
  obtain ⟨c, cs, e⟩ := List.exists_cons_of_ne_nil (Nat.toDigits_ne_nil (n := n) (b := 10))
  have hfirst : c ∈ Nat.toDigits 10 n := e ▸ List.mem_cons_self ..
  obtain ⟨-, -, hminus, hplus, -⟩ := numeral_of_isDigit (isDigit_of_mem hfirst)
  rw [e] at hread ⊢
  unfold readWhole
  split <;> simp_all

theorem readWhole_minus_toDigits {range : WholeRange} (hn : 0 < n)
    (hle : range.least ≤ -(n : Int)) :
    readWhole range ('-' :: Nat.toDigits 10 n) = .ok (-n) := by
  have hdigits : ∀ c ∈ Nat.toDigits 10 n, c.isDigit = true := fun _ => isDigit_of_mem
  have hup : (Nat.ofDigitChars 10 (Nat.toDigits 10 n) 0 : Int) ≤ -range.least := by
    rw [ofDigitChars_toDigits]
    omega
  have hread := readDown_neg (readUp_digits hdigits hup)
  rw [ofDigitChars_toDigits] at hread
  obtain ⟨c, cs, e⟩ := List.exists_cons_of_ne_nil (Nat.toDigits_ne_nil (n := n) (b := 10))
  have hnegative : range.least < 0 := by omega
  rw [e] at hread ⊢
  exact (if_pos hnegative).trans hread

/-- A number that is written out denotes itself. -/
theorem readWhole_toString {range : WholeRange} {i : Int} (h : range.Holds i) :
    readWhole range (toString i).toList = .ok i := by
  obtain ⟨hleast, hgreatest⟩ := h
  rcases toList_toString_cases i with ⟨n, rfl, e⟩ | ⟨n, hn, rfl, e⟩
  · rw [e]
    exact readWhole_toDigits hgreatest
  · rw [e]
    exact readWhole_minus_toDigits hn hleast

end Text

end NightlyBackup
