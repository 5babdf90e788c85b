import NightlyBackup.Text.Utf8

/-!
A text is read from its bytes again: what is encoded as UTF-8 is decoded without a fault, character
by character. The bytes below 128 are the ASCII characters and are part of no other one.
-/

namespace NightlyBackup.Text

variable {b n : Nat} {c : Char} {cs : List Char}

/-! ## Bytes of a text -/

def encodeChar (c : Char) : List Nat := (String.utf8EncodeChar c).map UInt8.toNat

def encodeChars (cs : List Char) : List Nat := cs.flatMap encodeChar

theorem encodeChars_append (cs ds : List Char) :
    encodeChars (cs ++ ds) = encodeChars cs ++ encodeChars ds := List.flatMap_append

theorem toList_toByteArray (bytes : List UInt8) : bytes.toByteArray.toList = bytes := by
  have hloop : ∀ i front,
      ByteArray.toList.loop bytes.toByteArray i front = front.reverse ++ bytes.drop i := by
    intro i front
    fun_induction ByteArray.toList.loop bytes.toByteArray i front with
    | case1 i front h ih =>
      rw [List.size_toByteArray] at h
      rw [ih, List.drop_eq_getElem_cons h, List.reverse_cons, List.append_assoc]
      simp [ByteArray.get!, h]
    | case2 i front h =>
      rw [List.size_toByteArray, Nat.not_lt] at h
      rw [List.drop_eq_nil_of_le h, List.append_nil]
  exact hloop 0 []

theorem toList_toUTF8 (s : String) : s.toUTF8.toList = s.toList.flatMap String.utf8EncodeChar := by
  have hbytes : s.toUTF8 = (s.toList.flatMap String.utf8EncodeChar).toByteArray := by
    rw [String.toUTF8_eq_toByteArray, ← String.ofList_toList (s := s), String.toByteArray_ofList,
      String.toList_ofList]
    rfl
  rw [hbytes, toList_toByteArray]

theorem encodeUtf8_eq (s : String) : encodeUtf8 s = encodeChars s.toList := by
  rw [encodeUtf8, toList_toUTF8, List.map_flatMap]
  rfl

/-- The bytes of a character, by the size of its number. -/
theorem encodeChar_eq (c : Char) : encodeChar c =
    if c.toNat ≤ 0x7f then [c.toNat]
    else if c.toNat ≤ 0x7ff then [c.toNat / 64 + 0xc0, c.toNat % 64 + 0x80]
    else if c.toNat ≤ 0xffff then
      [c.toNat / 4096 + 0xe0, c.toNat / 64 % 64 + 0x80, c.toNat % 64 + 0x80]
    else [c.toNat / 262144 + 0xf0, c.toNat / 4096 % 64 + 0x80, c.toNat / 64 % 64 + 0x80,
      c.toNat % 64 + 0x80] := by
  have hrange : c.toNat < 0x110000 := by
    have hvalid : c.toNat < 0xd800 ∨ 0xdfff < c.toNat ∧ c.toNat < 0x110000 := c.valid
    omega
  have hval : c.val.toNat = c.toNat := rfl
  simp only [encodeChar, String.utf8EncodeChar, hval]
  generalize c.toNat = n at hrange
  by_cases h1 : n ≤ 0x7f
  · simp only [h1, if_true, List.map_cons, List.map_nil, UInt8.toNat_ofNat']
    rw [Nat.mod_eq_of_lt (by omega)]
  by_cases h2 : n ≤ 0x7ff
  · simp only [h1, h2, if_true, if_false, List.map_cons, List.map_nil, UInt8.toNat_ofNat',
      List.cons.injEq, and_true]
    omega
  by_cases h3 : n ≤ 0xffff
  · simp only [h1, h2, h3, if_true, if_false, List.map_cons, List.map_nil, UInt8.toNat_ofNat',
      List.cons.injEq, and_true]
    omega
  · simp only [h1, h2, h3, if_false, List.map_cons, List.map_nil, UInt8.toNat_ofNat',
      List.cons.injEq, and_true]
    omega

/-- A byte below 128 is a character by itself. -/
theorem eq_of_mem_encodeChar (hb : b ∈ encodeChar c) (hascii : b < 0x80) : c = Char.ofNat b := by
  suffices hnumber : c.toNat = b by rw [← hnumber, Char.ofNat_toNat]
  rw [encodeChar_eq] at hb
  split at hb
  · exact (List.mem_singleton.mp hb).symm
  · split at hb
    · simp only [List.mem_cons, List.not_mem_nil, or_false] at hb
      omega
    · split at hb
      all_goals
        simp only [List.mem_cons, List.not_mem_nil, or_false] at hb
        omega

theorem encodeChar_ne_nil (c : Char) : encodeChar c ≠ [] := by
  rw [encodeChar_eq]
  split
  · exact List.cons_ne_nil _ _
  · split
    · exact List.cons_ne_nil _ _
    · split <;> exact List.cons_ne_nil _ _

/-! ## Reading the bytes -/

theorem followers_two (hleast : 0x7f < n) (hgreatest : n ≤ 0x7ff) :
    followers (n / 64 + 0xc0) = some (1, 0x80, 0xbf) := by
  rw [followers, if_pos (by omega)]

/-- Neither an overlong form nor a surrogate is in the way of a character of three bytes. -/
theorem followers_three (hleast : 0x7ff < n) (hgreatest : n ≤ 0xffff)
    (hvalid : n < 0xd800 ∨ 0xdfff < n) : ∃ least greatest,
      followers (n / 4096 + 0xe0) = some (2, least, greatest) ∧
        ¬(n / 64 % 64 + 0x80 < least ∨ greatest < n / 64 % 64 + 0x80) := by
  unfold followers
  rw [if_neg (by omega)]
  by_cases h0 : n / 4096 + 0xe0 = 0xe0
  · exact ⟨_, _, if_pos h0, by omega⟩
  by_cases hd : n / 4096 + 0xe0 = 0xed
  · exact ⟨_, _, (if_neg h0).trans (if_pos hd), by omega⟩
  · rw [if_neg h0, if_neg hd, if_pos (by omega)]
    exact ⟨_, _, rfl, by omega⟩

theorem followers_four (hleast : 0xffff < n) (hgreatest : n < 0x110000) : ∃ least greatest,
    followers (n / 262144 + 0xf0) = some (3, least, greatest) ∧
      ¬(n / 4096 % 64 + 0x80 < least ∨ greatest < n / 4096 % 64 + 0x80) := by
  unfold followers
  rw [if_neg (by omega), if_neg (by omega), if_neg (by omega), if_neg (by omega)]
  by_cases h0 : n / 262144 + 0xf0 = 0xf0
  · exact ⟨_, _, if_pos h0, by omega⟩
  by_cases h4 : n / 262144 + 0xf0 = 0xf4
  · rw [if_neg h0, if_neg (by omega), if_pos h4]
    exact ⟨_, _, rfl, by omega⟩
  · rw [if_neg h0, if_pos (by omega)]
    exact ⟨_, _, rfl, by omega⟩

theorem isContinuation_low (n : Nat) : isContinuation (n % 64 + 0x80) = true := by
  simp only [isContinuation, Bool.and_eq_true, decide_eq_true_eq]
  omega

/-- The bytes of a character are read as this character. -/
theorem decodeUtf8From_encodeChar (c : Char) (index : Nat) (rest : List Nat) :
    decodeUtf8From index (encodeChar c ++ rest) =
      (decodeUtf8From (index + (encodeChar c).length) rest).map (c :: ·) := by
  have hvalid : c.toNat < 0xd800 ∨ 0xdfff < c.toNat ∧ c.toNat < 0x110000 := c.valid
  have hchar : ∀ {n}, n = c.toNat → Char.ofNat n = c := by
    rintro _ rfl
    exact Char.ofNat_toNat c
  rw [encodeChar_eq]
  by_cases h1 : c.toNat ≤ 0x7f
  · rw [if_pos h1, List.singleton_append, decodeUtf8From, if_pos (by omega), hchar rfl]
    rfl
  by_cases h2 : c.toNat ≤ 0x7ff
  · have hlead := followers_two (Nat.lt_of_not_le h1) h2
    simp only [h1, h2, if_true, if_false, List.cons_append, List.nil_append]
    rw [decodeUtf8From, if_neg (by omega)]
    simp only [hlead]
    rw [if_neg (by omega), if_pos trivial, hchar (by omega)]
    rfl
  by_cases h3 : c.toNat ≤ 0xffff
  · obtain ⟨least, greatest, hlead, hsecond⟩ :=
      followers_three (Nat.lt_of_not_le h2) h3 (by omega)
    simp only [h1, h2, h3, if_true, if_false, List.cons_append, List.nil_append]
    rw [decodeUtf8From, if_neg (by omega)]
    simp only [hlead, hsecond, isContinuation_low, Nat.reduceEqDiff, Bool.not_true,
      Bool.false_eq_true, if_true, if_false]
    rw [hchar (by omega)]
    rfl
  · obtain ⟨least, greatest, hlead, hsecond⟩ :=
      followers_four (Nat.lt_of_not_le h3) (by omega)
    simp only [h1, h2, h3, if_false, List.cons_append, List.nil_append]
    rw [decodeUtf8From, if_neg (by omega)]
    simp only [hlead, hsecond, isContinuation_low, Nat.reduceEqDiff, Bool.not_true,
      Bool.false_eq_true, if_false]
    rw [hchar (by omega)]
    rfl

theorem decodeUtf8_encodeChars (cs : List Char) : decodeUtf8 (encodeChars cs) = .ok cs := by
  have hfrom : ∀ index, decodeUtf8From index (encodeChars cs) = .ok cs := by
    induction cs with
    | nil => exact fun _ => rfl
    | cons c cs ih =>
      intro index
      rw [encodeChars, List.flatMap_cons, decodeUtf8From_encodeChar, ← encodeChars, ih]
      rfl
  exact hfrom 0

end NightlyBackup.Text
