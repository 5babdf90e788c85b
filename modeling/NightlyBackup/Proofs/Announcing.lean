import NightlyBackup.Proofs.Encoding
import NightlyBackup.Proofs.Printing
import NightlyBackup.Proofs.ReplyLines
import NightlyBackup.Proofs.Splitting

/-!
Announced features. A set of features is read back from the hexadecimal digits in which it is
written, and digits of either case are read in pairs. A host that announces a set after other
options is taken to have exactly these features.
-/

namespace NightlyBackup

open Night Planning Text

variable {α : Type} {b : UInt8} {bs out : List UInt8} {cs rest : List Char} {c : Char}

/-! ## Bytes two by two -/

def pairs : List α → List (α × α)
  | a :: b :: rest => (a, b) :: pairs rest
  | _ => []

theorem flatMap_pairs : ∀ l : List α,
    (pairs l).flatMap (fun p => [p.1, p.2]) = l.take (l.length / 2 * 2)
  | [] | [_] => by simp [pairs]
  | a :: b :: rest => by
    have hlength : (a :: b :: rest).length / 2 * 2 = rest.length / 2 * 2 + 2 := by
      simp only [List.length_cons]
      omega
    rw [hlength, List.take_succ_cons, List.take_succ_cons, pairs, List.flatMap_cons,
      flatMap_pairs rest]
    rfl

namespace FeatureSet

/-! ## Hexadecimal digits -/

/-- ASCII digits, and the letters from `a` to `f` in either case. -/
def IsHexDigit (b : UInt8) : Prop := (48 ≤ b ∧ b ≤ 57) ∨ (65 ≤ b ∧ b ≤ 70) ∨ (97 ≤ b ∧ b ≤ 102)

theorem isSome_hexValue?_iff : (hexValue? b).isSome = true ↔ IsHexDigit b := by
  unfold hexValue? IsHexDigit
  split
  · simp [*]
  · split
    · simp [*]
    · split <;> simp [*]

/-- A digit that is written is read as its value. -/
theorem hexValue?_hexDigit {n : Nat} (h : n < 16) :
    hexValue? (hexDigit n).val.toUInt8 = some (UInt8.ofNat n) ∧ (hexDigit n).val ≤ 127 := by
  have hall : ∀ n < 16,
      hexValue? (hexDigit n).val.toUInt8 = some (UInt8.ofNat n) ∧ (hexDigit n).val ≤ 127 := by
    decide
  exact hall n h

/-- A digit that is read is written as the same character, in lower case. -/
theorem hexDigit_of_hexValue? {v : UInt8} (h : hexValue? b = some v) :
    v < 16 ∧ hexDigit v.toNat = (Char.ofNat b.toNat).toLower ∧ b.toNat < 128 := by
  have hall : ∀ n < 256, ∀ v ∈ hexValue? (UInt8.ofNat n),
      v < 16 ∧ hexDigit v.toNat = (Char.ofNat n).toLower ∧ n < 128 := by
    decide +kernel
  exact hall b.toNat b.toNat_lt v (by rwa [UInt8.ofNat_toNat])

/-! ## Reading and writing -/

def digits (b : UInt8) : List Char := [hexDigit (b.toNat / 16), hexDigit (b.toNat % 16)]

theorem toList_toHex (s : FeatureSet) : s.toHex.toList = s.bytes.flatMap digits := by
  rw [toHex, String.toList_ofList]
  rfl

theorem isSome_ofPairs_iff :
    (ofPairs bs).isSome = true ↔ ∀ p ∈ pairs bs, IsHexDigit p.1 ∧ IsHexDigit p.2 := by
  fun_induction pairs bs with
  | case1 a b rest ih =>
    rw [ofPairs, List.forall_mem_cons, ← ih, ← isSome_hexValue?_iff, ← isSome_hexValue?_iff]
    cases hexValue? a <;> cases hexValue? b <;> cases ofPairs rest <;> simp
  | case2 bs hshort => simp [ofPairs.eq_2 bs hshort]

theorem toNat_byte {high low : UInt8} (hhigh : high < 16) (hlow : low < 16) :
    (high * 16 + low).toNat = high.toNat * 16 + low.toNat := by
  have hhigh : high.toNat < 16 := hhigh
  have hlow : low.toNat < 16 := hlow
  have hsixteen : (16 : UInt8).toNat = 16 := rfl
  rw [UInt8.toNat_add, UInt8.toNat_mul, hsixteen]
  omega

theorem ofPairs_digits (bs : List UInt8) :
    ofPairs ((bs.flatMap digits).map fun c => c.val.toUInt8) = some bs := by
  induction bs with
  | nil => rfl
  | cons b bs ih =>
    have hb := b.toNat_lt
    obtain ⟨hhigh, -⟩ := hexValue?_hexDigit (n := b.toNat / 16) (by omega)
    obtain ⟨hlow, -⟩ := hexValue?_hexDigit (n := b.toNat % 16) (by omega)
    have hbyte : UInt8.ofNat (b.toNat / 16) * 16 + UInt8.ofNat (b.toNat % 16) = b := by
      have hsmall : ∀ n < 16, UInt8.ofNat n < 16 ∧ (UInt8.ofNat n).toNat = n := by decide
      obtain ⟨hdiv, ediv⟩ := hsmall (b.toNat / 16) (by omega)
      obtain ⟨hmod, emod⟩ := hsmall (b.toNat % 16) (by omega)
      rw [← UInt8.toNat_inj, toNat_byte hdiv hmod, ediv, emod]
      omega
    rw [List.flatMap_cons, List.map_append, digits, List.map_cons, List.map_cons, List.map_nil,
      List.cons_append, List.cons_append, List.nil_append, ofPairs, hhigh, hlow, ih]
    simp only [Option.bind_eq_bind, Option.bind_some, hbyte]
    rfl

/-- What is read is written in lower case. -/
theorem flatMap_digits_of_ofPairs (h : ofPairs bs = some out) :
    out.flatMap digits = (bs.take (bs.length / 2 * 2)).map fun b =>
      (Char.ofNat b.toNat).toLower := by
  rw [← flatMap_pairs, List.map_flatMap]
  fun_induction pairs bs generalizing out with
  | case1 a b rest ih =>
    simp only [ofPairs, Option.bind_eq_bind, Option.bind_eq_some_iff] at h
    obtain ⟨high, hhigh, low, hlow, more, hmore, hout⟩ := h
    obtain ⟨hhigh, ha, -⟩ := hexDigit_of_hexValue? hhigh
    obtain ⟨hlow, hb, -⟩ := hexDigit_of_hexValue? hlow
    obtain rfl : (high * 16 + low) :: more = out := Option.some.inj hout
    have hsmall : low.toNat < 16 := hlow
    have hupper : (high.toNat * 16 + low.toNat) / 16 = high.toNat := by omega
    have hlower : (high.toNat * 16 + low.toNat) % 16 = low.toNat := by omega
    rw [List.flatMap_cons, List.flatMap_cons, ih hmore, digits, toNat_byte hhigh hlow, hupper,
      hlower, ha, hb]
    rfl
  | case2 bs hshort =>
    rw [ofPairs.eq_2 bs hshort] at h
    cases h
    rfl

/-! ## Texts -/

theorem toList_toUTF8_of_ascii {text : String} (h : ∀ c ∈ text.toList, c.val ≤ 127) :
    text.toUTF8.toList = text.toList.map fun c => c.val.toUInt8 := by
  rw [toList_toUTF8]
  generalize text.toList = cs at h
  induction cs with
  | nil => rfl
  | cons c cs ih =>
    obtain ⟨hc, hcs⟩ := List.forall_mem_cons.mp h
    rw [List.flatMap_cons, String.utf8EncodeChar_eq_singleton (Char.utf8Size_eq_one_iff.mpr hc),
      ih hcs]
    rfl

/-- At most one byte is in no complete pair, so a text has ASCII characters only if all the bytes in
pairs are of this kind. -/
theorem ascii_of_take {text : String}
    (h : ∀ b ∈ text.toUTF8.toList.take (text.toUTF8.toList.length / 2 * 2), b.toNat < 128) :
    ∀ c ∈ text.toList, c.val ≤ 127 := by
  intro c hc
  by_contra hlarge
  obtain ⟨before, after, htext⟩ := List.append_of_mem hc
  obtain ⟨b, more, hbytes⟩ := List.exists_cons_of_ne_nil (String.utf8EncodeChar_ne_nil (c := c))
  have hmore : 1 ≤ more.length := by
    have hsize : (b :: more).length = c.utf8Size := hbytes ▸ String.length_utf8EncodeChar c
    have hlong : c.utf8Size ≠ 1 := fun e => hlarge (Char.utf8Size_eq_one_iff.mp e)
    rw [List.length_cons] at hsize
    have hpos := Char.utf8Size_pos c
    omega
  rw [toList_toUTF8, htext, List.flatMap_append, List.flatMap_cons, hbytes, List.cons_append] at h
  have hb : b.toNat < 128 := by
    refine h b (List.mem_take_iff_getElem.mpr ?_)
    refine ⟨(before.flatMap String.utf8EncodeChar).length, ?_, ?_⟩
    · simp only [List.length_append, List.length_cons]
      omega
    · simp
  have hmem : b.toNat ∈ encodeChar c := by
    rw [encodeChar, hbytes]
    exact List.mem_map_of_mem List.mem_cons_self
  have hsmall : ∀ n < 128, (Char.ofNat n).val ≤ 127 := by decide
  exact hlarge (eq_of_mem_encodeChar hmem hb ▸ hsmall b.toNat hb)

theorem ofHex?_toHex (s : FeatureSet) : ofHex? s.toHex = some s := by
  have hascii : ∀ c ∈ s.toHex.toList, c.val ≤ 127 := by
    intro c hc
    obtain ⟨n, hn, rfl⟩ := exists_of_mem_toHex hc
    exact (hexValue?_hexDigit hn).2
  rw [ofHex?, toList_toUTF8_of_ascii hascii, toList_toHex, ofPairs_digits]
  rfl

theorem IsHexDigit.ascii (h : IsHexDigit b) : b.toNat < 128 := by
  obtain ⟨v, hv⟩ := Option.isSome_iff_exists.mp (isSome_hexValue?_iff.mpr h)
  exact (hexDigit_of_hexValue? hv).2.2

theorem isSome_ofHex?_iff {text : String} : (ofHex? text).isSome = true ↔
    ∀ p ∈ pairs text.toUTF8.toList, IsHexDigit p.1 ∧ IsHexDigit p.2 := by
  rw [ofHex?, Option.isSome_map, isSome_ofPairs_iff]

theorem ascii_of_ofHex? {text : String} {s : FeatureSet} (h : ofHex? text = some s) :
    ∀ c ∈ text.toList, c.val ≤ 127 := by
  have hpairs := isSome_ofHex?_iff.mp (Option.isSome_of_eq_some h)
  refine ascii_of_take fun b hb => ?_
  rw [← flatMap_pairs] at hb
  obtain ⟨p, hp, hmem⟩ := List.mem_flatMap.mp hb
  simp only [List.mem_cons, List.not_mem_nil, or_false] at hmem
  rcases hmem with rfl | rfl
  · exact (hpairs p hp).1.ascii
  · exact (hpairs p hp).2.ascii

/-- A text that is read has one byte for each character, and is written again in lower case, but for
a single last digit. -/
theorem toList_toHex_of_ofHex? {text : String} {s : FeatureSet} (h : ofHex? text = some s) :
    text.toUTF8.toList.length = text.length ∧
      s.toHex.toList = (text.toList.take (text.length / 2 * 2)).map Char.toLower := by
  have hascii := ascii_of_ofHex? h
  have hbytes := toList_toUTF8_of_ascii hascii
  obtain ⟨out, hout, rfl⟩ := Option.map_eq_some_iff.mp h
  refine ⟨by rw [hbytes, List.length_map, String.length_toList], ?_⟩
  rw [toList_toHex, flatMap_digits_of_ofPairs hout, hbytes, List.length_map, String.length_toList,
    ← List.map_take, List.map_map]
  refine List.map_congr_left fun c hc => ?_
  have hbyte : c.val.toUInt8.toNat = c.toNat := by
    have hsmall : c.toNat ≤ 127 := hascii c (List.mem_of_mem_take hc)
    exact Nat.mod_eq_of_lt (Nat.lt_of_le_of_lt hsmall (by decide))
  change (Char.ofNat c.val.toUInt8.toNat).toLower = c.toLower
  rw [hbyte, Char.ofNat_toNat]

/-! ## Adding features -/

def byteAt (s : FeatureSet) (i : Nat) : UInt8 := s.bytes[i]?.getD 0

theorem has_iff (s : FeatureSet) (f : Feature) :
    s.has f = true ↔ s.byteAt (f.bit / 8) &&& mask f ≠ 0 := by
  unfold has byteAt
  cases s.bytes[f.bit / 8]? <;> simp

theorem byteAt_insert (s : FeatureSet) (f : Feature) (i : Nat) : (s.insert f).byteAt i =
    if f.bit / 8 = i then s.byteAt i ||| mask f else s.byteAt i := by
  have hpadded : ∀ i, (s.bytes ++ List.replicate (f.bit / 8 + 1 - s.bytes.length) 0)[i]?.getD 0 =
      s.byteAt i := by
    intro i
    rw [byteAt, List.getElem?_append]
    split
    · rfl
    · rename_i hi
      rw [List.getElem?_replicate, List.getElem?_eq_none (Nat.not_lt.mp hi)]
      split <;> rfl
  rw [← hpadded i]
  simp only [byteAt, insert, List.getElem?_modify]
  split
  · rename_i hi
    have hlong : i < (s.bytes ++ List.replicate (f.bit / 8 + 1 - s.bytes.length) 0).length := by
      simp only [List.length_append, List.length_replicate]
      omega
    rw [List.getElem?_eq_getElem hlong]
    rfl
  · rw [id_map']

theorem or_and_distrib (x y z : UInt8) : (x ||| y) &&& z = x &&& z ||| y &&& z := by
  rw [← UInt8.toNat_inj]
  simp only [UInt8.toNat_and, UInt8.toNat_or, Nat.and_or_distrib_right]

/-- Two features share a bit only if they are the same. -/
theorem mask_and_mask {f g : Feature} (h : f.bit / 8 = g.bit / 8) :
    mask f &&& mask g ≠ 0 ↔ f = g := by
  revert h
  cases f <;> cases g <;> decide

/-- A set with one more feature has this one and those that it had. -/
theorem has_insert (s : FeatureSet) (f g : Feature) :
    (s.insert f).has g = true ↔ f = g ∨ s.has g = true := by
  rw [has_iff, has_iff, byteAt_insert]
  split
  · rename_i hbyte
    rw [or_and_distrib, ← mask_and_mask hbyte, ne_eq, UInt8.or_eq_zero_iff, not_and_or, or_comm]
  · rename_i hbyte
    have hne : f ≠ g := by
      rintro rfl
      exact hbyte rfl
    simp [hne]

end FeatureSet

/-! ## Announcements -/

namespace ReplyLine

theorem findFeatures_cons (c : Char) (cs : List Char) : findFeatures (c :: cs) =
    match (if isBlank c || c = ';' then dropFront? "features=".toList cs else none) with
    | some value => some (value.takeWhile fun d => !(isBlank d || d = ';'))
    | none => findFeatures cs := findFeatures.eq_def (c :: cs)

/-- The word is not found across a semicolon. -/
theorem dropFront?_features_eq_none (hfree : ¬"features=".toList <:+: cs) :
    dropFront? "features=".toList (cs ++ ';' :: rest) = none := by
  refine Option.eq_none_iff_forall_ne_some.mpr fun value hvalue => ?_
  have hword : ';' ∉ "features=".toList := by decide
  rcases List.append_eq_append_iff.mp (dropFront?_eq_some.mp hvalue) with
    ⟨back, hsplit, hrest⟩ | ⟨more, hcs, -⟩
  · rw [hsplit] at hfree hword
    cases back with
    | nil => exact hfree (by simp)
    | cons d back =>
      obtain ⟨rfl, -⟩ := List.cons.inj hrest
      exact hword (by simp)
  · exact hfree (hcs ▸ (List.prefix_append _ more).isInfix)

/-- Nothing is found up to the next semicolon. -/
theorem findFeatures_append (c : Char) (hfree : ¬"features=".toList <:+: cs) :
    findFeatures (c :: (cs ++ ';' :: rest)) = findFeatures (';' :: rest) := by
  induction cs generalizing c with
  | nil => rw [findFeatures_cons, dropFront?_features_eq_none hfree, ite_self, List.nil_append]
  | cons d cs ih =>
    rw [findFeatures_cons, dropFront?_features_eq_none hfree, ite_self]
    exact ih d fun h => hfree (List.infix_cons h)

/-- What ends an option, and may stand before the features. -/
def EndsOption (c : Char) : Prop := isBlank c = true ∨ c = ';'

theorem findFeatures_word {word : List Char} (hword : ∀ d ∈ word, ¬EndsOption d) :
    findFeatures (word ++ cs) = findFeatures cs := by
  induction word with
  | nil => rfl
  | cons d word ih =>
    obtain ⟨hd, hword⟩ := List.forall_mem_cons.mp hword
    have hbegins : ¬(isBlank d || decide (d = ';')) = true := by simpa [EndsOption] using hd
    rw [List.cons_append, findFeatures_cons, if_neg hbegins]
    exact ih hword

/-- The features are found behind options that do not look like them. -/
theorem findFeatures_options {options : List String} {word : List Char} (hc : EndsOption c)
    (hword : ∀ d ∈ word, ¬EndsOption d)
    (hfree : ∀ o ∈ options, ¬"features=".toList <:+: o.toList) :
    findFeatures (c :: (options.flatMap (fun o => o.toList ++ [';']) ++
      ("features=".toList ++ (word ++ ';' :: rest)))) = some word := by
  induction options generalizing c with
  | nil =>
    have hbegins : (isBlank c || decide (c = ';')) = true := by simpa [EndsOption] using hc
    have htake : (word ++ ';' :: rest).takeWhile (fun d => !(isBlank d || d = ';')) = word := by
      rw [List.takeWhile_append_of_pos fun d hd => by simpa [EndsOption] using hword d hd]
      simp
    rw [List.flatMap_nil, List.nil_append, findFeatures_cons, if_pos hbegins,
      dropFront?_eq_some.mpr rfl]
    exact congrArg some htake
  | cons o options ih =>
    obtain ⟨ho, hoptions⟩ := List.forall_mem_cons.mp hfree
    rw [List.flatMap_cons, List.append_assoc, List.append_assoc, List.singleton_append,
      findFeatures_append c ho]
    exact ih (Or.inr rfl) hoptions

def optionsLine (options : List String) (features : FeatureSet) : String :=
  "OPTIONS " ++ String.join (options.map (· ++ ";")) ++ "features=" ++ features.toHex ++ ";"

variable {options : List String} {features : FeatureSet}

theorem toList_optionsLine : (optionsLine options features).toList =
    "OPTIONS".toList ++ (' ' :: (options.flatMap (fun o => o.toList ++ [';']) ++
      ("features=".toList ++ (features.toHex.toList ++ [';'])))) := by
  simp [optionsLine, String.toList_join, List.flatMap_map]

theorem not_endsOption_of_mem_toHex {d : Char} (hd : d ∈ features.toHex.toList) :
    ¬EndsOption d := by
  have hdigit : ∀ n < 16,
      ¬(isBlank (FeatureSet.hexDigit n) = true ∨ FeatureSet.hexDigit n = ';') := by
    decide
  obtain ⟨n, hn, rfl⟩ := FeatureSet.exists_of_mem_toHex hd
  exact hdigit n hn

theorem not_endsOption_of_mem_keyword {d : Char} (hd : d ∈ "OPTIONS".toList) : ¬EndsOption d := by
  have hall : "OPTIONS".toList.all (fun d => !isBlank d && d != ';') = true := by decide
  simpa [EndsOption] using List.all_eq_true.mp hall d hd

theorem ofLine_optionsLine (hfree : ∀ o ∈ options, ¬"features=".toList <:+: o.toList) :
    ofLine (optionsLine options features).toList = .ok (.options (some features.toHex)) := by
  have hfound : findFeatures (optionsLine options features).toList =
      some features.toHex.toList := by
    rw [toList_optionsLine, findFeatures_word fun d => not_endsOption_of_mem_keyword]
    exact findFeatures_options (Or.inl rfl) (fun d => not_endsOption_of_mem_toHex) hfree
  have hoptions : dropFront? "OPTIONS ".toList (optionsLine options features).toList =
      some ((optionsLine options features).toList.drop 8) := by
    rw [toList_optionsLine]
    exact dropFront?_eq_some.mpr rfl
  rw [ofLine, hoptions, hfound]
  simp

theorem trimmed_optionsLine : Trimmed (optionsLine options features).toList := by
  have hfront : Trimmed "OPTIONS".toList := .of_not_blank (by decide) fun d hd =>
    Bool.eq_false_iff.mpr fun hblank => not_endsOption_of_mem_keyword hd (Or.inl hblank)
  have hback : Trimmed [';'] := .of_not_blank (by decide) (List.forall_mem_singleton.mpr rfl)
  have htrimmed := hfront.append hback (' ' :: (options.flatMap (fun o => o.toList ++ [';']) ++
    ("features=".toList ++ features.toHex.toList)))
  rw [toList_optionsLine]
  simpa only [List.cons_append, List.append_assoc] using htrimmed

end ReplyLine

variable {m : Night} {h : Nat} {body : String} {options : List String} {features : FeatureSet}

theorem tells_optionsLine (hfree : ∀ o ∈ options, ¬"features=".toList <:+: o.toList)
    (hbody : lines body.toList = [(ReplyLine.optionsLine options features).toList]) :
    (Packet.mk .rep body).Tells m h [.options (some features.toHex)] where
  reply := nofun
  read := readReply_of_lines hbody ReplyLine.trimmed_optionsLine
    (ReplyLine.ofLine_optionsLine hfree)
  accepted := List.forall_mem_singleton.mpr
    (Option.isSome_iff_exists.mpr ⟨_, FeatureSet.ofHex?_toHex features⟩)

/-- However a packet ends in which a host announces its features, the host has these ones. -/
theorem features_onReply (hh : h < m.hosts.length)
    (htells : (Packet.mk .rep body).Tells m h [.options (some features.toHex)]) :
    Leads (onReply h ⟨.rep, body⟩) m (fun _ k => (k.host h).features = some features)
      (fun _ k => (k.host h).features = some features) := by
  rw [leads_congr (onReply_tells htells)]
  refine leads_forM_keeps (I := fun k : Night => (k.host h).features = some features)
    (fun id _ k hk => features_settleDisk .rep hk) ?_
  have hentered : (m.setHost h Host.heard).enterLines h [.options (some features.toHex)] =
      (m.setHost h Host.heard).setHost h fun host => { host with features := some features } := by
    simp only [enterLines, List.foldl_cons, List.foldl_nil, enterLine, FeatureSet.ofHex?_toHex]
  rw [hentered, setHost_setHost, host_setHost_self hh]
  rfl

/-- **Feature sets survive the wire.** A set of features is read back from its hexadecimal digits. A
text is read exactly if each complete pair of its bytes is two hexadecimal digits; then each of its
characters is one byte, and the set is written as the longest part of even length that the text
begins with, in lower case. A feature that is added is in the set, and any other is in it if it was
before. If the only line of a final packet announces a set after other options that do not hold
`features=`, then the host has exactly these features afterwards, and on a night that was begun and
prepared no fault ends this. -/
theorem feature_sets_survive_wire :
    (∀ s : FeatureSet, FeatureSet.ofHex? s.toHex = some s) ∧
    (∀ text : String,
      ((FeatureSet.ofHex? text).isSome = true ↔ ∀ p ∈ pairs text.toUTF8.toList,
        FeatureSet.IsHexDigit p.1 ∧ FeatureSet.IsHexDigit p.2) ∧
      ∀ s, FeatureSet.ofHex? text = some s → text.toUTF8.toList.length = text.length ∧
        s.toHex.toList = (text.toList.take (text.length / 2 * 2)).map Char.toLower) ∧
    (∀ (s : FeatureSet) (f : Feature), (s.insert f).has f = true ∧
      ∀ g, g ≠ f → (s.insert f).has g = s.has g) ∧
    (∀ (m : Night) (h : Nat) (options : List String) (features : FeatureSet) (body : String),
      h < m.hosts.length → (∀ o ∈ options, ¬"features=".toList <:+: o.toList) →
      lines body.toList = [(ReplyLine.optionsLine options features).toList] →
      Leads (onReply h ⟨.rep, body⟩) m (fun _ k => (k.host h).features = some features)
        (fun _ k => (k.host h).features = some features) ∧
      ∀ (settings : Settings) (disks : List Disk) (rotation : Rotation) (today : Int)
        (store : Store) (n₀ n : Night) (t : Talks),
        Night.begin settings disks rotation today = .ok n₀ → prepareAll store n₀ = .ok () n →
        Reached n m t → ∃ k, onReply h ⟨.rep, body⟩ m = .ok () k) := by
  refine ⟨FeatureSet.ofHex?_toHex, fun text => ⟨FeatureSet.isSome_ofHex?_iff,
    fun s => FeatureSet.toList_toHex_of_ofHex?⟩, fun s f => ⟨?added, fun g hg => ?others⟩, ?packet⟩
  case added => exact (s.has_insert f f).mpr (Or.inl rfl)
  case others =>
    rw [Bool.eq_iff_iff, s.has_insert f g]
    exact or_iff_right (Ne.symm hg)
  case packet =>
    intro m h options features body hh hfree hbody
    have htells : (Packet.mk .rep body).Tells m h [.options (some features.toHex)] :=
      tells_optionsLine hfree hbody
    refine ⟨features_onReply hh htells, ?_⟩
    intro settings disks rotation today store n₀ n t hbegin hprepare hreached
    have hfresh := fresh_of_begin hbegin
    have hsetUp := (leads_prepareAll hfresh store).ok hprepare
    have hn := hsetUp.same.hosted hfresh.hosted
    obtain ⟨ids, hparts⟩ :=
      InParts.begin (hreached.inTurn hn (.begin hfresh hsetUp)).conversing h
    obtain ⟨k, hk, -⟩ := hparts.final htells
    exact ⟨k, hk⟩

/-- Digits of both cases and a single last one; then a host that has just been asked announces one
feature after another option. -/
theorem feature_sets_survive_wire_of_one :
    (∃ s, FeatureSet.ofHex? "2aFf7" = some s ∧ s.toHex.toList = "2aff".toList) ∧
    ∃ n₀ n m t k, Night.begin {} [Disk.plain "alpha" "/home" 10 default] default 0 = .ok n₀ ∧
      prepareAll {} n₀ = .ok () n ∧ Reached n m t ∧
      onReply 0 ⟨.rep, "OPTIONS maxdumps=1;features=20;\r\n"⟩ m = .ok () k ∧
      (k.host 0).features = some ⟨[0x20]⟩ := by
  obtain ⟨-, hread, -, hannounced⟩ := feature_sets_survive_wire
  constructor
  · obtain ⟨s, hs⟩ : ∃ s, FeatureSet.ofHex? "2aFf7" = some s :=
      ⟨⟨[0x2a, 0xff]⟩, by decide +kernel⟩
    exact ⟨s, hs, ((hread "2aFf7").2 s hs).2⟩
  · obtain ⟨n₀, hbegin, hrun⟩ : ∃ n₀,
        Night.begin {} [Disk.plain "alpha" "/home" 10 default] default 0 = .ok n₀ ∧
        Leads (prepareAll {}) n₀ (fun _ n => n.hosts.length = 1 ∧
          Leads (Turn.ask 0).act n (fun _ m => m.hosts.length = 1) never) never :=
      ⟨_, rfl, by decide +kernel⟩
    obtain ⟨_, n, hprepare, hhosts, hrun⟩ := hrun.exists_ok
    obtain ⟨_, m, hask, hm⟩ := hrun.exists_ok
    have hdue : (Talks.begin n).Allows (.ask 0) := by simp [Talks.Allows, Talks.begin, hhosts]
    have hreached := Reached.begin.turn hdue hask
    obtain ⟨hfeatures, hends⟩ := hannounced m 0 ["maxdumps=1"] ⟨[0x20]⟩
      "OPTIONS maxdumps=1;features=20;\r\n" (by omega) (by decide +kernel) (by decide +kernel)
    obtain ⟨k, hk⟩ := hends _ _ _ _ _ _ _ _ hbegin hprepare hreached
    exact ⟨n₀, n, m, _, k, hbegin, hprepare, hreached, hk, hfeatures.ok hk⟩

end NightlyBackup
