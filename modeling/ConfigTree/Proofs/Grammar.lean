import ConfigTree.Proofs.HexTexts
import ConfigTree.Proofs.ValueTexts
/-!
# The grammar of JSON texts

Which texts spell a value (`Json.SpelledBy`), said of the texts and not of how they are read. Spaces
may stand between any two parts of a text, and a character of a string may be spelled in several
ways. Only numbers are spelled as they are read.

What a reader takes off the front of a text is a text of the grammar, and any text of the grammar
is taken off, whatever follows it (`Reader.text_eq_ok_iff`, `Reader.nextKey_eq_some_iff` and the
lemmas before them).
-/

namespace ConfigTree.Json

/-- Nothing but spaces, tabs, line feeds and carriage returns. -/
def Spaces (cs : List Char) : Prop := ∀ c ∈ cs, c ∈ [' ', '\t', '\n', '\r']

/-- What stands before an item: a comma, unless it is the first. -/
inductive Gap : (first : Bool) → List Char → Prop
  | first {before} : Spaces before → Gap true before
  | comma {before after} : Spaces before → Spaces after → Gap false (before ++ ',' :: after)

theorem Spaces.append {cs rest : List Char} (h : Spaces cs) (hrest : Spaces rest) :
    Spaces (cs ++ rest) :=
  List.forall_mem_append.mpr ⟨h, hrest⟩

/-- Spaces belong to the gap before them. -/
theorem Gap.append {first : Bool} {gap spaces : List Char} (h : Gap first gap)
    (hspaces : Spaces spaces) : Gap first (gap ++ spaces) := by
  cases h with
  | first hbefore => exact .first (hbefore.append hspaces)
  | comma hbefore hafter =>
    rw [List.append_assoc, List.cons_append]
    exact .comma hbefore (hafter.append hspaces)

/-- The four digits of base 16, of either case, for a number below `2 ^ 16`. -/
def IsQuad (n : Nat) (cs : List Char) : Prop :=
  n < 0x10000 ∧ cs.map Char.toLower =
    [Text.hexDigit (n / 0x1000), Text.hexDigit (n / 0x100 % 16), Text.hexDigit (n / 16 % 16),
      Text.hexDigit (n % 16)]

/-- A character by its number, if it is below U+10000, or else by two numbers: one for the upper
ten bits of what exceeds this bound, one for the lower ten. -/
inductive Units (c : Char) : List Char → Prop
  | one {quad} : IsQuad c.toNat quad → Units c quad
  | two {high low} : 0x10000 ≤ c.toNat → IsQuad (0xd800 + (c.toNat - 0x10000) / 0x400) high →
      IsQuad (0xdc00 + (c.toNat - 0x10000) % 0x400) low → Units c (high ++ '\\' :: 'u' :: low)

/-- The letters and marks that stand for a character after a backslash. -/
def escapes : List (Char × Char) :=
  [('"', '"'), ('\\', '\\'), ('/', '/'), ('b', '\x08'), ('f', '\x0c'), ('n', '\n'), ('r', '\r'),
    ('t', '\t')]

/-- What may stand after a backslash. -/
inductive Escapes (c : Char) : List Char → Prop
  | letter {e} : (e, c) ∈ escapes → Escapes c [e]
  | units {cs} : Units c cs → Escapes c ('u' :: cs)

/-- A character stands for itself unless it is a quotation mark, a backslash or a control
character; and any character may be escaped. -/
inductive SpellsChar (c : Char) : List Char → Prop
  | plain : c ≠ '"' → c ≠ '\\' → 32 ≤ c.toNat → SpellsChar c [c]
  | escape {cs} : Escapes c cs → SpellsChar c ('\\' :: cs)

inductive SpellsChars : List Char → List Char → Prop
  | nil : SpellsChars [] []
  | cons {c s cs rest} : SpellsChar c cs → SpellsChars s rest → SpellsChars (c :: s) (cs ++ rest)

inductive SpellsString (s : String) : List Char → Prop
  | quoted {cs} : SpellsChars s.toList cs → SpellsString s ('"' :: (cs ++ ['"']))

mutual
/-- A text without spaces around it spells a value. -/
inductive Spells : Json → List Char → Prop
  | null : Spells .null "null".toList
  | true : Spells (.bool true) "true".toList
  | false : Spells (.bool false) "false".toList
  | number {n cs} : Reader.number cs = .ok (n, []) → Spells (.number n) cs
  | string {s cs} : SpellsString s cs → Spells (.string s) cs
  | array {items cs} : SpellsItems true items cs → Spells (.array items) ('[' :: (cs ++ [']']))
  | object {members cs} : SpellsMembers true members cs →
      Spells (.object members) ('\x7b' :: (cs ++ ['\x7d']))

/-- The items of an array, and the spaces after the last one. -/
inductive SpellsItems : (first : Bool) → List Json → List Char → Prop
  | nil {first spaces} : Spaces spaces → SpellsItems first [] spaces
  | cons {first gap v cs items rest} : Gap first gap → Spells v cs →
      SpellsItems false items rest → SpellsItems first (v :: items) (gap ++ (cs ++ rest))

/-- The members of an object, and the spaces after the last one. -/
inductive SpellsMembers : (first : Bool) → List (String × Json) → List Char → Prop
  | nil {first spaces} : Spaces spaces → SpellsMembers first [] spaces
  | cons {first gap k key before after v cs members rest} : Gap first gap → SpellsString k key →
      Spaces before → Spaces after → Spells v cs → SpellsMembers false members rest →
      SpellsMembers first ((k, v) :: members)
        (gap ++ (key ++ (before ++ ':' :: (after ++ (cs ++ rest)))))
end

/-- The whole text spells a value, with nothing but spaces around it. -/
inductive SpelledBy (v : Json) (text : String) : Prop
  | intro {before cs after} : text.toList = before ++ (cs ++ after) → Spaces before → Spells v cs →
      Spaces after → SpelledBy v text

namespace Reader

theorem isSpace_iff {c : Char} : isSpace c = true ↔ c ∈ [' ', '\t', '\n', '\r'] := by
  simp [isSpace, or_assoc]

theorem skipSpace_append {spaces : List Char} (h : Spaces spaces) (cs : List Char) :
    skipSpace (spaces ++ cs) = skipSpace cs :=
  List.dropWhile_append_of_pos fun c hc => isSpace_iff.mpr (h c hc)

theorem exists_spaces (cs : List Char) : ∃ spaces, cs = spaces ++ skipSpace cs ∧ Spaces spaces :=
  ⟨cs.takeWhile isSpace, List.takeWhile_append_dropWhile.symm, fun c hc =>
    isSpace_iff.mp (List.all_eq_true.mp List.all_takeWhile c hc)⟩

theorem skipSpace_eq_nil_iff {cs : List Char} : skipSpace cs = [] ↔ Spaces cs := by
  constructor
  · intro h
    obtain ⟨spaces, hcs, hspaces⟩ := exists_spaces cs
    rw [h, List.append_nil] at hcs
    exact hcs ▸ hspaces
  · intro h
    have hskip := skipSpace_append h []
    rwa [List.append_nil] at hskip

/-- What is left after the spaces begins with another character. -/
theorem skipSpace_eq_cons_iff {cs rest : List Char} {c : Char} (hc : isSpace c = false) :
    skipSpace cs = c :: rest ↔ ∃ spaces, cs = spaces ++ c :: rest ∧ Spaces spaces := by
  constructor
  · intro h
    obtain ⟨spaces, hcs, hspaces⟩ := exists_spaces cs
    exact ⟨spaces, h ▸ hcs, hspaces⟩
  · rintro ⟨spaces, rfl, hspaces⟩
    rw [skipSpace_append hspaces]
    exact List.dropWhile_cons_of_neg (by simp [hc])

theorem isSpace_of_skipSpace {cs rest : List Char} {c : Char} (h : skipSpace cs = c :: rest) :
    isSpace c = false := by
  have hhead := List.head?_dropWhile_not isSpace cs
  rw [skipSpace] at h
  simpa [h] using hhead

theorem exactly_eq_ok_iff {word cs rest : List Char} :
    exactly word cs = .ok rest ↔ cs = word ++ rest := by
  induction word generalizing cs with
  | nil => simp [exactly, eq_comm]
  | cons w word ih =>
    cases cs with
    | nil => simp [exactly]
    | cons c cs =>
      rw [exactly]
      split
      · next h => simp [h, ih]
      · next h => simp [h]

theorem colon_eq_ok_iff {cs rest : List Char} :
    colon cs = .ok rest ↔ ∃ spaces, cs = spaces ++ ':' :: rest ∧ Spaces spaces := by
  rw [← skipSpace_eq_cons_iff rfl, colon]
  split <;> simp_all

theorem closeArray_eq_ok_iff {cs rest : List Char} :
    closeArray cs = .ok rest ↔ ∃ spaces, cs = spaces ++ ']' :: rest ∧ Spaces spaces := by
  rw [← skipSpace_eq_cons_iff rfl, closeArray]
  split <;> simp_all

theorem closeObject_eq_ok_iff {cs rest : List Char} :
    closeObject cs = .ok rest ↔ ∃ spaces, cs = spaces ++ '\x7d' :: rest ∧ Spaces spaces := by
  rw [← skipSpace_eq_cons_iff rfl, closeObject]
  split <;> simp_all

theorem hexQuad_eq_ok_iff {cs rest : List Char} {n : Nat} :
    hexQuad cs = .ok (n, rest) ↔ ∃ quad, cs = quad ++ rest ∧ IsQuad n quad := by
  constructor
  · intro h
    unfold hexQuad at h
    split at h
    · next a b c d tail =>
      split at h
      · next va vb vc vd ha hb hc hd =>
        obtain ⟨ha, hla⟩ := Text.hexValue?_eq_some_iff.mp ha
        obtain ⟨hb, hlb⟩ := Text.hexValue?_eq_some_iff.mp hb
        obtain ⟨hc, hlc⟩ := Text.hexValue?_eq_some_iff.mp hc
        obtain ⟨hd, hld⟩ := Text.hexValue?_eq_some_iff.mp hd
        obtain ⟨rfl, rfl⟩ := Prod.mk.inj (Except.ok.inj h)
        refine ⟨[a, b, c, d], rfl, by omega, ?_⟩
        have h1 : (((va * 16 + vb) * 16 + vc) * 16 + vd) / 0x1000 = va := by omega
        have h2 : (((va * 16 + vb) * 16 + vc) * 16 + vd) / 0x100 % 16 = vb := by omega
        have h3 : (((va * 16 + vb) * 16 + vc) * 16 + vd) / 16 % 16 = vc := by omega
        have h4 : (((va * 16 + vb) * 16 + vc) * 16 + vd) % 16 = vd := by omega
        rw [h1, h2, h3, h4, ← hla, ← hlb, ← hlc, ← hld]
        rfl
      · cases h
    · cases h
  · rintro ⟨quad, rfl, hlt, hdigits⟩
    obtain ⟨a, _, rfl, ha, hdigits⟩ := List.map_eq_cons_iff.mp hdigits
    obtain ⟨b, _, rfl, hb, hdigits⟩ := List.map_eq_cons_iff.mp hdigits
    obtain ⟨c, _, rfl, hc, hdigits⟩ := List.map_eq_cons_iff.mp hdigits
    obtain ⟨d, _, rfl, hd, hdigits⟩ := List.map_eq_cons_iff.mp hdigits
    obtain rfl := List.map_eq_nil_iff.mp hdigits
    have ha := Text.hexValue?_eq_some_iff.mpr ⟨by omega, ha⟩
    have hb := Text.hexValue?_eq_some_iff.mpr ⟨by omega, hb⟩
    have hc := Text.hexValue?_eq_some_iff.mpr ⟨by omega, hc⟩
    have hd := Text.hexValue?_eq_some_iff.mpr ⟨by omega, hd⟩
    have hn : ((n / 0x1000 * 16 + n / 0x100 % 16) * 16 + n / 16 % 16) * 16 + n % 16 = n := by
      omega
    simp only [List.cons_append, List.nil_append, hexQuad, ha, hb, hc, hd, hn]

/-- The two numbers of a character beyond U+FFFF tell it. -/
theorem pair_eq {c : Char} (h : 0x10000 ≤ c.toNat) :
    0x10000 + ((0xd800 + (c.toNat - 0x10000) / 0x400) - 0xd800) * 0x400 +
      ((0xdc00 + (c.toNat - 0x10000) % 0x400) - 0xdc00) = c.toNat := by
  omega

/-- Two numbers of the ranges for such characters make one. -/
theorem units_pair {n m : Nat} {high low : List Char} (hn : 0xd800 ≤ n ∧ n ≤ 0xdbff)
    (hm : 0xdc00 ≤ m ∧ m ≤ 0xdfff) (hhigh : IsQuad n high) (hlow : IsQuad m low) :
    Units (Char.ofNat (0x10000 + (n - 0xd800) * 0x400 + (m - 0xdc00)))
      (high ++ '\\' :: 'u' :: low) := by
  have hvalid : (0x10000 + (n - 0xd800) * 0x400 + (m - 0xdc00)).isValidChar := by
    rw [Nat.isValidChar]
    omega
  have hupper : 0xd800 + (0x10000 + (n - 0xd800) * 0x400 + (m - 0xdc00) - 0x10000) / 0x400 = n := by
    omega
  have hlower : 0xdc00 + (0x10000 + (n - 0xd800) * 0x400 + (m - 0xdc00) - 0x10000) % 0x400 = m := by
    omega
  refine .two ?_ ?_ ?_ <;> rw [Text.toNat_ofNat hvalid]
  · omega
  · rwa [hupper]
  · rwa [hlower]

theorem unicodeEscape_eq_ok_iff {cs rest : List Char} {c : Char} :
    unicodeEscape cs = .ok (c, rest) ↔ ∃ used, cs = used ++ rest ∧ Units c used := by
  simp only [unicodeEscape, bind_eq_ok_iff, Prod.exists, hexQuad_eq_ok_iff]
  constructor
  · rintro ⟨n, _, ⟨high, rfl, hhigh⟩, h⟩
    have hlt := hhigh.1
    split at h
    · cases h
    · split at h
      · -- no half of a pair, so the number is that of a character
        obtain ⟨rfl, rfl⟩ := Prod.mk.inj (Except.ok.inj h)
        have hvalid : n.isValidChar := by
          rw [Nat.isValidChar]
          omega
        exact ⟨high, rfl, .one (by rwa [Text.toNat_ofNat hvalid])⟩
      · simp only [bind_eq_ok_iff, Prod.exists, hexQuad_eq_ok_iff, exactly_eq_ok_iff] at h
        obtain ⟨_, rfl, m, _, ⟨low, rfl, hlow⟩, h⟩ := h
        split at h
        · cases h
        · obtain ⟨rfl, rfl⟩ := Prod.mk.inj (Except.ok.inj h)
          exact ⟨_, by simp, units_pair (by omega) (by omega) hhigh hlow⟩
  · -- the number of a character is in none of the ranges for pairs
    have hvalid : c.toNat.isValidChar := c.valid
    rw [Nat.isValidChar] at hvalid
    rintro ⟨used, rfl, hquad | ⟨hlarge, hhigh, hlow⟩⟩
    · refine ⟨c.toNat, rest, ⟨used, rfl, hquad⟩, ?_⟩
      rw [if_neg (by omega), if_pos (by omega), Char.ofNat_toNat]
    · refine ⟨_, _, ⟨_, List.append_assoc _ _ _, hhigh⟩, ?_⟩
      rw [if_neg (by omega), if_neg (by omega)]
      simp only [bind_eq_ok_iff, Prod.exists, hexQuad_eq_ok_iff, exactly_eq_ok_iff]
      refine ⟨_, rfl, _, _, ⟨_, rfl, hlow⟩, ?_⟩
      rw [if_neg (by omega), pair_eq hlarge, Char.ofNat_toNat]

theorem escaped_eq_ok_iff {cs rest : List Char} {c : Char} :
    escaped cs = .ok (c, rest) ↔ ∃ used, cs = used ++ rest ∧ Escapes c used := by
  constructor
  · intro h
    unfold escaped at h
    split at h
    · cases h
    · next e cs =>
      split at h
      iterate 8
        next =>
          obtain ⟨rfl, rfl⟩ := Prod.mk.inj (Except.ok.inj h)
          exact ⟨[_], rfl, .letter (by simp [escapes])⟩
      · obtain ⟨used, rfl, hunits⟩ := unicodeEscape_eq_ok_iff.mp h
        exact ⟨'u' :: used, rfl, .units hunits⟩
      · cases h
  · rintro ⟨used, rfl, hletter | hunits⟩
    · simp only [escapes, List.mem_cons, Prod.mk.injEq, List.not_mem_nil, or_false] at hletter
      rcases hletter with ⟨rfl, rfl⟩ | ⟨rfl, rfl⟩ | ⟨rfl, rfl⟩ | ⟨rfl, rfl⟩ | ⟨rfl, rfl⟩ |
        ⟨rfl, rfl⟩ | ⟨rfl, rfl⟩ | ⟨rfl, rfl⟩ <;> rfl
    · exact unicodeEscape_eq_ok_iff.mpr ⟨_, rfl, hunits⟩

/-- The characters of a string, as far as the bound allows. -/
theorem stringChars_sound {bound cs s rest : List Char} (h : stringChars bound cs = .ok (s, rest)) :
    ∃ used, cs = used ++ '"' :: rest ∧ SpellsChars s used := by
  -- each character uses up one of the bound
  induction bound generalizing cs s with
  | nil => cases h
  | cons b bound ih =>
    cases cs with
    | nil => cases h
    | cons c cs =>
      rw [stringChars] at h
      split at h
      · next hquote =>
        obtain ⟨rfl, rfl⟩ := Prod.mk.inj (Except.ok.inj h)
        exact ⟨[], by rw [hquote, List.nil_append], .nil⟩
      · next hquote =>
        split at h
        · next hslash =>
          simp only [bind_eq_ok_iff, Prod.exists, escaped_eq_ok_iff] at h
          obtain ⟨d, _, ⟨used, rfl, hd⟩, s, _, hread, h⟩ := h
          obtain ⟨rfl, rfl⟩ := Prod.mk.inj (Except.ok.inj h)
          obtain ⟨more, rfl, hs⟩ := ih hread
          exact ⟨'\\' :: used ++ more, by simp [hslash], .cons (.escape hd) hs⟩
        · next hslash =>
          split at h
          · cases h
          · next hlow =>
            simp only [bind_eq_ok_iff, Prod.exists] at h
            obtain ⟨s, _, hread, h⟩ := h
            obtain ⟨rfl, rfl⟩ := Prod.mk.inj (Except.ok.inj h)
            obtain ⟨more, rfl, hs⟩ := ih hread
            exact ⟨[c] ++ more, rfl, .cons (.plain hquote hslash (Nat.le_of_not_lt hlow)) hs⟩

theorem stringChars_complete {s used : List Char} (h : SpellsChars s used) {bound : List Char}
    (hbound : s.length < bound.length) (rest : List Char) :
    stringChars bound (used ++ '"' :: rest) = .ok (s, rest) := by
  induction h generalizing bound with
  | nil =>
    cases bound with
    | nil => cases hbound
    | cons b bound => rfl
  | @cons c s cs more hc _ ih =>
    cases bound with
    | nil => cases hbound
    | cons b bound =>
      have ih := ih (Nat.lt_of_succ_lt_succ hbound)
      rw [List.append_assoc]
      cases hc with
      | plain hquote hslash hlow =>
        rw [List.singleton_append, stringChars, if_neg hquote, if_neg hslash,
          if_neg (Nat.not_lt.mpr hlow), ih]
        rfl
      | @escape used hc =>
        have hread : escaped (used ++ (more ++ '"' :: rest)) = .ok (c, _) :=
          escaped_eq_ok_iff.mpr ⟨used, rfl, hc⟩
        rw [List.cons_append, stringChars, if_neg (by decide), if_pos rfl, hread]
        show (stringChars bound (more ++ '"' :: rest)).bind _ = _
        rw [ih]
        rfl

end Reader

theorem SpellsChar.length_pos {c : Char} {cs : List Char} (h : SpellsChar c cs) :
    0 < cs.length := by
  cases h <;> exact Nat.succ_pos _

theorem SpellsChars.length_le {s cs : List Char} (h : SpellsChars s cs) : s.length ≤ cs.length := by
  induction h with
  | nil => exact Nat.le_refl 0
  | cons hc _ ih =>
    have hpos := hc.length_pos
    rw [List.length_cons, List.length_append]
    omega

theorem SpellsMembers.length_le {first : Bool} {members : List (String × Json)} {cs : List Char}
    (h : SpellsMembers first members cs) : members.length ≤ cs.length := by
  induction members generalizing first cs with
  | nil => exact Nat.zero_le _
  | cons m members ih =>
    cases h with
    | cons _ _ _ _ _ hrest =>
      have hlength := ih hrest
      simp only [List.length_append, List.length_cons]
      omega

/-- The text of a value begins with what no space and no closing bracket is taken for. -/
theorem Spells.begins {v : Json} {cs : List Char} (h : Spells v cs) (rest : List Char) :
    Begins (cs ++ rest) := by
  cases h with
  | @number n cs h =>
    cases cs with
    | nil => cases h
    | cons c cs =>
      rw [List.cons_append]
      constructor
      · refine Bool.eq_false_iff.mpr fun hspace => ?_
        have hmem := Reader.isSpace_iff.mp hspace
        simp only [List.mem_cons, List.not_mem_nil, or_false] at hmem
        rcases hmem with rfl | rfl | rfl | rfl <;> cases h
      · rintro rfl
        cases h
  | string h =>
    cases h
    exact ⟨rfl, by decide⟩
  | _ => exact ⟨rfl, by decide⟩

namespace Reader

/-- A string after its opening mark. -/
theorem stringBody_eq_ok_iff {cs rest : List Char} {s : String} :
    stringBody cs = .ok (s, rest) ↔ ∃ used, cs = used ++ '"' :: rest ∧ SpellsChars s.toList used := by
  simp only [stringBody, bind_eq_ok_iff, Prod.exists]
  constructor
  · rintro ⟨text, _, hread, h⟩
    obtain ⟨rfl, rfl⟩ := Prod.mk.inj (Except.ok.inj h)
    rw [String.toList_ofList]
    exact stringChars_sound hread
  · rintro ⟨used, rfl, hs⟩
    have hlength := hs.length_le
    refine ⟨s.toList, rest, stringChars_complete hs ?_ rest, by rw [String.ofList_toList]⟩
    rw [List.length_append, List.length_cons]
    omega

theorem text_eq_ok_iff {cs rest : List Char} {s : String} :
    text cs = .ok (s, rest) ↔
      ∃ spaces used, cs = spaces ++ (used ++ rest) ∧ Spaces spaces ∧ SpellsString s used := by
  constructor
  · intro h
    unfold text at h
    split at h
    · cases h
    · next cs hskip =>
      obtain ⟨used, rfl, hs⟩ := stringBody_eq_ok_iff.mp h
      obtain ⟨spaces, rfl, hspaces⟩ := (skipSpace_eq_cons_iff rfl).mp hskip
      exact ⟨spaces, '"' :: (used ++ ['"']), by simp, hspaces, .quoted hs⟩
    · cases h
  · rintro ⟨spaces, _, rfl, hspaces, ⟨hs⟩⟩
    rw [text, skipSpace_append hspaces]
    exact stringBody_eq_ok_iff.mpr ⟨_, by simp, hs⟩

theorem unit_eq_ok_iff {cs rest : List Char} {u : Unit} :
    unit cs = .ok (u, rest) ↔
      ∃ spaces, cs = spaces ++ ("null".toList ++ rest) ∧ Spaces spaces := by
  constructor
  · intro h
    unfold unit at h
    split at h
    · cases h
    · next cs hskip =>
      simp only [bind_eq_ok_iff, exactly_eq_ok_iff] at h
      obtain ⟨_, rfl, h⟩ := h
      obtain ⟨-, rfl⟩ := Prod.mk.inj (Except.ok.inj h)
      exact (skipSpace_eq_cons_iff rfl).mp hskip
    · cases h
  · rintro ⟨spaces, rfl, hspaces⟩
    rw [unit, skipSpace_append hspaces]
    rfl

theorem nextItem_end {spaces : List Char} (h : Spaces spaces) (first : Bool) (rest : List Char) :
    nextItem first (spaces ++ ']' :: rest) = .ok none := by
  rw [nextItem, skipSpace_append h]
  rfl

theorem nextItem_eq_some_iff {first : Bool} {cs rest : List Char} :
    nextItem first cs = .ok (some rest) ↔
      ∃ gap, cs = gap ++ rest ∧ Gap first gap ∧ Begins rest := by
  constructor
  · intro h
    unfold nextItem at h
    split at h
    · cases h
    · cases h
    · next c tail hne hskip =>
      obtain ⟨before, rfl, hbefore⟩ := (skipSpace_eq_cons_iff (isSpace_of_skipSpace hskip)).mp hskip
      split at h
      · next hfirst =>
        obtain rfl := Option.some.inj (Except.ok.inj h)
        exact ⟨before, rfl, hfirst ▸ .first hbefore, isSpace_of_skipSpace hskip, hne⟩
      · next hfirst =>
        rw [Bool.eq_false_iff.mpr hfirst]
        split at h
        · next hcomma =>
          obtain ⟨after, htail, hafter⟩ := exists_spaces tail
          -- no closing bracket may follow the comma
          split at h
          · cases h
          · cases h
          · next hnil hne =>
            obtain rfl := Option.some.inj (Except.ok.inj h)
            refine ⟨before ++ ',' :: after, ?_, .comma hbefore hafter, ?_⟩
            · rw [List.append_assoc, List.cons_append, ← htail, hcomma]
            · cases hrest : skipSpace tail with
              | nil => exact absurd hrest hnil
              | cons d rest =>
                refine ⟨isSpace_of_skipSpace hrest, ?_⟩
                rintro rfl
                exact hne rest hrest
        · cases h
  · rintro ⟨gap, rfl, hgap, hbegins⟩
    have hskip := skipSpace_of_begins hbegins
    cases rest with
    | nil => exact hbegins.elim
    | cons c rest =>
      cases hgap with
      | first hbefore => simp [nextItem, skipSpace_append hbefore, hskip, hbegins.2]
      | @comma before after hbefore hafter =>
        have hcomma : skipSpace (',' :: (after ++ c :: rest)) = ',' :: (after ++ c :: rest) := rfl
        simp [nextItem, skipSpace_append hbefore, hcomma, skipSpace_append hafter, hskip,
          hbegins.2]

theorem nextItem_spells {first : Bool} {gap used : List Char} {v : Json} (hgap : Gap first gap)
    (hv : Spells v used) (rest : List Char) :
    nextItem first (gap ++ (used ++ rest)) = .ok (some (used ++ rest)) :=
  nextItem_eq_some_iff.mpr ⟨gap, rfl, hgap, hv.begins rest⟩

theorem nextKey_end {spaces : List Char} (h : Spaces spaces) (first : Bool) (rest : List Char) :
    nextKey first (spaces ++ '\x7d' :: rest) = .ok none := by
  rw [nextKey, skipSpace_append h]
  rfl

theorem nextKey_eq_some_iff {first : Bool} {cs rest : List Char} :
    nextKey first cs = .ok (some rest) ↔ ∃ gap, cs = gap ++ '"' :: rest ∧ Gap first gap := by
  constructor
  · intro h
    unfold nextKey at h
    split at h
    · cases h
    · cases h
    · next c tail hne hskip =>
      obtain ⟨before, rfl, hbefore⟩ := (skipSpace_eq_cons_iff (isSpace_of_skipSpace hskip)).mp hskip
      split at h
      · next hfirst =>
        split at h
        · next hquote =>
          obtain rfl := Option.some.inj (Except.ok.inj h)
          exact ⟨before, by rw [hquote], hfirst ▸ .first hbefore⟩
        · cases h
      · next hfirst =>
        rw [Bool.eq_false_iff.mpr hfirst]
        split at h
        · next hcomma =>
          split at h
          · cases h
          · next hquote =>
            obtain rfl := Option.some.inj (Except.ok.inj h)
            obtain ⟨after, rfl, hafter⟩ := (skipSpace_eq_cons_iff rfl).mp hquote
            exact ⟨before ++ ',' :: after, by simp [hcomma], .comma hbefore hafter⟩
          · cases h
        · cases h
  · rintro ⟨gap, rfl, hgap⟩
    cases hgap with
    | first hbefore =>
      rw [nextKey, skipSpace_append hbefore]
      rfl
    | @comma before after hbefore hafter =>
      have hcomma : skipSpace (',' :: (after ++ '"' :: rest)) = ',' :: (after ++ '"' :: rest) := rfl
      have hquote : skipSpace ('"' :: rest) = '"' :: rest := rfl
      simp [nextKey, skipSpace_append hbefore, hcomma, skipSpace_append hafter, hquote]

theorem readAll_eq_ok_iff {α : Type} {reader : Reader α} {text : String} {a : α} :
    reader.readAll text = .ok a ↔ ∃ rest, reader text.toList = .ok (a, rest) ∧ Spaces rest := by
  simp only [readAll, bind_eq_ok_iff, Prod.exists]
  constructor
  · rintro ⟨b, rest, hread, h⟩
    split at h
    · next hrest =>
      obtain rfl := Except.ok.inj h
      exact ⟨rest, hread, skipSpace_eq_nil_iff.mp hrest⟩
    · cases h
  · rintro ⟨rest, hread, hrest⟩
    exact ⟨a, rest, hread, if_pos (skipSpace_eq_nil_iff.mpr hrest)⟩

end Reader

end ConfigTree.Json
