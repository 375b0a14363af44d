import ConfigTree.Hash.Hex
import ConfigTree.Proofs.ByteOrder
/-!
# Which texts are hashes in base 16

Digits of either case are read, and written in lower case, so that a text that is read is written
again in lower case (`Bytes.ofHexDigits_eq_ok_iff`). A text is looked at byte by byte: of what is
refused, an odd number of bytes counts first, then the first byte that is no digit
(`Bytes.FirstStray`), then the number of digits (`Hash.Misspelt`).
-/

namespace ConfigTree

namespace Text

theorem toNat_ofNat {code : Nat} (h : code.isValidChar) : (Char.ofNat code).toNat = code := by
  rw [Char.ofNat, dif_pos h]
  rfl

theorem toList_toLower (s : String) : s.toLower.toList = s.toList.map Char.toLower :=
  String.toList_map

/-- The code of a digit of base 16, of either case. -/
def IsHexDigit (code : Nat) : Prop := code ∈ "0123456789abcdefABCDEF".toList.map Char.toNat

instance (code : Nat) : Decidable (IsHexDigit code) :=
  inferInstanceAs (Decidable (code ∈ "0123456789abcdefABCDEF".toList.map Char.toNat))

theorem lt_of_hexValue? {code v : Nat} (h : hexValue? code = some v) : code < 128 := by
  unfold hexValue? at h
  split at h
  · omega
  · split at h
    · omega
    · split at h
      · omega
      · cases h

theorem isHexDigit_iff {code : Nat} : IsHexDigit code ↔ ∃ v, hexValue? code = some v := by
  constructor
  · have hall : ∀ code ∈ "0123456789abcdefABCDEF".toList.map Char.toNat,
        (hexValue? code).isSome := by decide
    exact fun h => Option.isSome_iff_exists.mp (hall code h)
  · have hall : ∀ code < 128, (hexValue? code).isSome → IsHexDigit code := by decide
    rintro ⟨v, hv⟩
    exact hall code (lt_of_hexValue? hv) (Option.isSome_iff_exists.mpr ⟨v, hv⟩)

theorem IsHexDigit.lt {code : Nat} (h : IsHexDigit code) : code < 128 :=
  (isHexDigit_iff.mp h).elim fun _ => lt_of_hexValue?

theorem toNat_le_toLower (c : Char) : c.toNat ≤ c.toLower.toNat := by
  unfold Char.toLower
  split
  · next h =>
    have hlow : c.val.toNat ≤ 90 := h.2
    show c.val.toNat ≤ (c.val + ('a'.val - 'A'.val)).toNat
    rw [UInt32.toNat_add]
    show c.val.toNat ≤ (c.val.toNat + 32) % 2 ^ 32
    omega
  · exact Nat.le_refl _

/-- A character has the value of the digit that it is in lower case. -/
theorem hexValue?_eq_some_iff {c : Char} {v : Nat} :
    hexValue? c.toNat = some v ↔ v < 16 ∧ c.toLower = hexDigit v := by
  have hall : ∀ code < 128, ∀ v < 16,
      hexValue? code = some v ↔ (Char.ofNat code).toLower = hexDigit v := by decide
  have hbound : ∀ code < 128, ∀ v ∈ hexValue? code, v < 16 := by decide
  have hlow : ∀ v < 16, (hexDigit v).toNat < 128 := by decide
  constructor
  · intro h
    have hc := lt_of_hexValue? h
    have hv := hbound _ hc v h
    have hlower := (hall _ hc v hv).mp h
    rw [Char.ofNat_toNat] at hlower
    exact ⟨hv, hlower⟩
  · rintro ⟨hv, h⟩
    have hc : c.toNat < 128 := by
      have hle := toNat_le_toLower c
      rw [h] at hle
      exact Nat.lt_of_le_of_lt hle (hlow v hv)
    refine (hall _ hc v hv).mpr ?_
    rw [Char.ofNat_toNat]
    exact h

end Text

namespace Bytes

theorem length_ofString (s : String) : (ofString s).length = s.utf8ByteSize := by
  have hbytes : (ofString s).toByteArray = s.toByteArray := String.utf8Encode_toList
  rw [← List.size_toByteArray, hbytes]
  rfl

/-- A text of ASCII characters has one byte a character. -/
theorem ofString_eq_map {s : String} (h : ∀ c ∈ s.toList, c.toNat < 128) :
    ofString s = s.toList.map fun c => UInt8.ofNat c.toNat := by
  rw [ofString]
  generalize s.toList = cs at h
  induction cs with
  | nil => rfl
  | cons c cs ih =>
    obtain ⟨hc, hcs⟩ := List.forall_mem_cons.mp h
    have hcode := code_cases c.toNat
    have hfollowing : following c.toNat = 0 := by omega
    have hlead : lead c.toNat = c.toNat := by omega
    rw [List.flatMap_cons, List.map_cons, ih hcs, utf8EncodeChar_eq, hfollowing, hlead]
    rfl

/-- The first byte of a character is an ASCII code only if the character is ASCII. -/
theorem toNat_lt_of_mem_ofString {s : String} (h : ∀ b ∈ ofString s, b.toNat < 128) :
    ∀ c ∈ s.toList, c.toNat < 128 := by
  intro c hc
  have hmem : UInt8.ofNat (lead c.toNat) ∈ ofString s :=
    List.mem_flatMap.mpr ⟨c, hc, utf8EncodeChar_eq c ▸ List.mem_cons_self⟩
  have hlead := h _ hmem
  rw [UInt8.toNat_ofNat_of_lt' (lead_lt (code_lt c))] at hlead
  have hcode := code_cases c.toNat
  omega

/-- The digits among the bytes of a text are those among its characters. -/
theorem forall_isHexDigit_ofString_iff {s : String} :
    (∀ b ∈ ofString s, Text.IsHexDigit b.toNat) ↔ ∀ c ∈ s.toList, Text.IsHexDigit c.toNat := by
  have hascii : (∀ c ∈ s.toList, c.toNat < 128) →
      ((∀ b ∈ ofString s, Text.IsHexDigit b.toNat) ↔
        ∀ c ∈ s.toList, Text.IsHexDigit c.toNat) := by
    intro h
    rw [ofString_eq_map h, List.forall_mem_map]
    refine forall₂_congr fun c hc => ?_
    have hlt := h c hc
    rw [UInt8.toNat_ofNat_of_lt' (by show c.toNat < 256; omega)]
  constructor
  · intro h
    exact (hascii (toNat_lt_of_mem_ofString fun b hb => (h b hb).lt)).mp h
  · intro h
    exact (hascii fun c hc => (h c hc).lt).mpr h

/-- The byte with this index is no digit, and all bytes before it are digits. -/
def FirstStray (digits : Bytes) (byte : UInt8) (index : Nat) : Prop :=
  ∃ before after, digits = before ++ byte :: after ∧ before.length = index ∧
    ¬ Text.IsHexDigit byte.toNat ∧ ∀ d ∈ before, Text.IsHexDigit d.toNat

theorem firstStray_cons_iff {d : UInt8} {rest : Bytes} {byte : UInt8} {index : Nat} :
    FirstStray (d :: rest) byte index ↔
      ¬ Text.IsHexDigit d.toNat ∧ byte = d ∧ index = 0 ∨
        Text.IsHexDigit d.toNat ∧ ∃ i, FirstStray rest byte i ∧ index = i + 1 := by
  constructor
  · rintro ⟨before, after, hcut, rfl, hbyte, hbefore⟩
    cases before with
    | nil =>
      obtain ⟨rfl, -⟩ := List.cons.inj hcut
      exact .inl ⟨hbyte, rfl, rfl⟩
    | cons b before =>
      obtain ⟨rfl, rfl⟩ := List.cons.inj hcut
      obtain ⟨hb, hbefore⟩ := List.forall_mem_cons.mp hbefore
      exact .inr ⟨hb, before.length, ⟨before, after, rfl, rfl, hbyte, hbefore⟩, rfl⟩
  · rintro (⟨hd, rfl, rfl⟩ | ⟨hd, i, ⟨before, after, rfl, rfl, hbyte, hbefore⟩, rfl⟩)
    · exact ⟨[], rest, rfl, rfl, hd, nofun⟩
    · exact ⟨d :: before, after, rfl, rfl, hbyte, List.forall_mem_cons.mpr ⟨hd, hbefore⟩⟩

/-- Digits are compared in lower case, in which they are written. -/
def lowerDigits (digits : Bytes) : List Char := digits.map fun d => (Char.ofNat d.toNat).toLower

theorem hexValue?_byte {d : UInt8} {v : Nat} :
    Text.hexValue? d.toNat = some v ↔ v < 16 ∧ (Char.ofNat d.toNat).toLower = Text.hexDigit v := by
  have hvalid : d.toNat.isValidChar := .inl (Nat.lt_trans d.toNat_lt (by decide))
  rw [← Text.hexValue?_eq_some_iff, Text.toNat_ofNat hvalid]

/-- A byte is written with the digits that have its high and its low half as their values. -/
theorem toHexDigits_eq_lowerDigits_iff {bytes rest : Bytes} {high low : UInt8} :
    bytes.toHexDigits = lowerDigits (high :: low :: rest) ↔
      ∃ b bs, bytes = b :: bs ∧ Text.hexValue? high.toNat = some (b.toNat / 16) ∧
        Text.hexValue? low.toNat = some (b.toNat % 16) ∧ toHexDigits bs = lowerDigits rest := by
  cases bytes with
  | nil => exact iff_of_false nofun nofun
  | cons b bs =>
    have hb := b.toNat_lt
    have hhigh : b.toNat / 16 < 16 := by omega
    have hlow : b.toNat % 16 < 16 := by omega
    constructor
    · intro h
      obtain ⟨h₁, h⟩ := List.cons.inj h
      obtain ⟨h₂, h⟩ := List.cons.inj h
      exact ⟨b, bs, rfl, hexValue?_byte.mpr ⟨hhigh, h₁.symm⟩, hexValue?_byte.mpr ⟨hlow, h₂.symm⟩, h⟩
    · rintro ⟨b', bs', he, h₁, h₂, h⟩
      obtain ⟨rfl, rfl⟩ := List.cons.inj he
      rw [toHexDigits, lowerDigits, List.map_cons, List.map_cons, (hexValue?_byte.mp h₁).2,
        (hexValue?_byte.mp h₂).2, h]
      rfl

/-- An even number of bytes is read exactly as the byte string that is written with them, in lower
case. -/
theorem ofHexDigits_eq_ok_iff (index : Nat) {digits bytes : Bytes}
    (heven : digits.length % 2 = 0) :
    ofHexDigits index digits = .ok bytes ↔ bytes.toHexDigits = digits.lowerDigits := by
  fun_induction ofHexDigits index digits generalizing bytes with
  | case1 index high low rest h l hlow hhigh ih =>
    have hrest : rest.length % 2 = 0 := by
      rw [List.length_cons, List.length_cons] at heven
      omega
    have hl := (hexValue?_byte.mp hlow).1
    have hh := (hexValue?_byte.mp hhigh).1
    have hbyte : (16 * h + l).toUInt8.toNat = 16 * h + l :=
      UInt8.toNat_ofNat_of_lt' (by show _ < 256; omega)
    rw [toHexDigits_eq_lowerDigits_iff, hhigh, hlow]
    constructor
    · intro hok
      cases hread : ofHexDigits (index + 2) rest with
      | error e =>
        rw [hread] at hok
        cases hok
      | ok bs =>
        rw [hread] at hok
        cases hok
        refine ⟨_, bs, rfl, congrArg some ?_, congrArg some ?_, (ih hrest).mp hread⟩ <;>
          rw [hbyte] <;> omega
    · rintro ⟨b, bs, rfl, hb₁, hb₂, hbs⟩
      have hb : (16 * h + l).toUInt8 = b := by
        rw [← UInt8.toNat_inj, hbyte, Option.some.inj hb₁, Option.some.inj hb₂]
        omega
      rw [(ih hrest).mpr hbs, hb]
      rfl
  | case2 index high low rest hhigh =>
    rw [toHexDigits_eq_lowerDigits_iff, hhigh]
    exact iff_of_false nofun nofun
  | case3 index high low rest h hlow hhigh =>
    rw [toHexDigits_eq_lowerDigits_iff, hlow]
    exact iff_of_false nofun nofun
  | case4 digits index hshort =>
    cases digits with
    | nil => cases bytes <;> simp [toHexDigits, lowerDigits]
    | cons d rest =>
      cases rest with
      | nil => cases heven
      | cons d' rest => exact absurd rfl (hshort d d' rest)

theorem not_firstStray_nil (byte : UInt8) (index : Nat) : ¬ FirstStray [] byte index := by
  rintro ⟨before, after, hcut, -⟩
  simp at hcut

/-- An even number of bytes is refused for the first of them that is no digit. -/
theorem ofHexDigits_eq_error_iff {index : Nat} {digits : Bytes} {e : HexError}
    (heven : digits.length % 2 = 0) :
    ofHexDigits index digits = .error e ↔
      ∃ byte i, digits.FirstStray byte i ∧ e = .notDigit byte (index + i) := by
  fun_induction ofHexDigits index digits with
  | case1 index high low rest h l hlow hhigh ih =>
    have hrest : rest.length % 2 = 0 := by
      rw [List.length_cons, List.length_cons] at heven
      omega
    have hh : Text.IsHexDigit high.toNat := Text.isHexDigit_iff.mpr ⟨h, hhigh⟩
    have hl : Text.IsHexDigit low.toNat := Text.isHexDigit_iff.mpr ⟨l, hlow⟩
    have hmap : (ofHexDigits (index + 2) rest).map ((16 * h + l).toUInt8 :: ·) = .error e ↔
        ofHexDigits (index + 2) rest = .error e := by
      cases ofHexDigits (index + 2) rest <;> simp [Except.map]
    simp only [hmap, ih hrest, firstStray_cons_iff, hh, hl, not_true_eq_false, false_and, false_or,
      true_and]
    -- two digits stand before the first stray byte of the rest
    constructor
    · rintro ⟨byte, i, hstray, rfl⟩
      exact ⟨byte, i + 2, ⟨i + 1, ⟨i, hstray, rfl⟩, rfl⟩, by rw [Nat.add_assoc, Nat.add_comm 2]⟩
    · rintro ⟨byte, _, ⟨_, ⟨i, hstray, rfl⟩, rfl⟩, rfl⟩
      exact ⟨byte, i, hstray, by rw [Nat.add_assoc index 2, Nat.add_comm 2]⟩
  | case2 index high low rest hhigh =>
    have hh : ¬ Text.IsHexDigit high.toNat := by simp [Text.isHexDigit_iff, hhigh]
    simp only [firstStray_cons_iff, hh, not_false_eq_true, true_and, false_and, or_false,
      and_assoc, exists_and_left, exists_eq_left, Nat.add_zero, Except.error.injEq]
    exact eq_comm
  | case3 index high low rest h hlow hhigh =>
    have hh : Text.IsHexDigit high.toNat := Text.isHexDigit_iff.mpr ⟨h, hhigh⟩
    have hl : ¬ Text.IsHexDigit low.toNat := by simp [Text.isHexDigit_iff, hlow]
    simp only [firstStray_cons_iff, hh, hl, not_true_eq_false, not_false_eq_true, true_and,
      false_and, or_false, false_or, Except.error.injEq]
    constructor
    · rintro rfl
      exact ⟨low, 1, ⟨0, ⟨rfl, rfl⟩, rfl⟩, rfl⟩
    · rintro ⟨_, _, ⟨_, ⟨rfl, rfl⟩, rfl⟩, rfl⟩
      rfl
  | case4 digits index hshort =>
    cases digits with
    | nil => simp [not_firstStray_nil]
    | cons d rest =>
      cases rest with
      | nil => cases heven
      | cons d' rest => exact absurd rfl (hshort d d' rest)

theorem exists_firstStray_iff {digits : Bytes} :
    (∃ byte i, digits.FirstStray byte i) ↔ ¬ ∀ d ∈ digits, Text.IsHexDigit d.toNat := by
  induction digits with
  | nil => simp [not_firstStray_nil]
  | cons d rest ih =>
    rw [List.forall_mem_cons, Classical.not_and_iff_not_or_not]
    by_cases hd : Text.IsHexDigit d.toNat
    · simp only [firstStray_cons_iff, hd, not_true_eq_false, false_and, true_and, false_or, ← ih]
      constructor
      · rintro ⟨byte, _, i, hstray, -⟩
        exact ⟨byte, i, hstray⟩
      · rintro ⟨byte, i, hstray⟩
        exact ⟨byte, i + 1, i, hstray, rfl⟩
    · exact iff_of_true ⟨d, 0, firstStray_cons_iff.mpr (.inl ⟨hd, rfl, rfl⟩)⟩ (.inl hd)

theorem length_toHexDigits (bytes : Bytes) : bytes.toHexDigits.length = 2 * bytes.length := by
  induction bytes with
  | nil => rfl
  | cons b bytes ih =>
    rw [toHexDigits, List.length_cons, List.length_cons, List.length_cons, ih, Nat.mul_succ]

/-- In lower case, a text of digits is what is written for its bytes. -/
theorem lowerDigits_ofString {s : String} (h : ∀ c ∈ s.toList, Text.IsHexDigit c.toNat) :
    (ofString s).lowerDigits = s.toLower.toList := by
  rw [ofString_eq_map fun c hc => (h c hc).lt, lowerDigits, List.map_map, Text.toList_toLower]
  refine List.map_congr_left fun c hc => ?_
  have hbyte : (UInt8.ofNat c.toNat).toNat = c.toNat :=
    UInt8.toNat_ofNat_of_lt' (Nat.lt_trans (h c hc).lt (by decide))
  rw [Function.comp_apply, hbyte, Char.ofNat_toNat]

/-- A text is refused for an odd number of bytes, or else for its first stray byte. -/
theorem ofHex_eq_error_iff {s : String} {e : HexError} :
    ofHex s = .error e ↔ s.utf8ByteSize % 2 = 1 ∧ e = .oddLength ∨
      s.utf8ByteSize % 2 = 0 ∧ ∃ byte i, (ofString s).FirstStray byte i ∧ e = .notDigit byte i := by
  rw [← length_ofString]
  unfold ofHex
  dsimp only
  by_cases hodd : (ofString s).length % 2 = 1
  · have heven : ¬ (ofString s).length % 2 = 0 := by omega
    simp [hodd, eq_comm]
  · have heven : (ofString s).length % 2 = 0 := by omega
    rw [if_neg hodd, ofHexDigits_eq_error_iff heven]
    simp [heven]

/-- A text of digits is read as the byte string that is written as the text is in lower case. -/
theorem ofHex_eq_ok_iff {s : String} {bytes : Bytes} :
    ofHex s = .ok bytes ↔
      (∀ c ∈ s.toList, Text.IsHexDigit c.toNat) ∧ bytes.toHex = s.toLower := by
  have hwritten : (∀ c ∈ s.toList, Text.IsHexDigit c.toNat) →
      (bytes.toHex = s.toLower ↔ bytes.toHexDigits = (ofString s).lowerDigits) := by
    intro h
    rw [lowerDigits_ofString h, toHex, ← String.toList_inj, String.toList_ofList]
  have hread : ∀ heven : (ofString s).length % 2 = 0,
      ofHex s = .ok bytes ↔ bytes.toHexDigits = (ofString s).lowerDigits := by
    intro heven
    rw [← ofHexDigits_eq_ok_iff 0 heven]
    unfold ofHex
    dsimp only
    rw [if_neg (by omega)]
  constructor
  · intro h
    have hodd : ¬ s.utf8ByteSize % 2 = 1 := fun hodd => by
      rw [ofHex_eq_error_iff.mpr (.inl ⟨hodd, rfl⟩)] at h
      cases h
    have heven : s.utf8ByteSize % 2 = 0 := by omega
    have hdigits : ∀ c ∈ s.toList, Text.IsHexDigit c.toNat := by
      rw [← forall_isHexDigit_ofString_iff]
      refine Classical.byContradiction fun hstray => ?_
      obtain ⟨byte, i, hstray⟩ := exists_firstStray_iff.mpr hstray
      rw [ofHex_eq_error_iff.mpr (.inr ⟨heven, byte, i, hstray, rfl⟩)] at h
      cases h
    rw [← length_ofString] at heven
    exact ⟨hdigits, (hwritten hdigits).mpr ((hread heven).mp h)⟩
  · rintro ⟨hdigits, h⟩
    have hwrite := (hwritten hdigits).mp h
    have hlength := congrArg List.length hwrite
    rw [length_toHexDigits, lowerDigits, List.length_map] at hlength
    exact (hread (by omega)).mpr hwrite

theorem exists_ofHex_eq_ok {s : String} (heven : s.utf8ByteSize % 2 = 0)
    (h : ∀ c ∈ s.toList, Text.IsHexDigit c.toNat) : ∃ bytes, ofHex s = .ok bytes := by
  cases hread : ofHex s with
  | ok bytes => exact ⟨bytes, rfl⟩
  | error e =>
    rcases ofHex_eq_error_iff.mp hread with ⟨hodd, -⟩ | ⟨-, byte, i, hstray, -⟩
    · omega
    · exact absurd (forall_isHexDigit_ofString_iff.mpr h) (exists_firstStray_iff.mp ⟨byte, i, hstray⟩)

/-- What is read has a byte for two characters. -/
theorem length_of_ofHex {s : String} {bytes : Bytes} (h : ofHex s = .ok bytes) :
    s.length = 2 * bytes.length := by
  have hwritten := (ofHex_eq_ok_iff.mp h).2
  rw [toHex, ← String.toList_inj, Text.toList_toLower, String.toList_ofList] at hwritten
  have hlength := congrArg List.length hwritten
  rw [length_toHexDigits, List.length_map, String.length_toList] at hlength
  exact hlength.symm

theorem utf8ByteSize_eq_length {s : String} (h : ∀ c ∈ s.toList, Text.IsHexDigit c.toNat) :
    s.utf8ByteSize = s.length := by
  rw [← length_ofString, ofString_eq_map fun c hc => (h c hc).lt, List.length_map,
    String.length_toList]

/-- Bytes are written with digits in lower case. -/
theorem isHexDigit_of_mem_toHexDigits {bytes : Bytes} {c : Char} (h : c ∈ bytes.toHexDigits) :
    Text.IsHexDigit c.toNat ∧ c.toLower = c := by
  have hall : ∀ v < 16, Text.IsHexDigit (Text.hexDigit v).toNat ∧
      (Text.hexDigit v).toLower = Text.hexDigit v := by decide
  induction bytes with
  | nil => cases h
  | cons b bytes ih =>
    have hb := b.toNat_lt
    rcases List.mem_cons.mp h with rfl | h
    · exact hall _ (by omega)
    · rcases List.mem_cons.mp h with rfl | h
      · exact hall _ (by omega)
      · exact ih h

theorem ofHex_toHex (bytes : Bytes) : ofHex bytes.toHex = .ok bytes := by
  refine ofHex_eq_ok_iff.mpr ⟨fun c hc => ?_, ?_⟩
  · rw [toHex, String.toList_ofList] at hc
    exact (isHexDigit_of_mem_toHexDigits hc).1
  · rw [toHex, ← String.toList_inj, Text.toList_toLower, String.toList_ofList]
    have hlower : bytes.toHexDigits.map Char.toLower = bytes.toHexDigits.map id :=
      List.map_congr_left fun c hc => (isHexDigit_of_mem_toHexDigits hc).2
    rw [hlower, List.map_id]

end Bytes

namespace Hash

/-- Why a text is no hash: an odd number of bytes, or else a byte that is no digit, or else a number
of digits other than 64. -/
inductive Misspelt (s : String) : Bytes.HexError → Prop
  | oddLength : s.utf8ByteSize % 2 = 1 → Misspelt s .oddLength
  | notDigit (byte : UInt8) (index : Nat) : s.utf8ByteSize % 2 = 0 →
      (Bytes.ofString s).FirstStray byte index → Misspelt s (.notDigit byte index)
  | wrongLength : s.utf8ByteSize % 2 = 0 → (∀ c ∈ s.toList, Text.IsHexDigit c.toNat) →
      s.length ≠ 64 → Misspelt s .wrongLength

theorem ofHex_eq_ok_iff {s : String} {h : Hash} :
    ofHex s = .ok h ↔ Bytes.ofHex s = .ok h.toBytes := by
  unfold ofHex
  cases Bytes.ofHex s with
  | error e => exact iff_of_false nofun nofun
  | ok bytes =>
    dsimp only [bind, Except.bind, ofBytes?]
    by_cases hlength : bytes.length = 32
    · simp [hlength, Hash.ext_iff]
    · have hne : bytes ≠ h.toBytes := fun he => hlength (he ▸ h.length_toBytes)
      simp [hlength, hne]

theorem ofHex_eq_error_iff {s : String} {e : Bytes.HexError} :
    ofHex s = .error e ↔ Bytes.ofHex s = .error e ∨
      ∃ bytes, Bytes.ofHex s = .ok bytes ∧ bytes.length ≠ 32 ∧ e = .wrongLength := by
  unfold ofHex
  cases Bytes.ofHex s with
  | error e' => simp [bind, Except.bind]
  | ok bytes =>
    dsimp only [bind, Except.bind, ofBytes?]
    by_cases hlength : bytes.length = 32 <;> simp [hlength, eq_comm]

/-- A text is refused for the first of its faults. -/
theorem ofHex_eq_error_iff_misspelt {s : String} {e : Bytes.HexError} :
    ofHex s = .error e ↔ Misspelt s e := by
  rw [ofHex_eq_error_iff]
  constructor
  · rintro (h | ⟨bytes, h, hlength, rfl⟩)
    · rcases Bytes.ofHex_eq_error_iff.mp h with ⟨hodd, rfl⟩ | ⟨heven, byte, i, hstray, rfl⟩
      · exact .oddLength hodd
      · exact .notDigit byte i heven hstray
    · have hdigits := (Bytes.ofHex_eq_ok_iff.mp h).1
      have hsize := Bytes.utf8ByteSize_eq_length hdigits
      have hchars := Bytes.length_of_ofHex h
      exact .wrongLength (by omega) hdigits (by omega)
  · rintro (hodd | ⟨byte, i, heven, hstray⟩ | ⟨heven, hdigits, hlength⟩)
    · exact .inl (Bytes.ofHex_eq_error_iff.mpr (.inl ⟨hodd, rfl⟩))
    · exact .inl (Bytes.ofHex_eq_error_iff.mpr (.inr ⟨heven, byte, i, hstray, rfl⟩))
    · obtain ⟨bytes, h⟩ := Bytes.exists_ofHex_eq_ok heven hdigits
      have hchars := Bytes.length_of_ofHex h
      exact .inr ⟨bytes, h, by omega, rfl⟩

/-- Every hash is read from its text. A text is read exactly if it has 64 digits of either case,
and is then written again in lower case; any other text is refused for its first fault. -/
theorem ofHex_exact :
    (∀ h : Hash, ofHex h.toHex = .ok h) ∧
    ∀ s : String,
      ((∃ h, ofHex s = .ok h) ↔ s.length = 64 ∧ ∀ c ∈ s.toList, Text.IsHexDigit c.toNat) ∧
      (∀ h, ofHex s = .ok h → h.toHex = s.toLower) ∧
      ∀ e, ofHex s = .error e ↔ Misspelt s e := by
  refine ⟨fun h => ofHex_eq_ok_iff.mpr (Bytes.ofHex_toHex _), fun s => ⟨⟨?_, ?_⟩, fun h hread =>
    (Bytes.ofHex_eq_ok_iff.mp (ofHex_eq_ok_iff.mp hread)).2, fun e => ofHex_eq_error_iff_misspelt⟩⟩
  · rintro ⟨h, hread⟩
    have hbytes := ofHex_eq_ok_iff.mp hread
    have hchars := Bytes.length_of_ofHex hbytes
    rw [h.length_toBytes] at hchars
    exact ⟨hchars, (Bytes.ofHex_eq_ok_iff.mp hbytes).1⟩
  · rintro ⟨hlength, hdigits⟩
    have hsize := Bytes.utf8ByteSize_eq_length hdigits
    obtain ⟨bytes, h⟩ := Bytes.exists_ofHex_eq_ok (by omega) hdigits
    have hchars := Bytes.length_of_ofHex h
    exact ⟨⟨bytes, by omega⟩, ofHex_eq_ok_iff.mpr h⟩

/-- A text of digits in both cases is read. Of the texts that are refused, the first has a stray byte
as well, the second ends in a character of two bytes, and the last is only too short. -/
theorem ofHex_exact_at_odd_texts :
    (∃ h, ofHex "E3B0c44298fc1c149afbf4c8996fb92427ae41e4649b934ca495991b7852B855" = .ok h ∧
      h.toHex = "e3b0c44298fc1c149afbf4c8996fb92427ae41e4649b934ca495991b7852b855") ∧
      ofHex "0g1" = .error .oddLength ∧ ofHex "0aé" = .error (.notDigit 0xc3 2) ∧
      ofHex "0A" = .error .wrongLength := by
  obtain ⟨-, hall⟩ := ofHex_exact
  refine ⟨?_, ?_, ?_, ?_⟩
  · let s := "E3B0c44298fc1c149afbf4c8996fb92427ae41e4649b934ca495991b7852B855"
    obtain ⟨hread, hwritten, -⟩ := hall s
    have hcodes : ∀ code ∈ s.toList.map Char.toNat, Text.IsHexDigit code := by decide +kernel
    have hdigits : ∀ c ∈ s.toList, Text.IsHexDigit c.toNat := fun c hc =>
      hcodes _ (List.mem_map_of_mem hc)
    obtain ⟨h, hh⟩ := hread.mpr ⟨by decide +kernel, hdigits⟩
    exact ⟨h, hh, (hwritten h hh).trans (by decide +kernel)⟩
  · exact ((hall _).2.2 _).mpr (.oddLength (by decide))
  · have hbefore : ∀ d ∈ ([0x30, 0x61] : Bytes), Text.IsHexDigit d.toNat :=
      List.forall_mem_cons.mpr ⟨by decide, List.forall_mem_cons.mpr ⟨by decide, nofun⟩⟩
    have hstray : (Bytes.ofString "0aé").FirstStray 0xc3 2 :=
      ⟨[0x30, 0x61], [0xa9], by decide +kernel, rfl, by decide, hbefore⟩
    exact ((hall _).2.2 _).mpr (.notDigit _ _ (by decide) hstray)
  · have hcodes : ∀ code ∈ "0A".toList.map Char.toNat, Text.IsHexDigit code := by decide
    have hdigits : ∀ c ∈ "0A".toList, Text.IsHexDigit c.toNat := fun c hc =>
      hcodes _ (List.mem_map_of_mem hc)
    exact ((hall _).2.2 _).mpr (.wrongLength (by decide) hdigits (by decide))

end Hash

end ConfigTree
