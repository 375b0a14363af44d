import ConfigTree.Hash.Json
import ConfigTree.Path.Json
import ConfigTree.Proofs.Layouts
import ConfigTree.Proofs.SettingsTexts
/-!
# Hashes, paths and settings read back

Hashes, algorithms and paths are read from their texts as what they are, and settings too unless
their name is blank. For algorithms and settings this is a case of which texts are read as them.
For hashes and paths, the reader of a list takes the items off the front one after another.
-/

namespace ConfigTree

namespace Json.Reader

theorem text_compactChars (s : String) (rest : List Char) :
    text ((Json.string s).compactChars rest) = .ok (s, rest) :=
  stringBody_flatMap s rest

/-- A byte is read from its digits. -/
theorem byte_compactChars (b : UInt8) {rest : List Char} (hr : Ends rest) :
    byte ((Json.int b.toNat).compactChars rest) = .ok (b, rest) := by
  have hlt : b.toNat < 256 := b.toNat_lt
  have hread : number ((intText b.toNat).toList ++ rest) = .ok (.int b.toNat, rest) :=
    number_append (number_intText (by omega)) hr
  obtain ⟨hne, hchars⟩ := intText_chars b.toNat
  show byte ((intText b.toNat).toList ++ rest) = _
  have hspace := skipSpace_of_begins (begins_of_numeral hne isNumeral_of_mem_intText rest)
  cases htext : (intText b.toNat).toList with
  | nil => exact absurd htext hne
  | cons c cs =>
    rw [htext] at hread hchars hspace
    rw [List.cons_append] at hread hspace ⊢
    have hrange : 0 ≤ (b.toNat : Int) ∧ (b.toNat : Int) < 256 := by omega
    have hback : (b.toNat : Int).toNat.toUInt8 = b := by simp
    simp only [byte, hspace, if_pos (hchars c List.mem_cons_self), hread, bind, Except.bind,
      if_pos hrange, hback]

/-- Bytes are read one after another, up to the wanted number. -/
theorem bytesExactly_compactItems (wanted : Wanted) (bytes : Bytes) (done : Nat)
    (rest : List Char) :
    bytesExactly wanted bytes.length done
      (compactItems (done = 0) (bytes.map fun b => Json.int b.toNat) (']' :: rest)) =
      .ok (bytes, ']' :: rest) := by
  induction bytes generalizing done with
  | nil => rfl
  | cons b bytes ih =>
    have hbegins : Begins ((Json.int b.toNat).compactChars
        (compactItems false (bytes.map fun b => Json.int b.toNat) (']' :: rest))) :=
      begins_of_numeral (intText_chars b.toNat).1 isNumeral_of_mem_intText _
    rw [List.map_cons, compactItems, List.length_cons, bytesExactly, nextItem_of_begins hbegins]
    show (byte _).bind _ = _
    rw [byte_compactChars b (ends_compactItems _ rest)]
    show (bytesExactly wanted bytes.length (done + 1) (compactItems false _ _)).bind _ = _
    have hnext := ih (done + 1)
    rw [decide_eq_false (Nat.succ_ne_zero done)] at hnext
    rw [hnext]
    rfl

/-- Strings are read one after another, up to the closing bracket. -/
theorem textsWithin_compactItems {bound : Nat} {labels : List String} (h : labels.length < bound)
    (first : Bool) (rest : List Char) :
    textsWithin bound first (compactItems first (labels.map .string) (']' :: rest)) =
      .ok (labels, ']' :: rest) := by
  induction labels generalizing bound first with
  | nil =>
    cases bound with
    | zero => cases h
    | succ bound => rfl
  | cons s labels ih =>
    cases bound with
    | zero => cases h
    | succ bound =>
      have hbegins : Begins ((Json.string s).compactChars
          (compactItems false (labels.map .string) (']' :: rest))) := begins_quoteChars s _
      rw [List.map_cons, compactItems, textsWithin, nextItem_of_begins hbegins]
      show (text ((Json.string s).compactChars _)).bind _ = _
      rw [text_compactChars]
      show (textsWithin bound false (compactItems false _ _)).bind _ = _
      rw [ih (Nat.lt_of_succ_lt_succ h)]
      rfl

/-- Every item has a character at least. -/
theorem length_le_compactItems (labels : List String) (first : Bool) (rest : List Char) :
    labels.length ≤ (compactItems first (labels.map .string) rest).length := by
  induction labels generalizing first with
  | nil => exact Nat.zero_le _
  | cons s labels ih =>
    have hrest := ih false
    have hle := le_length_separate first
      (quoteChars s (compactItems false (labels.map .string) rest))
    have hquote : (quoteChars s (compactItems false (labels.map .string) rest)).length =
        (s.toList.flatMap escapeChar).length +
          (compactItems false (labels.map .string) rest).length + 2 := by
      rw [quoteChars, List.length_cons, List.length_append, List.length_cons]
      omega
    show labels.length + 1 ≤ (separate first (quoteChars s _)).length
    omega

/-- A reader that takes a whole text reads it. -/
theorem readAll_compact {α : Type} {reader : Reader α} {v : Json} {a : α}
    (h : reader (v.compactChars []) = .ok (a, [])) : readAll reader v.compact = .ok a := by
  rw [readAll, compact, String.toList_ofList, h]
  rfl

end Json.Reader

open Json Json.Reader

namespace Hash

theorem reader_compactChars (h : Hash) (rest : List Char) :
    reader (h.toJson.compactChars rest) = .ok (h, rest) := by
  have hbytes := bytesExactly_compactItems .hash h.toBytes 0 rest
  rw [h.length_toBytes] at hbytes
  show (bytesExactly .hash 32 0 (compactItems true _ (']' :: rest))).bind _ = _
  rw [decide_eq_true rfl] at hbytes
  have hread : ofBytes? h.toBytes = some h := dif_pos h.length_toBytes
  rw [hbytes, Except.bind]
  dsimp only
  rw [hread]
  rfl

theorem ofJson_compact (h : Hash) : ofJson h.toJson.compact = .ok h :=
  readAll_compact (reader_compactChars h [])

end Hash

namespace Path

theorem ofJson_compact (p : Path) : ofJson p.toJson.compact = .ok p := by
  refine readAll_compact ?_
  have hlength : p.length < (compactItems true (p.map .string) [']']).length + 1 := by
    have := length_le_compactItems p true [']']
    omega
  show (textsWithin _ true (compactItems true (p.map .string) [']'])).bind _ = _
  rw [textsWithin_compactItems hlength]
  rfl

end Path

theorem Algorithm.ofJson_compact (a : Algorithm) : ofJson a.toJson.compact = .ok a := by
  obtain ⟨htext, hbefore, hv, hafter⟩ := spelledBy_compact (v := a.toJson) nofun
  refine readAll_eq_ok_iff.mpr ⟨_, ?_, hafter⟩
  exact reader_eq_ok_iff.mpr ⟨_, _, _, htext, hbefore, hv, .inl rfl⟩

namespace Settings

theorem givenBy_toJson (s : Settings) : Fields.GivenBy ⟨some s.name, some s.digest⟩ s.toJson :=
  .members {
    known := List.forall_mem_cons.mpr ⟨.inl rfl, List.forall_mem_singleton.mpr (.inr rfl)⟩
    nodup := show ["name", "digest"].Nodup by decide
    name := rfl
    digest := .some (.inl rfl) }

/-- Settings are read from their text, unless their name is blank. -/
theorem ofJson_compact (s : Settings) :
    ofJson s.toJson.compact = s.validate.map fun () => s := by
  have hread : reader.readAll s.toJson.compact = .ok s :=
    readAll_reader_eq_ok_iff.mpr ⟨_, _, spelledBy_compact nofun, s.givenBy_toJson, rfl⟩
  rw [ofJson, hread]
  show s.validate.bind _ = _
  cases s.validate <;> rfl

end Settings

/-- Hashes, paths and algorithms are read from their JSON texts as what they are. So are settings
whose name is accepted; the text of others is refused for the name, and for nothing else. -/
theorem serial_forms_read_back :
    (∀ h : Hash, Hash.ofJson h.toJson.compact = .ok h) ∧
    (∀ p : Path, Path.ofJson p.toJson.compact = .ok p) ∧
    (∀ a : Algorithm, Algorithm.ofJson a.toJson.compact = .ok a) ∧
    ∀ s : Settings,
      (s.validate = .ok () → Settings.ofJson s.toJson.compact = .ok s) ∧
      (s.validate ≠ .ok () → s.validate = .error .blankName ∧
        Settings.ofJson s.toJson.compact = .error .blankName) := by
  refine ⟨Hash.ofJson_compact, Path.ofJson_compact, Algorithm.ofJson_compact, fun s => ?_⟩
  rw [Settings.ofJson_compact]
  unfold Settings.validate
  by_cases hblank : Text.isBlank s.name
  · rw [if_pos hblank]
    exact ⟨(fun h => nomatch h), fun _ => ⟨rfl, rfl⟩⟩
  · rw [if_neg hblank]
    exact ⟨fun _ => rfl, fun h => absurd rfl h⟩

end ConfigTree
