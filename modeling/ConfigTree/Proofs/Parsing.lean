import ConfigTree.Proofs.Grammar
/-!
# Texts of the grammar are read

Every text that spells a value is read as that value (`Json.parse_of_spelledBy`), with whatever
spaces it has between its parts. In front of where a value may end, the text of a value is taken off
and no more than it. The number of steps is bounded by the length of the text, since each step uses
up a character.
-/

namespace ConfigTree.Json

theorem Spaces.ends {spaces rest : List Char} (h : Spaces spaces) (hr : Ends rest) :
    Ends (spaces ++ rest) := by
  cases spaces with
  | nil => exact hr
  | cons c spaces =>
    have hc : c ∈ [' ', '\t', '\n', '\r'] := h c List.mem_cons_self
    exact ends_cons (List.mem_append_right [',', ']', '\x7d'] hc) _

theorem Gap.ends {gap : List Char} (h : Gap false gap) (rest : List Char) :
    Ends (gap ++ rest) := by
  obtain ⟨⟩ | ⟨hbefore, -⟩ := h
  rw [List.append_assoc]
  exact hbefore.ends (ends_cons (by decide) _)

/-- Another item, or the end of the array, stands where an item ends. -/
theorem SpellsItems.ends {items : List Json} {cs : List Char} (h : SpellsItems false items cs)
    (rest : List Char) : Ends (cs ++ ']' :: rest) := by
  cases h with
  | nil hspaces => exact hspaces.ends (ends_cons (by decide) rest)
  | cons hgap _ _ =>
    rw [List.append_assoc]
    exact hgap.ends _

theorem SpellsMembers.ends {members : List (String × Json)} {cs : List Char}
    (h : SpellsMembers false members cs) (rest : List Char) : Ends (cs ++ '\x7d' :: rest) := by
  cases h with
  | nil hspaces => exact hspaces.ends (ends_cons (by decide) rest)
  | cons hgap _ _ _ _ _ =>
    rw [List.append_assoc]
    exact hgap.ends _

theorem Spells.length_pos {v : Json} {cs : List Char} (h : Spells v cs) : 0 < cs.length := by
  have hpos := (h.begins []).length_pos
  rwa [List.append_nil] at hpos

namespace Reader

/-- A number begins with a minus sign or a digit. -/
theorem head_of_number {n : Number} {cs left : List Char} (h : number cs = .ok (n, left)) :
    ∃ c tail, cs = c :: tail ∧ (c = '-' ∨ c.isDigit = true) := by
  cases cs with
  | nil => cases h
  | cons c tail =>
    refine ⟨c, tail, rfl, ?_⟩
    by_cases hminus : c = '-'
    · exact .inl hminus
    by_cases hzero : c = '0'
    · exact .inr (hzero ▸ rfl)
    rw [number_of_ne hminus, unsigned_of_ne_zero hzero] at h
    refine .inr (Decidable.byContradiction fun hdigit => ?_)
    rw [List.takeWhile_cons_of_neg hdigit] at h
    cases h

/-- What begins like a number is read as one. -/
theorem valueWithin_of_numeral {c : Char} (hc : c = '-' ∨ c.isDigit = true) (bound : Nat)
    (cs : List Char) :
    valueWithin (bound + 1) (c :: cs) = (do
      let (n, rest) ← number (c :: cs)
      .ok (.number n, rest)) := by
  have hspace : skipSpace (c :: cs) = c :: cs := by
    refine skipSpace_of_begins (begins_of_numeral (List.cons_ne_nil c []) ?_ cs)
    intro d hd
    rw [List.mem_singleton.mp hd]
    rcases hc with rfl | hc
    · rfl
    · exact isNumeral_of_isDigit hc
  rw [valueWithin, hspace]
  dsimp only
  split
  iterate 6
    next => exact absurd hc (by decide)
  rw [if_pos hc]

theorem valueWithin_spaces {spaces : List Char} (h : Spaces spaces) (bound : Nat)
    (cs : List Char) : valueWithin bound (spaces ++ cs) = valueWithin bound cs := by
  cases bound with
  | zero => rfl
  | succ bound => rw [valueWithin, valueWithin, skipSpace_append h]

mutual
/-- The text of a value is taken off what follows it. -/
theorem valueWithin_of_spells : ∀ (bound : Nat) {v : Json} {cs rest : List Char}, Spells v cs →
    Ends rest → cs.length ≤ bound → valueWithin bound (cs ++ rest) = .ok (v, rest)
  | 0, _, _, _, h, _, hb => absurd h.length_pos (Nat.not_lt.mpr hb)
  | bound + 1, v, cs, rest, h, hr, hb => by
    cases h with
    | null => rfl
    | true => rfl
    | false => rfl
    | number h =>
      have hread := number_append h hr
      obtain ⟨c, tail, rfl, hc⟩ := head_of_number h
      rw [List.cons_append, valueWithin_of_numeral hc, ← List.cons_append, hread]
      rfl
    | string h =>
      obtain ⟨hs⟩ := h
      exact bind_eq_ok_iff.mpr ⟨_, stringBody_eq_ok_iff.mpr ⟨_, by simp, hs⟩, rfl⟩
    | @array items cs h =>
      simp only [List.length_cons, List.length_append, List.length_nil] at hb
      obtain ⟨close, hread, hclose⟩ := itemsWithin_of_spells bound h (by omega) rest
      rw [List.cons_append, List.append_assoc, List.singleton_append]
      exact bind_eq_ok_iff.mpr ⟨_, hread, bind_eq_ok_iff.mpr ⟨_, hclose, rfl⟩⟩
    | @object members cs h =>
      simp only [List.length_cons, List.length_append, List.length_nil] at hb
      obtain ⟨close, hread, hclose⟩ := membersWithin_of_spells bound h (by omega) rest
      rw [List.cons_append, List.append_assoc, List.singleton_append]
      exact bind_eq_ok_iff.mpr ⟨_, hread, bind_eq_ok_iff.mpr ⟨_, hclose, rfl⟩⟩

theorem itemsWithin_of_spells : ∀ (bound : Nat) {first : Bool} {items : List Json}
    {cs : List Char}, SpellsItems first items cs → cs.length < bound → ∀ rest,
    ∃ close, itemsWithin bound first (cs ++ ']' :: rest) = .ok (items, close) ∧
      closeArray close = .ok rest
  | 0, _, _, _, _, hb, _ => absurd hb (Nat.not_lt_zero _)
  | bound + 1, first, items, cs, h, hb, rest => by
    cases h with
    | nil hspaces =>
      refine ⟨_, bind_eq_ok_iff.mpr ⟨none, nextItem_end hspaces first rest, rfl⟩, ?_⟩
      exact closeArray_eq_ok_iff.mpr ⟨_, rfl, hspaces⟩
    | @cons _ gap v used items more hgap hv hitems =>
      have hpos := hv.length_pos
      simp only [List.length_append] at hb
      obtain ⟨close, hread, hclose⟩ := itemsWithin_of_spells bound hitems (by omega) rest
      refine ⟨close, ?_, hclose⟩
      simp only [List.append_assoc]
      refine bind_eq_ok_iff.mpr ⟨_, nextItem_spells hgap hv _, ?_⟩
      have hvalue := valueWithin_of_spells bound hv (hitems.ends rest) (by omega)
      refine bind_eq_ok_iff.mpr ⟨_, hvalue, ?_⟩
      exact bind_eq_ok_iff.mpr ⟨_, hread, rfl⟩

theorem membersWithin_of_spells : ∀ (bound : Nat) {first : Bool} {members : List (String × Json)}
    {cs : List Char}, SpellsMembers first members cs → cs.length < bound → ∀ rest,
    ∃ close, membersWithin bound first (cs ++ '\x7d' :: rest) = .ok (members, close) ∧
      closeObject close = .ok rest
  | 0, _, _, _, _, hb, _ => absurd hb (Nat.not_lt_zero _)
  | bound + 1, first, members, cs, h, hb, rest => by
    cases h with
    | nil hspaces =>
      refine ⟨_, bind_eq_ok_iff.mpr ⟨none, nextKey_end hspaces first rest, rfl⟩, ?_⟩
      exact closeObject_eq_ok_iff.mpr ⟨_, rfl, hspaces⟩
    | @cons _ gap k key before after v used members more hgap hkey hbefore hafter hv hmembers =>
      simp only [List.length_append, List.length_cons] at hb
      obtain ⟨close, hread, hclose⟩ := membersWithin_of_spells bound hmembers (by omega) rest
      obtain ⟨hs⟩ := hkey
      refine ⟨close, ?_, hclose⟩
      simp only [List.append_assoc, List.cons_append, List.nil_append]
      refine bind_eq_ok_iff.mpr ⟨_, nextKey_eq_some_iff.mpr ⟨_, rfl, hgap⟩, ?_⟩
      refine bind_eq_ok_iff.mpr ⟨_, stringBody_eq_ok_iff.mpr ⟨_, rfl, hs⟩, ?_⟩
      refine bind_eq_ok_iff.mpr ⟨_, colon_eq_ok_iff.mpr ⟨_, rfl, hbefore⟩, ?_⟩
      refine bind_eq_ok_iff.mpr ⟨(v, more ++ '\x7d' :: rest), ?_, ?_⟩
      · rw [valueWithin_spaces hafter]
        exact valueWithin_of_spells bound hv (hmembers.ends rest) (by omega)
      · exact bind_eq_ok_iff.mpr ⟨_, hread, rfl⟩
end

end Reader

/-- The value that a text spells is read from the text. -/
theorem parse_of_spelledBy {v : Json} {text : String} (h : SpelledBy v text) :
    parse text = .ok v := by
  obtain ⟨htext, hbefore, hv, hafter⟩ := h
  refine Reader.readAll_eq_ok_iff.mpr ⟨_, ?_, hafter⟩
  rw [Reader.value, htext, Reader.valueWithin_spaces hbefore]
  refine Reader.valueWithin_of_spells _ hv ?_ ?_
  · have hends := hafter.ends ends_nil
    rwa [List.append_nil] at hends
  · simp only [List.length_append]
    omega

end ConfigTree.Json
