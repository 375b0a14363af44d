import ConfigTree.Proofs.Parsing
import ConfigTree.Proofs.StringLiterals
/-!
# Written values are read back

What is written for a value, in one line or indented, is a text of the grammar for this value, if
the numbers of the value are integers of 64 bits (`Json.spelledBy_compact`,
`Json.spelledBy_indented`). So both texts are read as the value, and tell it.
-/

namespace ConfigTree.Json

theorem spaces_nil : Spaces [] := nofun

theorem spaces_newLine (depth : Nat) : Spaces (newLine depth []) := by
  intro c hc
  rw [newLine, List.append_nil] at hc
  rcases List.mem_cons.mp hc with rfl | hc
  · decide
  · rw [List.eq_of_mem_replicate hc]
    decide

theorem spaces_blank : Spaces [' '] := List.forall_mem_singleton.mpr List.mem_cons_self

theorem newLine_eq (depth : Nat) (rest : List Char) :
    newLine depth rest = newLine depth [] ++ rest := by simp [newLine]

/-- A row goes on after a comma, and after spaces. -/
theorem exists_gap (first : Bool) {spaces : List Char} (h : Spaces spaces) :
    ∃ gap, Gap first gap ∧ ∀ rest, separate first (spaces ++ rest) = gap ++ rest := by
  cases first with
  | true => exact ⟨spaces, .first h, fun _ => rfl⟩
  | false => exact ⟨[] ++ ',' :: spaces, .comma spaces_nil h, fun _ => rfl⟩

section Rows

variable {v : Json} {spaces cs more : List Char} (hspaces : Spaces spaces) (hv : Spells v cs)

include hspaces hv

/-- An item is written before others after any spaces. -/
theorem SpellsItems.exists_cons {items : List Json} (h : SpellsItems false items more)
    (first : Bool) (rest : List Char) :
    ∃ row, separate first (spaces ++ (cs ++ (more ++ rest))) = row ++ rest ∧
      SpellsItems first (v :: items) row := by
  obtain ⟨gap, hgap, hseparate⟩ := exists_gap first hspaces
  refine ⟨_, ?_, .cons hgap hv h⟩
  rw [hseparate, List.append_assoc, List.append_assoc]

/-- A member is written before others after any spaces, and its value again after spaces. -/
theorem SpellsMembers.exists_cons {members : List (String × Json)} {after : List Char}
    (h : SpellsMembers false members more) (hafter : Spaces after) (first : Bool) (k : String)
    (rest : List Char) :
    ∃ row, separate first
        (spaces ++ quoteChars k (':' :: (after ++ (cs ++ (more ++ rest))))) = row ++ rest ∧
      SpellsMembers first ((k, v) :: members) row := by
  obtain ⟨gap, hgap, hseparate⟩ := exists_gap first hspaces
  obtain ⟨key, hkey, hk⟩ := exists_spellsString k (':' :: (after ++ (cs ++ (more ++ rest))))
  refine ⟨_, ?_, .cons hgap hk spaces_nil hafter hv h⟩
  rw [hseparate, hkey]
  simp

end Rows

theorem Number.IsInteger.spells {n : Number} (h : n.IsInteger) :
    Spells (.number n) n.text.toList := by
  cases n with
  | int n => exact .number (Reader.number_intText h)
  | double bits => exact h.elim
  | single bits => exact h.elim

mutual
/-- The text in one line spells the value. -/
theorem exists_spells_compactChars : ∀ (v : Json) (rest : List Char),
    (∀ n ∈ v.numbers, n.IsInteger) → ∃ cs, v.compactChars rest = cs ++ rest ∧ Spells v cs
  | .null, _, _ => ⟨_, rfl, .null⟩
  | .bool true, _, _ => ⟨_, rfl, .true⟩
  | .bool false, _, _ => ⟨_, rfl, .false⟩
  | .number _, _, hv => ⟨_, rfl, (hv _ List.mem_cons_self).spells⟩
  | .string s, rest, _ => by
    obtain ⟨cs, hcs, hs⟩ := exists_spellsString s rest
    exact ⟨cs, hcs, .string hs⟩
  | .array items, rest, hv => by
    obtain ⟨cs, hcs, hitems⟩ := exists_spells_compactItems items true (']' :: rest) hv
    refine ⟨_, ?_, .array hitems⟩
    show '[' :: compactItems true items (']' :: rest) = _
    rw [hcs]
    simp
  | .object members, rest, hv => by
    obtain ⟨cs, hcs, hmembers⟩ := exists_spells_compactMembers members true ('\x7d' :: rest) hv
    refine ⟨_, ?_, .object hmembers⟩
    show '\x7b' :: compactMembers true members ('\x7d' :: rest) = _
    rw [hcs]
    simp

theorem exists_spells_compactItems : ∀ (items : List Json) (first : Bool) (rest : List Char),
    (∀ n ∈ itemNumbers items, n.IsInteger) →
    ∃ row, compactItems first items rest = row ++ rest ∧ SpellsItems first items row
  | [], _, _, _ => ⟨[], rfl, .nil spaces_nil⟩
  | v :: items, first, rest, hv => by
    obtain ⟨hhead, htail⟩ := List.forall_mem_append.mp hv
    obtain ⟨more, hmore, hitems⟩ := exists_spells_compactItems items false rest htail
    obtain ⟨cs, hcs, hv⟩ := exists_spells_compactChars v (more ++ rest) hhead
    rw [compactItems, hmore, hcs]
    exact hitems.exists_cons spaces_nil hv first rest

theorem exists_spells_compactMembers : ∀ (members : List (String × Json)) (first : Bool)
    (rest : List Char), (∀ n ∈ memberNumbers members, n.IsInteger) →
    ∃ row, compactMembers first members rest = row ++ rest ∧ SpellsMembers first members row
  | [], _, _, _ => ⟨[], rfl, .nil spaces_nil⟩
  | (k, v) :: members, first, rest, hv => by
    obtain ⟨hhead, htail⟩ := List.forall_mem_append.mp hv
    obtain ⟨more, hmore, hmembers⟩ := exists_spells_compactMembers members false rest htail
    obtain ⟨cs, hcs, hv⟩ := exists_spells_compactChars v (more ++ rest) hhead
    rw [compactMembers, hmore, hcs]
    exact hmembers.exists_cons spaces_nil hv spaces_nil first k rest
end

mutual
/-- The text in several lines spells the value. -/
theorem exists_spells_indentedChars : ∀ (v : Json) (depth : Nat) (rest : List Char),
    (∀ n ∈ v.numbers, n.IsInteger) → ∃ cs, indentedChars depth v rest = cs ++ rest ∧ Spells v cs
  | .null, _, _, _ => ⟨_, rfl, .null⟩
  | .bool true, _, _, _ => ⟨_, rfl, .true⟩
  | .bool false, _, _, _ => ⟨_, rfl, .false⟩
  | .number _, _, _, hv => ⟨_, rfl, (hv _ List.mem_cons_self).spells⟩
  | .string s, _, rest, _ => by
    obtain ⟨cs, hcs, hs⟩ := exists_spellsString s rest
    exact ⟨cs, hcs, .string hs⟩
  | .array [], _, _, _ => ⟨_, rfl, .array (.nil spaces_nil)⟩
  | .array (v :: items), depth, rest, hv => by
    obtain ⟨row, hrow, hitems⟩ := exists_spells_indentedItems (v :: items) (depth + 1) true
      (spaces_newLine depth) (']' :: rest) hv
    refine ⟨_, ?_, .array hitems⟩
    show '[' :: indentedItems (depth + 1) true (v :: items) (newLine depth (']' :: rest)) = _
    rw [newLine_eq, hrow]
    simp
  | .object [], _, _, _ => ⟨_, rfl, .object (.nil spaces_nil)⟩
  | .object (m :: members), depth, rest, hv => by
    obtain ⟨row, hrow, hmembers⟩ := exists_spells_indentedMembers (m :: members) (depth + 1) true
      (spaces_newLine depth) ('\x7d' :: rest) hv
    refine ⟨_, ?_, .object hmembers⟩
    show '\x7b' :: indentedMembers (depth + 1) true (m :: members)
      (newLine depth ('\x7d' :: rest)) = _
    rw [newLine_eq, hrow]
    simp

theorem exists_spells_indentedItems : ∀ (items : List Json) (depth : Nat) (first : Bool)
    {spaces : List Char}, Spaces spaces → ∀ rest, (∀ n ∈ itemNumbers items, n.IsInteger) →
    ∃ row, indentedItems depth first items (spaces ++ rest) = row ++ rest ∧
      SpellsItems first items row
  | [], _, _, _, hspaces, _, _ => ⟨_, rfl, .nil hspaces⟩
  | v :: items, depth, first, _, hspaces, rest, hv => by
    obtain ⟨hhead, htail⟩ := List.forall_mem_append.mp hv
    obtain ⟨more, hmore, hitems⟩ := exists_spells_indentedItems items depth false hspaces rest htail
    obtain ⟨cs, hcs, hv⟩ := exists_spells_indentedChars v depth (more ++ rest) hhead
    rw [indentedItems, hmore, hcs, newLine_eq]
    exact hitems.exists_cons (spaces_newLine depth) hv first rest

theorem exists_spells_indentedMembers : ∀ (members : List (String × Json)) (depth : Nat)
    (first : Bool) {spaces : List Char}, Spaces spaces → ∀ rest,
    (∀ n ∈ memberNumbers members, n.IsInteger) →
    ∃ row, indentedMembers depth first members (spaces ++ rest) = row ++ rest ∧
      SpellsMembers first members row
  | [], _, _, _, hspaces, _, _ => ⟨_, rfl, .nil hspaces⟩
  | (k, v) :: members, depth, first, _, hspaces, rest, hv => by
    obtain ⟨hhead, htail⟩ := List.forall_mem_append.mp hv
    obtain ⟨more, hmore, hmembers⟩ :=
      exists_spells_indentedMembers members depth false hspaces rest htail
    obtain ⟨cs, hcs, hv⟩ := exists_spells_indentedChars v depth (more ++ rest) hhead
    rw [indentedMembers, hmore, hcs, newLine_eq]
    exact hmembers.exists_cons (spaces_newLine depth) hv spaces_blank first k rest
end

section Texts

variable {v : Json} (hv : ∀ n ∈ v.numbers, n.IsInteger)

include hv

theorem spelledBy_compact : SpelledBy v v.compact := by
  obtain ⟨cs, hcs, hspells⟩ := exists_spells_compactChars v [] hv
  refine ⟨?_, spaces_nil, hspells, spaces_nil⟩
  rw [compact, String.toList_ofList, hcs, List.nil_append]

theorem spelledBy_indented : SpelledBy v v.indented := by
  obtain ⟨cs, hcs, hspells⟩ := exists_spells_indentedChars v 0 [] hv
  refine ⟨?_, spaces_nil, hspells, spaces_nil⟩
  rw [indented, String.toList_ofList, hcs, List.nil_append]

/-- The text of a value whose numbers are integers of 64 bits is JSON, and tells the value. -/
theorem parse_compact : parse v.compact = .ok v := parse_of_spelledBy (spelledBy_compact hv)

end Texts

/-- Spaces behind a text change nothing. -/
theorem SpelledBy.append {v : Json} {text spaces : String} (h : SpelledBy v text)
    (hspaces : Spaces spaces.toList) : SpelledBy v (text ++ spaces) := by
  obtain ⟨htext, hbefore, hv, hafter⟩ := h
  refine ⟨?_, hbefore, hv, hafter.append hspaces⟩
  rw [String.toList_append, htext]
  simp

end ConfigTree.Json
