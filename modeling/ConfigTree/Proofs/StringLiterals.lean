import ConfigTree.Json.Writer
import ConfigTree.Proofs.Grammar
/-!
# String literals read back

What is written for a string is a text of the grammar for this string: the quotation mark, the
backslash and the control characters are escaped, and all others stand for themselves. A literal
ends at the first quotation mark that no escape covers, so it tells its string, and where it ends,
whatever comes after it.
-/

namespace ConfigTree.Json

/-- Two digits tell a number below 256. -/
theorem isQuad_hexDigits {n : Nat} (h : n < 256) :
    IsQuad n ['0', '0', Text.hexDigit (n / 16), Text.hexDigit (n % 16)] := by
  have hzero : Text.hexValue? '0'.toNat = some 0 := by decide
  have hhigh := Text.hexValue?_hexDigit (n / 16) (Nat.div_lt_of_lt_mul h)
  have hlow := Text.hexValue?_hexDigit (n % 16) (Nat.mod_lt n (by decide))
  have hn : n / 16 * 16 + n % 16 = n := Nat.div_add_mod' n 16
  have hread : Reader.hexQuad ['0', '0', Text.hexDigit (n / 16), Text.hexDigit (n % 16)] =
      .ok (n, []) := by
    simp only [Reader.hexQuad, hzero, hhigh, hlow, Nat.zero_mul, Nat.zero_add, hn]
  obtain ⟨quad, hquad, h⟩ := Reader.hexQuad_eq_ok_iff.mp hread
  rw [hquad, List.append_nil]
  exact h

theorem spellsChar_escapeChar (c : Char) : SpellsChar c (escapeChar c) := by
  by_cases hmem : c ∈ ['"', '\\', '\x08', '\x0c', '\n', '\r', '\t']
  · simp only [List.mem_cons, List.not_mem_nil, or_false] at hmem
    rcases hmem with rfl | rfl | rfl | rfl | rfl | rfl | rfl <;> exact .escape (.letter (by decide))
  simp only [List.mem_cons, List.not_mem_nil, or_false, not_or] at hmem
  obtain ⟨hquote, hslash, hb, hf, hn, hr, ht⟩ := hmem
  unfold escapeChar
  rw [if_neg hquote, if_neg hslash, if_neg hb, if_neg hf, if_neg hn, if_neg hr, if_neg ht]
  split
  · next hlow => exact .escape (.units (.one (isQuad_hexDigits (by omega))))
  · next hlow => exact .plain hquote hslash (Nat.le_of_not_lt hlow)

theorem spellsChars_flatMap (cs : List Char) : SpellsChars cs (cs.flatMap escapeChar) := by
  induction cs with
  | nil => exact .nil
  | cons c cs ih => exact .cons (spellsChar_escapeChar c) ih

theorem exists_spellsString (s : String) (rest : List Char) :
    ∃ cs, quoteChars s rest = cs ++ rest ∧ SpellsString s cs :=
  ⟨_, by simp [quoteChars], .quoted (spellsChars_flatMap s.toList)⟩

/-- A literal is read after its opening mark. -/
theorem Reader.stringBody_flatMap (s : String) (rest : List Char) :
    stringBody (s.toList.flatMap escapeChar ++ '"' :: rest) = .ok (s, rest) :=
  stringBody_eq_ok_iff.mpr ⟨_, rfl, spellsChars_flatMap s.toList⟩

/-- A literal in front of any text tells its string and that text. -/
theorem quoteChars_inj {s s' : String} {rest rest' : List Char}
    (h : quoteChars s rest = quoteChars s' rest') : s = s' ∧ rest = rest' := by
  have hbody := congrArg Reader.stringBody (List.cons.inj h).2
  rw [Reader.stringBody_flatMap, Reader.stringBody_flatMap] at hbody
  exact Prod.mk.inj (Except.ok.inj hbody)

end ConfigTree.Json
