import ConfigTree.Json.Writer
import ConfigTree.Proofs.Numerals
/-!
# Where the texts of values begin and end

The text of a value whose numbers are written as numbers begins with a character that is no space
and closes no array, and where an item or a member was written, what stands behind it is another
one or the end of the row. So readers find the items of a row where they were written.
-/

namespace ConfigTree.Json

mutual
/-- The numbers in a value, in the order of its text. -/
def numbers : Json → List Number
  | .number n => [n]
  | .array items => itemNumbers items
  | .object members => memberNumbers members
  | _ => []
termination_by structural v => v

def itemNumbers : List Json → List Number
  | [] => []
  | v :: rest => v.numbers ++ itemNumbers rest

def memberNumbers : List (String × Json) → List Number
  | [] => []
  | (_, v) :: rest => v.numbers ++ memberNumbers rest
end

theorem itemNumbers_eq_flatMap (items : List Json) : itemNumbers items = items.flatMap numbers := by
  induction items with
  | nil => rfl
  | cons v items ih => rw [itemNumbers, ih, List.flatMap_cons]

/-- An integer of 64 bits, with a sign or without. -/
def Number.IsInteger : Number → Prop
  | .int n => -2 ^ 63 ≤ n ∧ n < 2 ^ 64
  | _ => False

instance : (n : Number) → Decidable n.IsInteger
  | .int n => inferInstanceAs (Decidable (-2 ^ 63 ≤ n ∧ n < 2 ^ 64))
  | .double _ => .isFalse id
  | .single _ => .isFalse id

/-- A number that is written with characters of numbers. -/
def Number.Spelled (n : Number) : Prop :=
  n.text.toList ≠ [] ∧ ∀ c ∈ n.text.toList, isNumeral c = true

theorem Number.IsInteger.spelled {n : Number} (h : n.IsInteger) : n.Spelled := by
  cases n with
  | int n => exact ⟨(intText_chars n).1, isNumeral_of_mem_intText⟩
  | double bits => exact h.elim
  | single bits => exact h.elim

/-- Whether a text goes on with a value. -/
def Begins : List Char → Prop
  | [] => False
  | c :: _ => Reader.isSpace c = false ∧ c ≠ ']'

theorem begins_of_numeral {cs : List Char} (hne : cs ≠ []) (hcs : ∀ c ∈ cs, isNumeral c = true)
    (rest : List Char) : Begins (cs ++ rest) := by
  cases cs with
  | nil => exact absurd rfl hne
  | cons c cs =>
    have hc := hcs c List.mem_cons_self
    constructor
    · rw [Reader.isSpace]
      simp only [Bool.or_eq_false_iff, decide_eq_false_iff_not]
      refine ⟨⟨⟨?_, ?_⟩, ?_⟩, ?_⟩ <;> (rintro rfl; exact absurd hc (by decide))
    · rintro rfl
      exact absurd hc (by decide)

theorem begins_quoteChars (s : String) (rest : List Char) : Begins (quoteChars s rest) :=
  ⟨rfl, by decide⟩

theorem begins_compactChars {v : Json} (hv : ∀ n ∈ v.numbers, n.Spelled) (rest : List Char) :
    Begins (v.compactChars rest) := by
  cases v with
  | bool b => cases b <;> exact ⟨rfl, by decide⟩
  | number n =>
    obtain ⟨hne, hchars⟩ := hv n List.mem_cons_self
    exact begins_of_numeral hne hchars rest
  | _ => exact ⟨rfl, by decide⟩

/-- Another item, or the end of the array, stands where an item ends. -/
theorem ends_compactItems (items : List Json) (rest : List Char) :
    Ends (compactItems false items (']' :: rest)) := by
  cases items with
  | nil => exact ends_cons (by decide) rest
  | cons v items => exact ends_cons (by decide) _

theorem ends_compactMembers (members : List (String × Json)) (rest : List Char) :
    Ends (compactMembers false members ('\x7d' :: rest)) := by
  cases members with
  | nil => exact ends_cons (by decide) rest
  | cons m members => exact ends_cons (by decide) _

theorem Begins.length_pos {cs : List Char} (h : Begins cs) : 0 < cs.length := by
  cases cs with
  | nil => exact h.elim
  | cons c cs => exact Nat.succ_pos _

namespace Reader

theorem skipSpace_of_begins {cs : List Char} (h : Begins cs) : skipSpace cs = cs := by
  cases cs with
  | nil => rfl
  | cons c cs => simp [skipSpace, h.1]

theorem nextItem_of_begins {first : Bool} {cs : List Char} (h : Begins cs) :
    nextItem first (separate first cs) = .ok (some cs) := by
  have hskip := skipSpace_of_begins h
  cases cs with
  | nil => exact h.elim
  | cons c cs =>
    cases first with
    | true => simp [separate, nextItem, hskip, h.2]
    | false =>
      have hcomma : skipSpace (',' :: c :: cs) = ',' :: c :: cs := rfl
      simp [separate, nextItem, hcomma, hskip, h.2]

end Reader

theorem le_length_separate (first : Bool) (cs : List Char) :
    cs.length ≤ (separate first cs).length := by
  cases first <;> simp [separate]

end ConfigTree.Json
