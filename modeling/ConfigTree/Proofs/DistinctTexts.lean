import ConfigTree.Proofs.StringLiterals
/-!
# Texts that tell values apart

The first character of a value tells its kind, and the text of a floating-point number holds a
point or an exponent, which an integer does not. So a value without floating-point numbers has a
text that no other value has, with floating-point numbers or without.
-/

namespace ConfigTree

open Json

/-- A numeral with a point or an exponent. -/
def Decimal.IsFractional (cs : List Char) : Prop :=
  (∃ c ∈ cs, c = '.' ∨ c = 'e') ∧ ∀ c ∈ cs, isNumeral c = true

namespace Decimal

variable {digits : List Char} (h : ∀ c ∈ digits, isNumeral c = true)
include h

theorem isFractional_positional (e : Int) : IsFractional (positional digits e) := by
  constructor
  · refine ⟨'.', ?_, .inl rfl⟩
    cases e <;> simp [positional]
  · intro c hc
    cases e with
    | negSucc n =>
      simp only [positional, List.cons_append, List.mem_cons, List.mem_append,
        List.mem_replicate] at hc
      rcases hc with rfl | rfl | ⟨-, rfl⟩ | hc
      · rfl
      · rfl
      · rfl
      · exact h c hc
    | ofNat n =>
      simp only [positional, List.mem_append, List.mem_cons, List.mem_replicate] at hc
      rcases hc with (hc | ⟨-, rfl⟩) | rfl | hc
      · exact h c (List.mem_of_mem_take hc)
      · rfl
      · rfl
      · split at hc
        · rw [List.mem_singleton.mp hc]
          rfl
        · exact h c (List.mem_of_mem_drop hc)

theorem isFractional_scientific (e : Int) : IsFractional (scientific digits e) := by
  constructor
  · exact ⟨'e', by simp [scientific], .inr rfl⟩
  · intro c hc
    simp only [scientific, List.mem_append, List.mem_cons] at hc
    rcases hc with ((hc | hc) | hc) | rfl | rfl | hc
    · exact h c (List.mem_of_mem_take hc)
    · split at hc
      · cases hc
      · rw [List.mem_singleton.mp hc]
        rfl
    · exact h c (List.mem_of_mem_drop hc)
    · rfl
    · split <;> rfl
    · exact isNumeral_of_isDigit (isDigit_of_mem_toDigits c hc)

end Decimal

namespace Decimal

theorem Layout.isFractional_digits (layout : Layout) (d : Digits) :
    IsFractional (layout.digits d).toList := by
  have hdigits : ∀ c ∈ ((Nat.toDigits 10 d.digits).reverse.dropWhile (· = '0')).reverse,
      isNumeral c = true := by
    intro c hc
    have hmem := (List.dropWhile_sublist _).subset (List.mem_reverse.mp hc)
    exact isNumeral_of_isDigit (isDigit_of_mem_toDigits c (List.mem_reverse.mp hmem))
  rw [Layout.digits, String.toList_ofList]
  split
  · exact isFractional_positional hdigits _
  · exact isFractional_scientific hdigits _

theorem IsFractional.minus {cs : List Char} (h : IsFractional cs) : IsFractional ('-' :: cs) := by
  obtain ⟨⟨c, hc, hpoint⟩, hall⟩ := h
  exact ⟨⟨c, List.mem_cons_of_mem _ hc, hpoint⟩, List.forall_mem_cons.mpr ⟨rfl, hall⟩⟩

theorem isFractional_zero : IsFractional "0.0".toList := by
  have hdigits : "0.0".toList = ['0', '.', '0'] := rfl
  rw [hdigits]
  exact ⟨⟨'.', .tail _ (.head _), .inl rfl⟩, List.all_eq_true.mp rfl⟩

/-- Where a floating-point number has a text, the text has a point or an exponent. -/
theorem Layout.isFractional_text {layout : Layout} {f : Format} {bits : Nat} {text : String}
    (h : layout.text? f bits = some text) : IsFractional text.toList := by
  rw [Layout.text?] at h
  split at h
  · next negative m q _ =>
    have hmagnitude : IsFractional
        (if m = 0 then "0.0" else layout.digits (shortest f m q)).toList := by
      split
      · exact isFractional_zero
      · exact layout.isFractional_digits _
    cases h
    rw [String.toList_append]
    cases negative with
    | false => exact hmagnitude
    | true => exact hmagnitude.minus
  · cases h

end Decimal

namespace Json

/-- A number that has a numeral: an integer of 64 bits, or a floating-point number that is neither
infinite nor no number at all. -/
def Number.HasNumeral : Number → Prop
  | .int n => -2 ^ 63 ≤ n ∧ n < 2 ^ 64
  | .double bits => (doubleLayout.text? .double bits.toNat).isSome
  | .single bits => (singleLayout.text? .single bits.toNat).isSome

instance : (n : Number) → Decidable n.HasNumeral
  | .int n => inferInstanceAs (Decidable (-2 ^ 63 ≤ n ∧ n < 2 ^ 64))
  | .double bits =>
    inferInstanceAs (Decidable ((doubleLayout.text? .double bits.toNat).isSome = true))
  | .single bits =>
    inferInstanceAs (Decidable ((singleLayout.text? .single bits.toNat).isSome = true))

theorem Number.IsInteger.hasNumeral {n : Number} (h : n.IsInteger) : n.HasNumeral := by
  cases n with
  | int n => exact h
  | double bits => exact h.elim
  | single bits => exact h.elim

/-- The text of a floating-point number has a point or an exponent, that of an integer has not. -/
theorem Number.HasNumeral.text_cases {n : Number} (h : n.HasNumeral) :
    n.IsInteger ∨ Decimal.IsFractional n.text.toList := by
  cases n with
  | int n => exact .inl h
  | double bits =>
    obtain ⟨text, htext⟩ := Option.isSome_iff_exists.mp h
    rw [Number.text, htext]
    exact .inr (Decimal.Layout.isFractional_text htext)
  | single bits =>
    obtain ⟨text, htext⟩ := Option.isSome_iff_exists.mp h
    rw [Number.text, htext]
    exact .inr (Decimal.Layout.isFractional_text htext)

theorem Number.HasNumeral.spelled {n : Number} (h : n.HasNumeral) : n.Spelled := by
  rcases h.text_cases with hint | ⟨⟨c, hc, -⟩, hall⟩
  · exact hint.spelled
  · exact ⟨List.ne_nil_of_mem hc, hall⟩

/-- An integer of 64 bits has a text of its own. -/
theorem Number.text_inj {n m : Number} (hn : n.IsInteger) (hm : m.HasNumeral)
    (h : n.text = m.text) : n = m := by
  cases n with
  | double bits => exact hn.elim
  | single bits => exact hn.elim
  | int n =>
    rcases hm.text_cases with hint | ⟨⟨c, hc, hpoint⟩, -⟩
    · cases m with
      | double bits => exact hint.elim
      | single bits => exact hint.elim
      | int k =>
        -- both texts are read, and they are one text
        have hread := Reader.number_intText hn
        have hread' := Reader.number_intText hint
        have htext : intText n = intText k := h
        rw [htext, hread'] at hread
        exact (Prod.mk.inj (Except.ok.inj hread)).1.symm
    · rw [← h] at hc
      rcases (intText_chars n).2 c hc with rfl | hd
      · exact absurd hpoint (by decide)
      · rcases hpoint with rfl | rfl <;> exact absurd hd (by decide)

/-- The text of a number is all of its characters in front of where a value may end. -/
theorem Number.Spelled.span_append {n : Number} (hn : n.Spelled) {rest : List Char}
    (hr : Ends rest) : (n.text.toList ++ rest).takeWhile isNumeral = n.text.toList ∧
      (n.text.toList ++ rest).dropWhile isNumeral = rest := by
  obtain ⟨htake, hdrop⟩ := hr.span_append (p := isNumeral) (by decide) n.text.toList
  rw [htake, hdrop, List.takeWhile_eq_self_iff.mpr hn.2, List.dropWhile_eq_nil_iff.mpr hn.2]
  exact ⟨rfl, rfl⟩

/-- The text of a number stands in front of where a value may end. -/
theorem Number.text_append_inj {n m : Number} (hn : n.IsInteger) (hm : m.HasNumeral)
    {rest rest' : List Char} (hr : Ends rest) (hr' : Ends rest')
    (h : n.text.toList ++ rest = m.text.toList ++ rest') : n = m ∧ rest = rest' := by
  obtain ⟨htake, hdrop⟩ := hn.spelled.span_append hr
  obtain ⟨htake', hdrop'⟩ := hm.spelled.span_append hr'
  rw [h] at htake hdrop
  have htext : n.text = m.text := String.toList_inj.mp (htake.symm.trans htake')
  exact ⟨Number.text_inj hn hm htext, hdrop.symm.trans hdrop'⟩

inductive Kind where
  | null
  | bool
  | number
  | string
  | array
  | object

def kind : Json → Kind
  | .null => .null
  | .bool _ => .bool
  | .number _ => .number
  | .string _ => .string
  | .array _ => .array
  | .object _ => .object

/-- The kind of the values that begin with a character. -/
def kindAt : Char → Kind
  | 'n' => .null
  | 't' => .bool
  | 'f' => .bool
  | '"' => .string
  | '[' => .array
  | '\x7b' => .object
  | _ => .number

theorem kindAt_of_isNumeral {c : Char} (h : isNumeral c = true) : kindAt c = .number := by
  unfold kindAt
  split
  iterate 6
    next => exact absurd h (by decide)
  rfl

/-- The first character of a text tells the kind of the value. -/
theorem kindAt_head {v : Json} (hv : ∀ n ∈ v.numbers, n.Spelled) (rest : List Char) :
    (v.compactChars rest).head?.map kindAt = some v.kind := by
  cases v with
  | bool b => cases b <;> rfl
  | number n =>
    obtain ⟨hne, hchars⟩ := hv n List.mem_cons_self
    show ((n.text.toList ++ rest).head?).map kindAt = _
    cases htext : n.text.toList with
    | nil => exact absurd htext hne
    | cons c cs =>
      rw [htext] at hchars
      exact congrArg some (kindAt_of_isNumeral (hchars c List.mem_cons_self))
  | _ => rfl

theorem kind_eq_of_compactChars {v w : Json} (hv : ∀ n ∈ v.numbers, n.Spelled)
    (hw : ∀ n ∈ w.numbers, n.Spelled) {rest rest' : List Char}
    (h : v.compactChars rest = w.compactChars rest') : v.kind = w.kind := by
  have hkind := kindAt_head hv rest
  rw [h, kindAt_head hw rest'] at hkind
  exact (Option.some.inj hkind).symm

/-- A row of items does not begin like its end. -/
theorem Begins.separate_ne {cs : List Char} (h : Begins cs) (first : Bool) (rest : List Char) :
    separate first cs ≠ ']' :: rest := by
  intro he
  cases first with
  | true =>
    cases cs with
    | nil => cases he
    | cons c cs => exact h.2 (List.cons.inj he).1
  | false => exact absurd (List.cons.inj he).1 (by decide)

theorem separate_quoteChars_ne (first : Bool) (s : String) (cs rest : List Char) :
    separate first (quoteChars s cs) ≠ '\x7d' :: rest := by
  intro he
  cases first <;> exact absurd (List.cons.inj he).1 (by decide)

theorem separate_inj {first : Bool} {cs ds : List Char}
    (h : separate first cs = separate first ds) : cs = ds := by
  cases first with
  | true => exact h
  | false => exact (List.cons.inj h).2

mutual
/-- In front of where a value may end, the text of a value with no floating-point numbers tells it
from all values, and tells where the text ends. -/
theorem compactChars_inj : ∀ (v w : Json) (rest rest' : List Char),
    (∀ n ∈ v.numbers, n.IsInteger) → (∀ n ∈ w.numbers, n.HasNumeral) → Ends rest → Ends rest' →
    v.compactChars rest = w.compactChars rest' → v = w ∧ rest = rest'
  | v, w, rest, rest', hv, hw, hr, hr', h => by
    have hkind := kind_eq_of_compactChars (fun n hn => (hv n hn).spelled)
      (fun n hn => (hw n hn).spelled) h
    match v, w, hkind with
    | .null, .null, _ => exact ⟨rfl, List.append_cancel_left h⟩
    | .bool b, .bool c, _ =>
      cases b <;> cases c
      · exact ⟨rfl, List.append_cancel_left h⟩
      · exact absurd (List.cons.inj h).1 (by decide)
      · exact absurd (List.cons.inj h).1 (by decide)
      · exact ⟨rfl, List.append_cancel_left h⟩
    | .number n, .number m, _ =>
      obtain ⟨rfl, hrest⟩ := Number.text_append_inj (hv n List.mem_cons_self)
        (hw m List.mem_cons_self) hr hr' h
      exact ⟨rfl, hrest⟩
    | .string s, .string r, _ =>
      obtain ⟨rfl, hrest⟩ := quoteChars_inj h
      exact ⟨rfl, hrest⟩
    | .array items, .array others, _ =>
      obtain ⟨rfl, hrest⟩ := compactItems_inj items others true rest rest' hv hw (List.cons.inj h).2
      exact ⟨rfl, hrest⟩
    | .object members, .object others, _ =>
      obtain ⟨rfl, hrest⟩ := compactMembers_inj members others true rest rest' hv hw
        (List.cons.inj h).2
      exact ⟨rfl, hrest⟩

theorem compactItems_inj : ∀ (items others : List Json) (first : Bool) (rest rest' : List Char),
    (∀ n ∈ itemNumbers items, n.IsInteger) → (∀ n ∈ itemNumbers others, n.HasNumeral) →
    compactItems first items (']' :: rest) = compactItems first others (']' :: rest') →
    items = others ∧ rest = rest'
  | [], [], _, _, _, _, _, h => ⟨rfl, (List.cons.inj h).2⟩
  | [], w :: others, first, rest, rest', _, hw, h => by
    have hbegins := begins_compactChars (fun n hn => ((List.forall_mem_append.mp hw).1 n hn).spelled)
      (compactItems false others (']' :: rest'))
    exact absurd h.symm (hbegins.separate_ne first rest)
  | v :: items, [], first, rest, rest', hv, _, h => by
    have hbegins := begins_compactChars (fun n hn => ((List.forall_mem_append.mp hv).1 n hn).spelled)
      (compactItems false items (']' :: rest))
    exact absurd h (hbegins.separate_ne first rest')
  | v :: items, w :: others, first, rest, rest', hv, hw, h => by
    obtain ⟨hv, hitems⟩ := List.forall_mem_append.mp hv
    obtain ⟨hw, hothers⟩ := List.forall_mem_append.mp hw
    obtain ⟨rfl, hrow⟩ := compactChars_inj v w _ _ hv hw (ends_compactItems items rest)
      (ends_compactItems others rest') (separate_inj h)
    obtain ⟨rfl, hrest⟩ := compactItems_inj items others false rest rest' hitems hothers hrow
    exact ⟨rfl, hrest⟩

theorem compactMembers_inj : ∀ (members others : List (String × Json)) (first : Bool)
    (rest rest' : List Char), (∀ n ∈ memberNumbers members, n.IsInteger) →
    (∀ n ∈ memberNumbers others, n.HasNumeral) →
    compactMembers first members ('\x7d' :: rest) = compactMembers first others ('\x7d' :: rest') →
    members = others ∧ rest = rest'
  | [], [], _, _, _, _, _, h => ⟨rfl, (List.cons.inj h).2⟩
  | [], (k, w) :: others, first, rest, rest', _, _, h =>
    absurd h.symm (separate_quoteChars_ne first k _ rest)
  | (k, v) :: members, [], first, rest, rest', _, _, h =>
    absurd h (separate_quoteChars_ne first k _ rest')
  | (k, v) :: members, (l, w) :: others, first, rest, rest', hv, hw, h => by
    obtain ⟨rfl, hvalue⟩ := quoteChars_inj (separate_inj h)
    obtain ⟨hv, hmembers⟩ := List.forall_mem_append.mp hv
    obtain ⟨hw, hothers⟩ := List.forall_mem_append.mp hw
    obtain ⟨rfl, hrow⟩ := compactChars_inj v w _ _ hv hw (ends_compactMembers members rest)
      (ends_compactMembers others rest') (List.cons.inj hvalue).2
    obtain ⟨rfl, hrest⟩ := compactMembers_inj members others false rest rest' hmembers hothers hrow
    exact ⟨rfl, hrest⟩
end

/-- A value without floating-point numbers is told by its text. -/
theorem compact_inj {v w : Json} (hv : ∀ n ∈ v.numbers, n.IsInteger)
    (hw : ∀ n ∈ w.numbers, n.HasNumeral) (h : v.compact = w.compact) : v = w :=
  (compactChars_inj v w [] [] hv hw ends_nil ends_nil (String.ofList_injective h)).1

end Json

end ConfigTree
