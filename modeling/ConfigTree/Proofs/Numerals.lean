import ConfigTree.Json.Reader
import ConfigTree.Json.Value
import Mathlib.Algebra.Group.Int.Defs
import Mathlib.Algebra.Group.Nat.Defs
import Mathlib.Data.List.TakeWhile
/-!
# Numbers read back

A numeral ends where a value may end: at the end of the text, before a comma, before a closing
bracket or before a space. None of these characters is part of a number, so that a number is read
in front of them as it is read alone (`Reader.number_append`). An integer of at most 64 bits is read
from its digits as what it is.
-/

namespace ConfigTree.Json

/-- The characters that may stand behind a value. -/
def terminators : List Char := [',', ']', '\x7d', ' ', '\t', '\n', '\r']

/-- A value may end in front of the text. -/
def Ends (rest : List Char) : Prop := ∀ c ∈ rest.head?, c ∈ terminators

theorem ends_nil : Ends [] := nofun

theorem ends_cons {c : Char} (hc : c ∈ terminators) (rest : List Char) : Ends (c :: rest) := by
  rintro _ ⟨⟩
  exact hc

section Ends

variable {p : Char → Bool} {rest : List Char} (hp : terminators.any p = false)

include hp

/-- The text does not go on with a character of a kind that may not stand behind a value. -/
theorem Ends.head_not (hr : Ends rest) : ∀ c ∈ rest.head?, p c = false := fun c hc =>
  Bool.eq_false_iff.mpr (List.any_eq_false.mp hp c (hr c hc))

theorem Ends.any_head?_append (hr : Ends rest) (cs : List Char) :
    (cs ++ rest).head?.any p = cs.head?.any p := by
  cases cs with
  | nil =>
    cases rest with
    | nil => rfl
    | cons c rest => exact hr.head_not hp c rfl
  | cons c cs => rfl

/-- A run of characters of which none may stand behind a value does not go on there. -/
theorem Ends.span_append (hr : Ends rest) (cs : List Char) :
    (cs ++ rest).takeWhile p = cs.takeWhile p ∧
      (cs ++ rest).dropWhile p = cs.dropWhile p ++ rest := by
  induction cs with
  | nil =>
    cases rest with
    | nil => exact ⟨rfl, rfl⟩
    | cons c rest => simp [hr.head_not hp c rfl]
  | cons c cs ih => by_cases hc : p c = true <;> simp [hc, ih]

end Ends

/-- The characters of numbers. -/
def isNumeral (c : Char) : Bool := c.isDigit || c = '-' || c = '+' || c = '.' || c = 'e'

theorem isNumeral_of_isDigit {c : Char} (h : c.isDigit = true) : isNumeral c = true := by
  rw [isNumeral, h]
  rfl

theorem isDigit_of_mem_toDigits {n : Nat} : ∀ c ∈ Nat.toDigits 10 n, c.isDigit = true :=
  fun _ hc => Nat.isDigit_of_mem_toDigits (by decide) (by decide) hc

/-- A positive number does not begin with a zero. -/
theorem exists_toDigits_eq_cons {n : Nat} (hn : 0 < n) :
    ∃ c cs, Nat.toDigits 10 n = c :: cs ∧ c ≠ '0' := by
  induction n using Nat.strongRecOn with
  | _ n ih =>
    by_cases hlt : n < 10
    · refine ⟨n.digitChar, [], Nat.toDigits_of_lt_base hlt, fun hz => ?_⟩
      have := Nat.digitChar_eq_zero.mp hz
      omega
    · obtain ⟨c, cs, hcs, hc⟩ := ih (n / 10) (by omega) (by omega)
      refine ⟨c, cs ++ [(n % 10).digitChar], ?_, hc⟩
      rw [Nat.toDigits_of_base_le (by decide) (by omega), hcs]
      rfl

theorem le_ofDigitChars (n : Nat) (digits : List Char) : n ≤ Nat.ofDigitChars 10 digits n := by
  rw [Nat.ofDigitChars_eq_ofDigitChars_zero]
  have hpow : 1 ≤ 10 ^ digits.length := Nat.one_le_pow _ _ (by decide)
  have := Nat.mul_le_mul_right n hpow
  omega

namespace Reader

/-- Digits of a number below `2 ^ 64` are all taken. -/
theorem significand_of_lt {n : Nat} {digits : List Char}
    (h : Nat.ofDigitChars 10 digits n < 2 ^ 64) :
    significand n digits = (Nat.ofDigitChars 10 digits n, []) := by
  induction digits generalizing n with
  | nil => rfl
  | cons c rest ih =>
    rw [Nat.ofDigitChars_cons] at h ⊢
    have hnext : 10 * n + (c.toNat - 48) < 0x10000000000000000 :=
      Nat.lt_of_le_of_lt (le_ofDigitChars _ rest) h
    rw [significand, if_pos hnext]
    exact ih h

theorem unsigned_zero {negative : Bool} (cs : List Char) :
    unsigned negative ('0' :: cs) =
      if cs.head?.any Char.isDigit then .error .malformed else afterWhole negative 0 [] cs := by
  cases cs <;> rfl

/-- A number that begins with another digit than zero, by its digits. -/
theorem unsigned_of_ne_zero {negative : Bool} {c : Char} (hc : c ≠ '0') (cs : List Char) :
    unsigned negative (c :: cs) =
      match (c :: cs).takeWhile Char.isDigit with
      | [] => .error .malformed
      | digits => afterWhole negative (significand 0 digits).1 (significand 0 digits).2
        ((c :: cs).dropWhile Char.isDigit) := by
  unfold unsigned
  split
  · next heq => cases heq
  · next heq => exact absurd (List.cons.inj heq).1 hc
  · rfl

/-- The digits of a number below `2 ^ 64` read as that number. -/
theorem unsigned_toDigits {negative : Bool} {n : Nat} {m : Number} (hn : n < 2 ^ 64)
    (hm : integer negative n = some m) : unsigned negative (Nat.toDigits 10 n) = .ok (m, []) := by
  have hafter : afterWhole negative n [] [] = .ok (m, []) := by simp [afterWhole, hm]
  rcases Nat.eq_zero_or_pos n with rfl | hpos
  · rw [Nat.toDigits_zero]
    exact hafter
  · obtain ⟨c, cs, hcs, hc⟩ := exists_toDigits_eq_cons hpos
    have hdigits : ∀ d ∈ c :: cs, d.isDigit = true := hcs ▸ isDigit_of_mem_toDigits
    have hvalue : Nat.ofDigitChars 10 (c :: cs) 0 = n := by
      rw [← hcs, Nat.ofDigitChars_ten_toDigits]
    have hall : significand 0 (c :: cs) = (n, []) := by
      rw [significand_of_lt (hvalue.symm ▸ hn), hvalue]
    rw [hcs, unsigned_of_ne_zero hc, List.takeWhile_eq_self_iff.mpr hdigits,
      List.dropWhile_eq_nil_iff.mpr hdigits]
    dsimp only
    rw [hall]
    exact hafter

/-- A number without a minus sign. -/
theorem number_of_ne {c : Char} (hc : c ≠ '-') (cs : List Char) :
    number (c :: cs) = unsigned false (c :: cs) := by
  unfold number
  split
  · next heq => exact absurd (List.cons.inj heq).1 hc
  · rfl

/-- What is written for an integer of 64 bits, with a sign or without, is read as that integer. -/
theorem number_intText {n : Int} (h : -2 ^ 63 ≤ n ∧ n < 2 ^ 64) :
    number (intText n).toList = .ok (.int n, []) := by
  cases n with
  | ofNat n =>
    have hn : n < 2 ^ 64 := by have := h.2; simp only [Int.ofNat_eq_natCast] at this; omega
    have hread : unsigned false (Nat.toDigits 10 n) = .ok (.int n, []) := unsigned_toDigits hn rfl
    rw [intText, Nat.toList_repr]
    obtain ⟨c, cs, hcs⟩ := List.exists_cons_of_ne_nil (Nat.toDigits_ne_nil (b := 10) (n := n))
    have hc : c.isDigit = true := isDigit_of_mem_toDigits c (hcs ▸ List.mem_cons_self)
    rw [hcs] at hread ⊢
    rw [number_of_ne (by rintro rfl; exact absurd hc (by decide))]
    exact hread
  | negSucc n =>
    have hle : n + 1 ≤ 0x8000000000000000 := by have := h.1; omega
    have hm : integer true (n + 1) = some (.int (Int.negSucc n)) := by
      simp only [integer, if_true, Nat.succ_pos, true_and, if_pos hle]
      rfl
    have hread : unsigned true (Nat.toDigits 10 (n + 1)) = .ok (.int (.negSucc n), []) :=
      unsigned_toDigits (by omega) hm
    rw [intText, String.toList_append, Nat.toList_repr]
    exact hread

theorem bind_eq_ok_iff {α β : Type} {x : Except Error α} {f : α → Except Error β} {b : β} :
    x >>= f = .ok b ↔ ∃ a, x = .ok a ∧ f a = .ok b := by
  cases x with
  | error e => exact ⟨nofun, nofun⟩
  | ok a =>
    refine ⟨fun h => ⟨a, rfl, h⟩, ?_⟩
    rintro ⟨_, ⟨⟩, h⟩
    exact h

section Append

variable {cs left rest : List Char} {negative : Bool} {n : Nat} {exponent e : Int} {m : Number}

theorem exponentDigits_append (h : exponentDigits negative cs = .ok (e, left)) (hr : Ends rest) :
    exponentDigits negative (cs ++ rest) = .ok (e, left ++ rest) := by
  unfold exponentDigits at h ⊢
  obtain ⟨htakes, hdrops⟩ := hr.span_append (p := Char.isDigit) (by decide) cs
  rw [htakes, hdrops]
  cases htake : cs.takeWhile Char.isDigit with
  | nil =>
    rw [htake] at h
    cases hdrop : cs.dropWhile Char.isDigit <;> rw [hdrop] at h <;> cases h
  | cons d digits =>
    rw [htake] at h
    obtain ⟨rfl, rfl⟩ := Prod.mk.inj (Except.ok.inj h)
    rfl

/-- Without a sign the digits come at once. -/
theorem exponentPart_of_ne {c : Char} (hplus : c ≠ '+') (hminus : c ≠ '-') (cs : List Char) :
    exponentPart (c :: cs) = exponentDigits false (c :: cs) := by
  unfold exponentPart
  split
  · next heq => exact absurd (List.cons.inj heq).1 hplus
  · next heq => exact absurd (List.cons.inj heq).1 hminus
  · rfl

theorem exponentPart_append (h : exponentPart cs = .ok (e, left)) (hr : Ends rest) :
    exponentPart (cs ++ rest) = .ok (e, left ++ rest) := by
  cases cs with
  | nil => cases h
  | cons c cs =>
    by_cases hplus : c = '+'
    · subst hplus
      have hdigits : exponentDigits false cs = .ok (e, left) := h
      exact exponentDigits_append hdigits hr
    by_cases hminus : c = '-'
    · subst hminus
      have hdigits : exponentDigits true cs = .ok (e, left) := h
      exact exponentDigits_append hdigits hr
    rw [exponentPart_of_ne hplus hminus] at h
    rw [List.cons_append, exponentPart_of_ne hplus hminus]
    exact exponentDigits_append h hr

theorem exponentOrZero_append (h : exponentOrZero cs = .ok (e, left)) (hr : Ends rest) :
    exponentOrZero (cs ++ rest) = .ok (e, left ++ rest) := by
  cases cs with
  | nil =>
    obtain ⟨rfl, rfl⟩ := Prod.mk.inj (Except.ok.inj h)
    cases rest with
    | nil => rfl
    | cons c rest =>
      refine if_neg fun hc => ?_
      have hmem := hr c rfl
      rcases hc with rfl | rfl <;> exact absurd hmem (by decide)
  | cons c cs =>
    rw [exponentOrZero] at h
    rw [List.cons_append, exponentOrZero]
    split at h
    · next hc => exact (if_pos hc).trans (exponentPart_append h hr)
    · next hc =>
      obtain ⟨rfl, rfl⟩ := Prod.mk.inj (Except.ok.inj h)
      exact if_neg hc

theorem scaled_append (h : scaled negative n exponent cs = .ok (m, left)) (hr : Ends rest) :
    scaled negative n exponent (cs ++ rest) = .ok (m, left ++ rest) := by
  simp only [scaled, bind_eq_ok_iff, Prod.exists] at h ⊢
  obtain ⟨e, unused, hread, h⟩ := h
  refine ⟨e, unused ++ rest, exponentOrZero_append hread hr, ?_⟩
  split at h
  · obtain ⟨rfl, rfl⟩ := Prod.mk.inj (Except.ok.inj h)
    rfl
  · cases h

/-- A number without a point is an integer, unless it has an exponent or is too large. -/
theorem afterWhole_of_ne {digits : List Char} (hcs : cs.head?.any (· = '.') = false) :
    afterWhole negative n digits cs =
      if cs.head?.any (fun c => c = 'e' ∨ c = 'E') ∨ digits ≠ [] ∨ integer negative n = none then
        scaled negative n digits.length cs
      else .ok ((integer negative n).getD (.int 0), cs) := by
  cases cs with
  | nil => cases digits <;> cases h : integer negative n <;> simp [afterWhole, h]
  | cons c cs =>
    have hc : c ≠ '.' := by simpa using hcs
    by_cases he : c = 'e'
    · subst he
      rfl
    by_cases hE : c = 'E'
    · subst hE
      rfl
    cases digits <;> cases h : integer negative n <;> simp [afterWhole, h, hc, he, hE]

theorem afterWhole_append {digits : List Char}
    (h : afterWhole negative n digits cs = .ok (m, left)) (hr : Ends rest) :
    afterWhole negative n digits (cs ++ rest) = .ok (m, left ++ rest) := by
  cases hcs : cs.head?.any (· = '.') with
  | true =>
    cases cs with
    | nil => cases hcs
    | cons c cs =>
      obtain rfl : c = '.' := of_decide_eq_true hcs
      simp only [List.cons_append, afterWhole] at h ⊢
      obtain ⟨htakes, hdrops⟩ := hr.span_append (p := Char.isDigit) (by decide) cs
      rw [htakes, hdrops]
      cases htake : cs.takeWhile Char.isDigit with
      | nil =>
        rw [htake] at h
        cases hdrop : cs.dropWhile Char.isDigit <;> rw [hdrop] at h <;> cases h
      | cons d ds =>
        rw [htake] at h
        exact scaled_append h hr
  | false =>
    rw [afterWhole_of_ne hcs] at h
    rw [← hr.any_head?_append (by decide)] at hcs
    rw [afterWhole_of_ne hcs, hr.any_head?_append (by decide)]
    split at h
    · next hc => exact (if_pos hc).trans (scaled_append h hr)
    · next hc =>
      obtain ⟨rfl, rfl⟩ := Prod.mk.inj (Except.ok.inj h)
      exact if_neg hc

theorem unsigned_append (h : unsigned negative cs = .ok (m, left)) (hr : Ends rest) :
    unsigned negative (cs ++ rest) = .ok (m, left ++ rest) := by
  cases cs with
  | nil => cases h
  | cons c cs =>
    rw [List.cons_append]
    by_cases hc : c = '0'
    · subst hc
      rw [unsigned_zero] at h
      rw [unsigned_zero, hr.any_head?_append (by decide)]
      split at h
      · cases h
      · next hdigit => exact (if_neg hdigit).trans (afterWhole_append h hr)
    · obtain ⟨htakes, hdrops⟩ := hr.span_append (p := Char.isDigit) (by decide) (c :: cs)
      rw [unsigned_of_ne_zero hc] at h
      rw [unsigned_of_ne_zero hc, ← List.cons_append, htakes, hdrops]
      split at h
      · cases h
      · exact afterWhole_append h hr

/-- A number is read in front of where a value may end as it is read alone. -/
theorem number_append (h : number cs = .ok (m, left)) (hr : Ends rest) :
    number (cs ++ rest) = .ok (m, left ++ rest) := by
  cases cs with
  | nil => cases h
  | cons c cs =>
    by_cases hc : c = '-'
    · subst hc
      have hread : unsigned true cs = .ok (m, left) := h
      exact unsigned_append hread hr
    · rw [number_of_ne hc] at h
      rw [List.cons_append, number_of_ne hc]
      exact unsigned_append h hr

end Append

end Reader

/-- An integer is of digits and a minus sign. -/
theorem intText_chars (n : Int) :
    (intText n).toList ≠ [] ∧ ∀ c ∈ (intText n).toList, c = '-' ∨ c.isDigit = true := by
  cases n with
  | ofNat n =>
    rw [intText, Nat.toList_repr]
    exact ⟨Nat.toDigits_ne_nil, fun c hc => .inr (isDigit_of_mem_toDigits c hc)⟩
  | negSucc n =>
    rw [intText, String.toList_append, Nat.toList_repr]
    refine ⟨List.cons_ne_nil _ _, fun c hc => ?_⟩
    rcases List.mem_cons.mp hc with rfl | hc
    · exact .inl rfl
    · exact .inr (isDigit_of_mem_toDigits c hc)

theorem isNumeral_of_mem_intText {n : Int} : ∀ c ∈ (intText n).toList, isNumeral c = true := by
  intro c hc
  rcases (intText_chars n).2 c hc with rfl | hd
  · rfl
  · exact isNumeral_of_isDigit hd

end ConfigTree.Json
