import ConfigTree.Bytes
import ConfigTree.Path
import Mathlib.Algebra.Group.Nat.Defs
/-!
# The order of texts as byte strings

Labels are compared character by character. This is the order of their UTF-8 bytes too: the first
byte of a character tells how many bytes follow and holds its high bits, and those that follow hold
the rest, six bits each, from the high ones to the low ones (`Bytes.continuation`). So paths are
ordered as lists of byte strings, a path before its extensions.
-/

namespace ConfigTree

namespace Bytes

/-- How many bytes follow the first one of the character with this code. -/
def following (v : Nat) : Nat :=
  if v ≤ 0x7f then 0 else if v ≤ 0x7ff then 1 else if v ≤ 0xffff then 2 else 3

/-- The mark of a first byte that so many bytes follow. -/
def mark : (k : Nat) → Nat
  | 0 => 0
  | 1 => 0xc0
  | 2 => 0xe0
  | _ => 0xf0

/-- The first byte of the character with this code. -/
def lead (v : Nat) : Nat := v / 64 ^ following v + mark (following v)

/-- The low digits of `v` to base 64, from the high ones to the low ones, each in a marked byte. -/
def continuation : (k : Nat) → (v : Nat) → Bytes
  | 0, _ => []
  | k + 1, v => UInt8.ofNat (v / 64 ^ k % 64 + 0x80) :: continuation k v

/-- The four ranges of codes, with the number of bytes that follow and the first byte in each. -/
theorem code_cases (v : Nat) :
    v ≤ 0x7f ∧ following v = 0 ∧ lead v = v ∨
      0x7f < v ∧ v ≤ 0x7ff ∧ following v = 1 ∧ lead v = v / 64 + 0xc0 ∨
      0x7ff < v ∧ v ≤ 0xffff ∧ following v = 2 ∧ lead v = v / 4096 + 0xe0 ∨
      0xffff < v ∧ following v = 3 ∧ lead v = v / 262144 + 0xf0 := by
  rw [lead, following]
  split
  · simp [mark, *]
  · split
    · simp [mark]
      omega
    · split
      · simp [mark]
        omega
      · simp [mark]
        omega

theorem following_mono {v w : Nat} (h : v ≤ w) : following v ≤ following w := by
  have hv := code_cases v
  have hw := code_cases w
  omega

theorem lead_lt {v : Nat} (h : v < 0x110000) : lead v < 256 := by
  have hv := code_cases v
  omega

/-- The ranges of the first bytes do not overlap. -/
theorem lead_lt_lead {v w : Nat} (h : following v < following w) : lead v < lead w := by
  have hv := code_cases v
  have hw := code_cases w
  omega

theorem code_lt (c : Char) : c.toNat < 0x110000 := by
  rcases c.valid with h | ⟨-, h⟩
  · exact Nat.lt_trans h (by decide)
  · exact h

theorem utf8EncodeChar_eq (c : Char) :
    String.utf8EncodeChar c =
      UInt8.ofNat (lead c.toNat) :: continuation (following c.toNat) c.toNat := by
  have hbound := code_lt c
  have hcode : c.val.toNat = c.toNat := rfl
  rw [String.utf8EncodeChar, hcode]
  generalize c.toNat = v at hbound
  rcases code_cases v with ⟨h, hf, hl⟩ | ⟨h, h', hf, hl⟩ | ⟨h, h', hf, hl⟩ | ⟨h, hf, hl⟩
  · rw [hf, hl, if_pos h]
    rfl
  · rw [hf, hl, if_neg (by omega), if_pos h', Nat.mod_eq_of_lt (by omega)]
    simp [continuation]
  · rw [hf, hl, if_neg (by omega), if_neg (by omega), if_pos h', Nat.mod_eq_of_lt (by omega)]
    simp [continuation]
  · rw [hf, hl, if_neg (by omega), if_neg (by omega), if_neg (by omega),
      Nat.mod_eq_of_lt (by omega)]
    simp [continuation]

/-- Digits are compared from the high ones on. -/
theorem continuation_append_lt {k v w : Nat} (h : v < w) (hhigh : v / 64 ^ k = w / 64 ^ k)
    (xs ys : Bytes) : continuation k v ++ xs < continuation k w ++ ys := by
  induction k with
  | zero =>
    rw [Nat.pow_zero, Nat.div_one, Nat.div_one] at hhigh
    omega
  | succ k ih =>
    have hv : v / 64 ^ k / 64 = v / 64 ^ (k + 1) := by rw [Nat.div_div_eq_div_mul, Nat.pow_succ]
    have hw : w / 64 ^ k / 64 = w / 64 ^ (k + 1) := by rw [Nat.div_div_eq_div_mul, Nat.pow_succ]
    have hle : v / 64 ^ k ≤ w / 64 ^ k := Nat.div_le_div_right (Nat.le_of_lt h)
    rw [continuation, continuation, List.cons_append, List.cons_append, List.cons_lt_cons_iff]
    rcases Nat.lt_or_eq_of_le hle with hlt | heq
    · left
      rw [UInt8.lt_iff_toNat_lt, UInt8.toNat_ofNat', UInt8.toNat_ofNat']
      omega
    · exact .inr ⟨by rw [heq], ih heq⟩

theorem utf8EncodeChar_append_lt {c d : Char} (h : c < d) (xs ys : Bytes) :
    String.utf8EncodeChar c ++ xs < String.utf8EncodeChar d ++ ys := by
  have hcode : c.toNat < d.toNat := h
  rw [utf8EncodeChar_eq, utf8EncodeChar_eq, List.cons_append, List.cons_append,
    List.cons_lt_cons_iff]
  have hlead : lead c.toNat < lead d.toNat →
      UInt8.ofNat (lead c.toNat) < UInt8.ofNat (lead d.toNat) := by
    intro hlt
    rw [UInt8.lt_iff_toNat_lt, UInt8.toNat_ofNat_of_lt' (lead_lt (code_lt c)),
      UInt8.toNat_ofNat_of_lt' (lead_lt (code_lt d))]
    exact hlt
  rcases Nat.lt_or_eq_of_le (following_mono (Nat.le_of_lt hcode)) with hfollowing | hfollowing
  · exact .inl (hlead (lead_lt_lead hfollowing))
  · have hle : c.toNat / 64 ^ following d.toNat ≤ d.toNat / 64 ^ following d.toNat :=
      Nat.div_le_div_right (Nat.le_of_lt hcode)
    rcases Nat.lt_or_eq_of_le hle with hhigh | hhigh
    · refine .inl (hlead ?_)
      rw [lead, lead, hfollowing]
      exact Nat.add_lt_add_right hhigh _
    · refine .inr ⟨?_, ?_⟩
      · rw [lead, lead, hfollowing, hhigh]
      · rw [hfollowing]
        exact continuation_append_lt hcode hhigh xs ys

theorem ofString_lt_ofString {s t : String} (h : s < t) : ofString s < ofString t := by
  have hlist : s.toList < t.toList := h
  rw [ofString, ofString]
  generalize s.toList = cs at hlist
  generalize t.toList = ds at hlist
  induction cs generalizing ds with
  | nil =>
    cases ds with
    | nil => exact absurd hlist (List.not_lt_nil [])
    | cons d ds =>
      rw [List.flatMap_cons, utf8EncodeChar_eq]
      exact List.nil_lt_cons _ _
  | cons c cs ih =>
    cases ds with
    | nil => exact absurd hlist (List.not_lt_nil _)
    | cons d ds =>
      rw [List.flatMap_cons, List.flatMap_cons]
      rcases List.cons_lt_cons_iff.mp hlist with hcd | ⟨rfl, hrest⟩
      · exact utf8EncodeChar_append_lt hcd _ _
      · exact List.append_left_lt (ih ds hrest)

end Bytes

/-- Paths are ordered as the byte strings of their labels are, one after another. -/
theorem Path.map_ofString_lt {p q : Path} (h : p < q) :
    p.map Bytes.ofString < q.map Bytes.ofString :=
  List.map_lt (fun _ _ => Bytes.ofString_lt_ofString) h

end ConfigTree
