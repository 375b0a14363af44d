import ConfigTree.Tree.Node
import Mathlib.Algebra.Group.Nat.Defs
/-!
# What the bytes of a node tell

The bytes that are hashed for a node determine its content. Every part is either of a fixed length
or carries its length before it, so the parts are read off one after another from the left. The
only bound that is needed is that the length of each label fits its eight bytes: the list of
children ends where the bytes end, so the count in front of it is not what makes it readable.
-/

namespace ConfigTree

namespace Bytes

theorem littleEndian_inj {width m n : Nat} (hm : m < 256 ^ width) (hn : n < 256 ^ width)
    (h : littleEndian width m = littleEndian width n) : m = n := by
  induction width generalizing m n with
  | zero =>
    rw [Nat.pow_zero] at hm hn
    omega
  | succ width ih =>
    rw [Nat.pow_succ] at hm hn
    obtain ⟨hlow, hhigh⟩ := List.cons.inj h
    have hquot : m / 256 = n / 256 :=
      ih (Nat.div_lt_of_lt_mul (by omega)) (Nat.div_lt_of_lt_mul (by omega)) hhigh
    have hrem : m % 256 = n % 256 := by simpa using congrArg UInt8.toNat hlow
    omega

theorem bigEndian_inj {width m n : Nat} (hm : m < 256 ^ width) (hn : n < 256 ^ width)
    (h : bigEndian width m = bigEndian width n) : m = n :=
  littleEndian_inj hm hn (List.reverse_inj.mp h)

theorem ofString_inj {s t : String} (h : ofString s = ofString t) : s = t := by
  have he : s.toList.utf8Encode = t.toList.utf8Encode := congrArg List.toByteArray h
  rw [String.utf8Encode_toList, String.utf8Encode_toList] at he
  exact String.toByteArray_inj.mp he

end Bytes

namespace Content

/-- The length in bytes of every label fits eight bytes. -/
def LabelsFit (c : Content) : Prop := ∀ e ∈ c.children, (Bytes.ofString e.1).length < 2 ^ 64

/-- Whether a value is present shows in the first byte, so what follows is found in either case. -/
theorem encodeValue_append_inj {v w : Option Hash} {r r' : Bytes}
    (h : encodeValue v ++ r = encodeValue w ++ r') : v = w ∧ r = r' := by
  cases v with
  | none =>
    cases w with
    | none => exact ⟨rfl, (List.cons.inj h).2⟩
    | some w => exact absurd (List.cons.inj h).1 (by decide)
  | some v =>
    cases w with
    | none => exact absurd (List.cons.inj h).1 (by decide)
    | some w =>
      have hlen : v.toBytes.length = w.toBytes.length :=
        v.length_toBytes.trans w.length_toBytes.symm
      obtain ⟨hbytes, hrest⟩ := List.append_inj (List.cons.inj h).2 hlen
      exact ⟨congrArg some (Hash.ext hbytes), hrest⟩

theorem encodeChild_ne_nil (child : String × Hash) : encodeChild child ≠ [] := by
  intro h
  have hlen := congrArg List.length h
  simp [encodeChild] at hlen

/-- A child is read off the front of any bytes that start with it. -/
theorem encodeChild_append_inj {a b : String × Hash} {r r' : Bytes}
    (ha : (Bytes.ofString a.1).length < 2 ^ 64) (hb : (Bytes.ofString b.1).length < 2 ^ 64)
    (h : encodeChild a ++ r = encodeChild b ++ r') : a = b ∧ r = r' := by
  simp only [encodeChild, List.append_assoc] at h
  obtain ⟨hcount, h⟩ := List.append_inj h (by simp)
  have hlen : (Bytes.ofString a.1).length = (Bytes.ofString b.1).length :=
    Bytes.bigEndian_inj ha hb hcount
  obtain ⟨hlabel, h⟩ := List.append_inj h hlen
  obtain ⟨hhash, hrest⟩ := List.append_inj h (a.2.length_toBytes.trans b.2.length_toBytes.symm)
  exact ⟨Prod.ext (Bytes.ofString_inj hlabel) (Hash.ext hhash), hrest⟩

theorem children_inj {cs ds : List (String × Hash)}
    (hc : ∀ e ∈ cs, (Bytes.ofString e.1).length < 2 ^ 64)
    (hd : ∀ e ∈ ds, (Bytes.ofString e.1).length < 2 ^ 64)
    (h : cs.flatMap encodeChild = ds.flatMap encodeChild) : cs = ds := by
  induction cs generalizing ds with
  | nil =>
    cases ds with
    | nil => rfl
    | cons d ds =>
      rw [List.flatMap_nil, List.flatMap_cons] at h
      exact absurd (List.append_eq_nil_iff.mp h.symm).1 (encodeChild_ne_nil d)
  | cons c cs ih =>
    cases ds with
    | nil =>
      rw [List.flatMap_nil, List.flatMap_cons] at h
      exact absurd (List.append_eq_nil_iff.mp h).1 (encodeChild_ne_nil c)
    | cons d ds =>
      rw [List.flatMap_cons, List.flatMap_cons] at h
      obtain ⟨rfl, hrest⟩ := encodeChild_append_inj (hc c List.mem_cons_self)
        (hd d List.mem_cons_self) h
      rw [ih (fun e he => hc e (List.mem_cons_of_mem _ he))
        (fun e he => hd e (List.mem_cons_of_mem _ he)) hrest]

/-- The bytes of a node determine what they cover. -/
theorem encode_inj {c d : Content} (hc : c.LabelsFit) (hd : d.LabelsFit)
    (h : c.encode = d.encode) : c = d := by
  simp only [encode, List.append_assoc] at h
  have h := List.append_cancel_left h
  obtain ⟨hvalue, h⟩ := encodeValue_append_inj h
  obtain ⟨-, h⟩ := List.append_inj h (by simp)
  have hchildren := children_inj hc hd h
  cases c
  cases d
  cases hvalue
  cases hchildren
  rfl

end Content

end ConfigTree
