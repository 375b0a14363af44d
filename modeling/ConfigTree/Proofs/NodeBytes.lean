import ConfigTree.Proofs.Content
import ConfigTree.Proofs.Digests
import ConfigTree.Proofs.Tables
/-!
# The bytes of a node among other bytes

A node is hashed in many small parts (`Content.parts`), which makes no difference to its hash. Its
bytes are read off from the front of any bytes that begin with them: the count tells where the list
of children ends, and each child where its label ends. So nothing inside a label can pass for a
length, a hash, another child or the end of the node.
-/

namespace ConfigTree

namespace Content

def valueParts : Option Hash → List Bytes
  | none => [[0]]
  | some h => [[1], h.toBytes]

def childParts (child : String × Hash) : List Bytes :=
  let label := Bytes.ofString child.1
  [Bytes.bigEndian 8 label.length, label, child.2.toBytes]

/-- What a hasher is given for a node, part by part. -/
def parts (c : Content) : List Bytes :=
  tag :: (valueParts c.value ++
    Bytes.bigEndian 8 c.children.length :: c.children.flatMap childParts)

theorem flatten_valueParts (value : Option Hash) :
    (valueParts value).flatten = encodeValue value := by
  cases value with
  | none => rfl
  | some h => simp [valueParts, encodeValue]

theorem flatten_childParts (child : String × Hash) :
    (childParts child).flatten = encodeChild child := by
  simp [childParts, encodeChild]

theorem flatten_parts (c : Content) : c.parts.flatten = c.encode := by
  have hchildren : (c.children.flatMap childParts).flatten = c.children.flatMap encodeChild := by
    rw [List.flatten_eq_flatMap, List.flatMap_assoc]
    simp only [← List.flatten_eq_flatMap, flatten_childParts]
  rw [parts, encode, List.flatten_cons, List.flatten_append, flatten_valueParts,
    List.flatten_cons, hchildren, List.append_assoc, List.append_assoc]

/-- As many children are read off the front of any bytes that start with them. -/
theorem children_append_inj {cs ds : List (String × Hash)} {r r' : Bytes}
    (hlength : cs.length = ds.length)
    (hc : ∀ e ∈ cs, (Bytes.ofString e.1).length < 2 ^ 64)
    (hd : ∀ e ∈ ds, (Bytes.ofString e.1).length < 2 ^ 64)
    (h : cs.flatMap encodeChild ++ r = ds.flatMap encodeChild ++ r') : cs = ds ∧ r = r' := by
  induction cs generalizing ds with
  | nil =>
    cases ds with
    | nil => exact ⟨rfl, h⟩
    | cons d ds => cases hlength
  | cons c cs ih =>
    cases ds with
    | nil => cases hlength
    | cons d ds =>
      rw [List.flatMap_cons, List.flatMap_cons, List.append_assoc, List.append_assoc] at h
      obtain ⟨rfl, hmore⟩ := encodeChild_append_inj (hc c List.mem_cons_self)
        (hd d List.mem_cons_self) h
      obtain ⟨rfl, hrest⟩ := ih (Nat.succ.inj hlength)
        (fun e he => hc e (List.mem_cons_of_mem _ he))
        (fun e he => hd e (List.mem_cons_of_mem _ he)) hmore
      exact ⟨rfl, hrest⟩

/-- The children are a map from labels, and the lengths of labels and their number fit eight
bytes. -/
structure Proper (c : Content) : Prop where
  ascending : Table.Ascending c.children
  labels : c.LabelsFit
  count : c.children.length < 2 ^ 64

instance (c : Content) : Decidable c.LabelsFit :=
  inferInstanceAs (Decidable (∀ e ∈ c.children, (Bytes.ofString e.1).length < 2 ^ 64))

instance (c : Content) : Decidable c.Proper :=
  decidable_of_iff (Table.Ascending c.children ∧ c.LabelsFit ∧ c.children.length < 2 ^ 64)
    ⟨fun h => ⟨h.1, h.2.1, h.2.2⟩, fun h => ⟨h.ascending, h.labels, h.count⟩⟩

theorem encode_append_inj {c d : Content} (hc : c.Proper) (hd : d.Proper) {r r' : Bytes}
    (h : c.encode ++ r = d.encode ++ r') : c = d ∧ r = r' := by
  simp only [encode, List.append_assoc] at h
  have h := List.append_cancel_left h
  obtain ⟨hvalue, h⟩ := encodeValue_append_inj h
  obtain ⟨hcount, h⟩ := List.append_inj h (by simp)
  have hlength := Bytes.bigEndian_inj hc.count hd.count hcount
  obtain ⟨hchildren, hrest⟩ := children_append_inj hlength hc.labels hd.labels h
  cases c
  cases d
  cases hvalue
  cases hchildren
  exact ⟨rfl, hrest⟩

/-- The bytes of a node tell whether it has a value, the hash of that value, and the hash of the
child under each label. They are the same for the same content, and no bytes that begin with them
begin with those of another content. -/
theorem encode_tells {c d : Content} (hc : c.Proper) (hd : d.Proper) :
    (c.encode = d.encode ↔
      c.value = d.value ∧
      ∀ label, Table.get? label c.children = Table.get? label d.children) ∧
    ∀ rest rest', c.encode ++ rest = d.encode ++ rest' → c = d ∧ rest = rest' := by
  refine ⟨⟨fun h => ?_, ?_⟩, fun rest rest' h => encode_append_inj hc hd h⟩
  · have hbytes : c.encode ++ [] = d.encode ++ [] := by rw [h]
    obtain ⟨rfl, -⟩ := encode_append_inj hc hd hbytes
    exact ⟨rfl, fun _ => rfl⟩
  · rintro ⟨hvalue, hchildren⟩
    have hsame : c = d := by
      cases c
      cases d
      cases hvalue
      cases Table.eq_of_get? hc.ascending hd.ascending hchildren
      rfl
    rw [hsame]

/-- The second content has one label, which goes on as the hash of the first child of the other
content, the length of its next label and that label. -/
theorem encode_tells_label_like_bytes :
    let h : Hash := ⟨List.replicate 32 0x61, rfl⟩
    let c : Content := ⟨none, [("x", h), ("y", h)]⟩
    let d : Content := ⟨none,
      [("xaaaaaaaaaaaaaaaaaaaaaaaaaaaaaaaa\x00\x00\x00\x00\x00\x00\x00\x01y", h)]⟩
    c.Proper ∧ d.Proper ∧ c.encode.length = d.encode.length ∧
      c.encode.drop 23 = d.encode.drop 23 ∧ c.encode ≠ d.encode := by
  intro h c d
  have hc : c.Proper := by decide +kernel +zetaReduce
  have hd : d.Proper := by decide +kernel +zetaReduce
  refine ⟨hc, hd, by decide +kernel, by decide +kernel, fun he => ?_⟩
  obtain ⟨-, hchildren⟩ := (encode_tells hc hd).1.mp he
  exact absurd (hchildren "x") (by decide +kernel)

end Content

namespace Node

/-- The hash of a node is that of its parts. -/
theorem hash_build_eq_digestParts {V : Type} (a : Algorithm) (stamp : Stamp)
    (value : Option (Stored V)) (children : List (String × Node V)) :
    (build a stamp value children).hash = a.digestParts (contentOf value children).parts := by
  rw [a.digestParts_eq, Content.flatten_parts]
  rfl

end Node

end ConfigTree
