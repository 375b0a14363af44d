import ConfigTree.Proofs.Layouts
import ConfigTree.Proofs.Entries
import ConfigTree.Tree.Text
/-!
# The JSON text of a tree

The JSON text of a tree reads back as an object for every node, with hash, value and children.
Going down the members of its children along a path leads to the object of the node at that path,
and to none where there is no node (`Node.descend?_toJson`). So the text tells the entries.
-/

namespace ConfigTree

namespace Json

/-- The member of an object under a key. -/
def member? (key : String) : Json → Option Json
  | .object members => Table.get? key members
  | _ => none

/-- The value that the labels of a path lead to, from children to children. -/
def descend? : Path → Json → Option Json
  | [], v => some v
  | label :: rest, v => ((v.member? "children").bind (member? label)).bind (descend? rest)

example : descend? ["a"] (.object [("value", .null), ("children", .object [("a", .int 1)])]) =
    some (.int 1) := rfl

theorem memberNumbers_eq_nil {members : List (String × Json)}
    (h : ∀ m ∈ members, m.2.numbers = []) : memberNumbers members = [] := by
  induction members with
  | nil => rfl
  | cons m rest ih =>
    obtain ⟨hm, hrest⟩ := List.forall_mem_cons.mp h
    rw [memberNumbers, hm, ih hrest]
    rfl

/-- A string is not null. -/
theorem string_or_null_inj {x y : Option String}
    (h : (x.map string).getD .null = (y.map string).getD .null) : x = y := by
  cases x with
  | none =>
    cases y with
    | none => rfl
    | some s => cases h
  | some s =>
    cases y with
    | none => cases h
    | some r => exact congrArg some (string.inj h)

end Json

namespace Node

variable {V : Type} {json : V → Json}

theorem childrenJson_eq (children : List (String × Node V)) :
    childrenJson json children = children.map fun (label, c) => (label, c.toJson json) := by
  induction children with
  | nil => rfl
  | cons c rest ih => rw [childrenJson, ih]; rfl

theorem toJson_eq (n : Node V) :
    n.toJson json = .object [("hash", .string n.hash.toHex),
      ("value", (n.value.map fun v => json v.value).getD .null),
      ("children", .object (n.children.map fun (label, c) => (label, c.toJson json)))] := by
  cases n
  rw [toJson, childrenJson_eq]

theorem member?_children_toJson (n : Node V) :
    (n.toJson json).member? "children" =
      some (.object (n.children.map fun (label, c) => (label, c.toJson json))) := by
  rw [toJson_eq]
  rfl

/-- Where a path leads in the JSON form is the JSON form of where it leads. -/
theorem descend?_toJson (n : Node V) (path : Path) :
    (n.toJson json).descend? path = (n.find? path).map (toJson json) := by
  induction path generalizing n with
  | nil => rfl
  | cons label rest ih =>
    have hchild : ((n.toJson json).member? "children").bind (Json.member? label) =
        (n.child? label).map (toJson json) := by
      rw [member?_children_toJson, Option.bind_some, Json.member?]
      exact Table.get?_map (toJson json) label n.children
    rw [Json.descend?, hchild, find?_cons]
    cases n.child? label with
    | none => rfl
    | some c => exact ih c

/-- Where values are written without numbers, nodes are. -/
theorem numbers_toJson (h : ∀ v, (json v).numbers = []) (n : Node V) :
    (n.toJson json).numbers = [] := by
  induction n using Node.induction with
  | step n ih =>
    have hvalue : ((n.value.map fun v => json v.value).getD .null).numbers = [] := by
      cases n.value with
      | none => rfl
      | some v => exact h v.value
    have hchildren : Json.memberNumbers (n.children.map fun (label, c) => (label, c.toJson json))
        = [] := by
      refine Json.memberNumbers_eq_nil fun m hm => ?_
      obtain ⟨c, hc, rfl⟩ := List.mem_map.mp hm
      exact ih c hc
    rw [toJson_eq]
    simp only [Json.numbers, Json.memberNumbers, hvalue, hchildren, List.append_nil]

end Node

namespace Tree

/-- The text of a tree of texts is JSON, and is read as the JSON form of the tree. -/
theorem parse_compact_toJson (t : Tree String) :
    Json.parse (t.toJson .string).compact = .ok (t.toJson .string) := by
  have hnumbers : (t.toJson .string).numbers = [] := Node.numbers_toJson (fun _ => rfl) t.root
  refine Json.parse_compact fun n hn => ?_
  rw [hnumbers] at hn
  cases hn

/-- What a path leads to: an object with the hash of the node there in hexadecimal digits, its value
or null, and its children in order. -/
theorem descend?_toJson {t : Tree String} {path : Path} {found : Json}
    (h : (t.toJson .string).descend? path = some found) :
    ∃ hash children, t.hash? path = some hash ∧ Table.Ascending children ∧
      found = .object [("hash", .string hash.toHex),
        ("value", ((t.get? path).map .string).getD .null), ("children", .object children)] := by
  have hdescend : (t.toJson .string).descend? path = (t.find? path).map (Node.toJson .string) :=
    t.root.descend?_toJson path
  rw [hdescend] at h
  obtain ⟨n, hn, rfl⟩ := Option.map_eq_some_iff.mp h
  have hget : t.get? path = n.value.map Stored.value := by rw [get?, hn, Option.bind_some]
  have hordered : n.Ordered := t.ordered.find? hn
  refine ⟨n.hash, n.children.map fun child => (child.1, child.2.toJson .string), ?_,
    Table.ascending_map (Node.toJson .string) hordered.ascending, ?_⟩
  · rw [hash?, hn, Option.map_some]
  · rw [Node.toJson_eq, hget, Option.map_map]
    rfl

theorem descend?_toJson_eq_none_iff {t : Tree String} {path : Path} :
    (t.toJson .string).descend? path = none ↔ t.find? path = none := by
  have hdescend : (t.toJson .string).descend? path = (t.find? path).map (Node.toJson .string) :=
    t.root.descend?_toJson path
  rw [hdescend, Option.map_eq_none_iff]

/-- The JSON form tells the values. -/
theorem entries_eq_of_toJson_eq {t u : Tree String} (h : t.toJson .string = u.toJson .string) :
    t.entries = u.entries := by
  refine entries_eq_of_get?_eq fun path => ?_
  cases ht : (t.toJson .string).descend? path with
  | none =>
    have hu : (u.toJson .string).descend? path = none := h ▸ ht
    rw [get?, get?, descend?_toJson_eq_none_iff.mp ht, descend?_toJson_eq_none_iff.mp hu]
  | some found =>
    have hu : (u.toJson .string).descend? path = some found := h ▸ ht
    obtain ⟨_, _, -, -, ht⟩ := descend?_toJson ht
    obtain ⟨_, _, -, -, hu⟩ := descend?_toJson hu
    have hmembers := Json.object.inj (ht.symm.trans hu)
    simp only [List.cons.injEq, Prod.mk.injEq] at hmembers
    exact Json.string_or_null_inj hmembers.2.1.2

/-- The JSON text of a tree of texts is JSON. Reading it, and going down from children to children
along a path, leads to something exactly where the tree has a node: to an object with the hash of
that node in hexadecimal digits, with its value, or null where it has none, and with its children,
whose labels ascend. So trees with one text have the same entries. -/
theorem text_tells_tree (t : Tree String) :
    ∃ doc, Json.parse (t.toJson .string).compact = .ok doc ∧
      (∀ path, doc.descend? path = none ↔ t.find? path = none) ∧
      (∀ path found, doc.descend? path = some found → ∃ hash children,
        t.hash? path = some hash ∧ Table.Ascending children ∧
        found = .object [("hash", .string hash.toHex),
          ("value", ((t.get? path).map .string).getD .null), ("children", .object children)]) ∧
      ∀ u : Tree String, (u.toJson .string).compact = (t.toJson .string).compact →
        u.entries = t.entries := by
  refine ⟨t.toJson .string, t.parse_compact_toJson, fun _ => descend?_toJson_eq_none_iff,
    fun _ _ => descend?_toJson, fun u htext => ?_⟩
  have hparse := u.parse_compact_toJson
  rw [htext, t.parse_compact_toJson] at hparse
  exact entries_eq_of_toJson_eq (Except.ok.inj hparse).symm

end Tree

end ConfigTree
