import ConfigTree.Proofs.Rebuilding
import ConfigTree.Proofs.Sharing
/-!
# Edits of the children of one node

Children are set and removed one after another at a node that was made anew, with any nodes as
children. Some of these edits return the node that they were given. Through any number of them the
node stays sealed (`Node.Sealed`): it keeps the hash of its content, whose labels ascend. So its
hash depends on its value and on what the last edit of each label left there, and on nothing else.
-/

namespace ConfigTree

/-- An edit of the children of a node. -/
inductive ChildEdit (V : Type) where
  | set (stamp : Stamp) (label : String) (child : Node V)
  | remove (stamp : Stamp) (label : String)

namespace ChildEdit

variable {V : Type}

def label : ChildEdit V → String
  | set _ label _ => label
  | remove _ label => label

/-- The hash of the child that the edit leaves under its label. -/
def hash? : ChildEdit V → Option Hash
  | set _ _ child => some child.hash
  | remove _ _ => none

def apply (a : Algorithm) (n : Node V) : ChildEdit V → Node V
  | set stamp label child => n.insertChild a stamp label child
  | remove stamp label => n.eraseChild a stamp label

/-- The last edit of a label. -/
def last? (label : String) (edits : List (ChildEdit V)) : Option (ChildEdit V) :=
  (edits.filter fun e => e.label = label).getLast?

/-- The hash of the child under a label after edits, given that before them. -/
def hashAfter? (label : String) (edits : List (ChildEdit V)) (before : Option Hash) :
    Option Hash :=
  match last? label edits with
  | none => before
  | some e => e.hash?

theorem hashAfter?_cons (e : ChildEdit V) (edits : List (ChildEdit V)) (label : String)
    (before : Option Hash) : hashAfter? label (e :: edits) before =
      hashAfter? label edits (if label = e.label then e.hash? else before) := by
  rw [hashAfter?, hashAfter?, last?, last?]
  by_cases he : e.label = label
  · rw [List.filter_cons, if_pos (decide_eq_true he), List.getLast?_cons, if_pos he.symm]
    cases (edits.filter fun e => e.label = label).getLast? <;> rfl
  · rw [List.filter_cons, if_neg (by simpa using he), if_neg (Ne.symm he)]

end ChildEdit

namespace Node

variable {V : Type} {a : Algorithm}

/-- The hash of the child under a label. -/
def childHash? (n : Node V) (label : String) : Option Hash := (n.child? label).map hash

/-- The hash is that of the content, whose labels ascend. -/
structure Sealed (a : Algorithm) (n : Node V) : Prop where
  ascending : Table.Ascending n.children
  hash_eq : n.hash = a.digest n.content.encode

theorem Sealed.content_ascending {n : Node V} (h : n.Sealed a) :
    Table.Ascending n.content.children := Table.ascending_map hash h.ascending

theorem sealed_build {stamp : Stamp} {value : Option (Stored V)}
    {children : List (String × Node V)} (h : Table.Ascending children) :
    (build a stamp value children).Sealed a := ⟨h, rfl⟩

/-- Value hash and children's hashes are all that the hash depends on. -/
theorem Sealed.hash_eq_of {m n : Node V} (hm : m.Sealed a) (hn : n.Sealed a)
    (hvalue : m.valueHash? = n.valueHash?)
    (hchild : ∀ label, m.childHash? label = n.childHash? label) : m.hash = n.hash := by
  have hchildren : m.content.children = n.content.children :=
    Table.eq_of_get? hm.content_ascending hn.content_ascending fun label => by
      rw [get?_content, get?_content]
      exact hchild label
  have hcontent : m.content = n.content := by
    rw [content, contentOf] at hchildren ⊢
    exact congr (congrArg Content.mk hvalue) hchildren
  rw [hm.hash_eq, hn.hash_eq, hcontent]

theorem value_apply (n : Node V) (e : ChildEdit V) : (e.apply a n).value = n.value := by
  cases e with
  | set stamp label child => exact value_insertChild n child stamp label
  | remove stamp label => exact value_eraseChild n stamp label

theorem Sealed.apply {n : Node V} (h : n.Sealed a) (e : ChildEdit V) : (e.apply a n).Sealed a := by
  cases e with
  | set stamp label child =>
    rw [ChildEdit.apply, insertChild]
    split
    · exact h
    · exact sealed_build (Table.ascending_insert h.ascending)
  | remove stamp label =>
    rw [ChildEdit.apply, eraseChild]
    split
    · exact h
    · exact sealed_build (Table.ascending_erase h.ascending)

theorem Sealed.childHash?_apply {n : Node V} (h : n.Sealed a) (e : ChildEdit V) (label : String) :
    (e.apply a n).childHash? label = if label = e.label then e.hash? else n.childHash? label := by
  split
  · next hl =>
    cases e with
    | set stamp label' child =>
      cases hl
      rw [ChildEdit.apply, insertChild]
      split
      · next heq => exact heq
      · exact congrArg (Option.map hash) ((Table.get?_insert ..).trans (if_pos rfl))
    | remove stamp label' =>
      cases hl
      rw [ChildEdit.apply, eraseChild]
      split
      · next hnone => exact congrArg (Option.map hash) hnone
      · exact congrArg (Option.map hash) (Table.get?_erase_self h.ascending)
  · next hl =>
    cases e with
    | set stamp label' child =>
      exact congrArg (Option.map hash) (child?_insertChild_of_ne hl stamp)
    | remove stamp label' => exact congrArg (Option.map hash) (child?_eraseChild_of_ne hl stamp)

def editChildren (a : Algorithm) (n : Node V) (edits : List (ChildEdit V)) : Node V :=
  edits.foldl (ChildEdit.apply a) n

theorem value_editChildren (n : Node V) (edits : List (ChildEdit V)) :
    (n.editChildren a edits).value = n.value := by
  induction edits generalizing n with
  | nil => rfl
  | cons e rest ih => exact (ih (e.apply a n)).trans (value_apply n e)

theorem Sealed.editChildren {n : Node V} (h : n.Sealed a) (edits : List (ChildEdit V)) :
    (n.editChildren a edits).Sealed a := by
  induction edits generalizing n with
  | nil => exact h
  | cons e rest ih => exact ih (h.apply e)

theorem Sealed.childHash?_editChildren {n : Node V} (h : n.Sealed a) (edits : List (ChildEdit V))
    (label : String) : (n.editChildren a edits).childHash? label =
      ChildEdit.hashAfter? label edits (n.childHash? label) := by
  induction edits generalizing n with
  | nil => rfl
  | cons e rest ih =>
    rw [ChildEdit.hashAfter?_cons, ← h.childHash?_apply]
    exact ih (h.apply e)

/-- A node that was made under an algorithm, with any nodes as children. -/
inductive Made (a : Algorithm) : Node V → Prop
  | make {scheme : Scheme V} {stamp : Stamp} {value : Option V} {children : List (String × Node V)}
      {n : Node V} (ha : scheme.algorithm = a) (hchildren : Table.Ascending children)
      (h : make scheme stamp value children = .ok n) : Made a n
  | empty (stamp : Stamp) : Made a (empty a stamp)

theorem Made.sealed {n : Node V} (h : n.Made a) : n.Sealed a := by
  cases h with
  | @make scheme stamp value children _ ha hchildren h =>
    cases ha
    cases value with
    | none =>
      cases h
      exact sealed_build hchildren
    | some v =>
      rw [Node.make] at h
      cases hv : scheme.hashValue v with
      | error e =>
        rw [hv] at h
        cases h
      | ok hash =>
        rw [hv] at h
        cases h
        exact sealed_build hchildren
  | empty stamp => exact sealed_build .nil

/-- Edits of the children act on a table of hashes in which the last edit of a label counts: they
keep the value, they leave that table behind, and the hash is the one of value and table. So edits
that leave the same table lead to the same hash, from whichever node with that value hash. -/
theorem Made.children_edited {n : Node V} (hn : n.Made a) (edits : List (ChildEdit V)) :
    (n.editChildren a edits).value = n.value ∧
    (n.editChildren a edits).valueHash? = n.valueHash? ∧
    (∀ label, (n.editChildren a edits).childHash? label =
      ChildEdit.hashAfter? label edits (n.childHash? label)) ∧
    (∀ (stamp : Stamp) (value : Option (Stored V)) (children : List (String × Node V)),
      Table.Ascending children →
      value.map Stored.hash = n.valueHash? →
      (∀ label, (Table.get? label children).map hash =
        ChildEdit.hashAfter? label edits (n.childHash? label)) →
      (n.editChildren a edits).hash = (build a stamp value children).hash) ∧
    ∀ (other : Node V) (others : List (ChildEdit V)), other.Made a →
      other.valueHash? = n.valueHash? →
      (∀ label, ChildEdit.hashAfter? label others (other.childHash? label) =
        ChildEdit.hashAfter? label edits (n.childHash? label)) →
      (n.editChildren a edits).hash = (other.editChildren a others).hash := by
  have hvalue := value_editChildren (a := a) n edits
  have hvalueHash : (n.editChildren a edits).valueHash? = n.valueHash? :=
    congrArg (Option.map Stored.hash) hvalue
  have hsealed := hn.sealed.editChildren edits
  have hchild := hn.sealed.childHash?_editChildren edits
  refine ⟨hvalue, hvalueHash, hchild, ?_, ?_⟩
  · intro stamp value children hascending hv hc
    exact hsealed.hash_eq_of (sealed_build hascending) (hvalueHash.trans hv.symm) fun label =>
      (hchild label).trans (hc label).symm
  · intro other others hother hv hc
    have hvalueHash' : (other.editChildren a others).valueHash? = other.valueHash? :=
      congrArg (Option.map Stored.hash) (value_editChildren other others)
    refine hsealed.hash_eq_of (hother.sealed.editChildren others)
      (hvalueHash.trans (hv.symm.trans hvalueHash'.symm)) fun label => ?_
    rw [hchild, hother.sealed.childHash?_editChildren, hc]

/-- Two runs of edits that leave the same table: a child is set twice with one hash, one is removed
that is not there, one is taken out again, and one is vacant and hashed by the other algorithm. -/
theorem children_edited_in_two_orders :
    let scheme : Scheme String := ⟨.blake3, Encoding.utf8⟩
    let vacant : Node String := empty .sha256 ⟨0, 0⟩
    let leaf : Nat → Node String := fun edit =>
      build .blake3 ⟨edit, 0⟩ (some ⟨"1", Algorithm.blake3.digest (Bytes.ofString "1")⟩) []
    let two : Stored String := ⟨"2", Algorithm.blake3.digest (Bytes.ofString "2")⟩
    let n : Node String := build .blake3 ⟨1, 0⟩ (some two) [("b", vacant)]
    let edits : List (ChildEdit String) := [.set ⟨2, 0⟩ "a" (leaf 2), .set ⟨3, 0⟩ "a" (leaf 3),
      .remove ⟨4, 0⟩ "b", .remove ⟨5, 0⟩ "c", .set ⟨6, 0⟩ "c" vacant]
    let others : List (ChildEdit String) := [.set ⟨7, 0⟩ "c" vacant, .set ⟨8, 0⟩ "b" (leaf 8),
      .set ⟨9, 0⟩ "a" vacant, .remove ⟨10, 0⟩ "b", .set ⟨11, 0⟩ "a" (leaf 11)]
    make scheme ⟨1, 0⟩ (some "2") [("b", vacant)] = .ok n ∧
      (n.editChildren .blake3 edits).value = n.value ∧
      (n.editChildren .blake3 edits).childHash? "a" = some (leaf 2).hash ∧
      (n.editChildren .blake3 edits).childHash? "b" = none ∧
      (n.editChildren .blake3 edits).hash = (n.editChildren .blake3 others).hash := by
  intro scheme vacant leaf two n edits others
  have hmake : make scheme ⟨1, 0⟩ (some "2") [("b", vacant)] = .ok n := rfl
  have hn : n.Made .blake3 := .make rfl (List.pairwise_singleton _ _) hmake
  obtain ⟨hvalue, -, hchild, -, hsame⟩ := hn.children_edited edits
  refine ⟨hmake, hvalue, hchild "a", hchild "b", hsame n others hn rfl fun label => ?_⟩
  by_cases ha : label = "a"
  · rw [ha]
    rfl
  by_cases hb : label = "b"
  · rw [hb]
    rfl
  by_cases hc : label = "c"
  · rw [hc]
    rfl
  -- no edit is about any other label
  simp [edits, others, ChildEdit.hashAfter?, ChildEdit.last?, ChildEdit.label, Ne.symm ha,
    Ne.symm hb, Ne.symm hc]

end Node

end ConfigTree
