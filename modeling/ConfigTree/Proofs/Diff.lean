import ConfigTree.Diff
import ConfigTree.Proofs.Canonical
/-!
# The difference of two trees is exact

The walk over two lists of children is one walk over their join (`Table.join`), which holds under
each label what either side has there. So the entries of a difference fall into blocks below
ascending labels, and an entry at a path is decided by the value hashes of both nodes at that path
alone, unless the walk stopped above it at two nodes with one hash (`Node.mem_diff_iff`).
-/

namespace ConfigTree

namespace ValueChange

variable {x y : Option Hash}

theorem between?_eq_none : between? x y = none ↔ x = y := by
  cases x <;> cases y <;> simp [between?]

theorem between?_eq_added {h : Hash} : between? x y = some (added h) ↔ x = none ∧ y = some h := by
  cases x <;> cases y <;> simp [between?]

theorem between?_eq_removed {h : Hash} :
    between? x y = some (removed h) ↔ x = some h ∧ y = none := by
  cases x <;> cases y <;> simp [between?]

theorem between?_eq_modified {a b : Hash} :
    between? x y = some (modified a b) ↔ a ≠ b ∧ x = some a ∧ y = some b := by
  cases x <;> cases y <;> simp [between?]
  grind

end ValueChange

namespace Node

variable {V : Type}

/-- The difference at one label, from what either side has there. -/
def diffAt : Option (Node V) × Option (Node V) → Diff
  | (none, none) => []
  | (some n, none) => n.allRemoved
  | (none, some m) => m.allAdded
  | (some n, some m) => n.diff m

theorem childrenAdded_eq (children : List (String × Node V)) :
    childrenAdded children =
      (children.map fun (label, n) => (label, none, some n)).flatMap
        fun (label, x) => Path.prepend label (diffAt x) := by
  rw [List.flatMap_map]
  rfl

theorem diffChildren_eq (olds news : List (String × Node V)) :
    diffChildren olds news =
      (Table.join olds news).flatMap fun (label, x) => Path.prepend label (diffAt x) := by
  induction olds generalizing news with
  | nil => exact childrenAdded_eq news
  | cons e rest ih =>
    rw [diffChildren, Table.join, List.flatMap_append, ← childrenAdded_eq]
    refine congrArg _ ?_
    cases news.dropWhile fun (label', _) => label' < e.1 with
    | nil =>
      simp only [ih]
      rfl
    | cons d after =>
      by_cases hd : d.1 = e.1
      · simp only [if_pos hd, ih]
        rfl
      · simp only [if_neg hd, ih]
        rfl

theorem diff_eq (n m : Node V) :
    n.diff m = if n.hash = m.hash then [] else
      Path.assemble (ValueChange.between? n.valueHash? m.valueHash?)
        (Table.join n.children m.children) diffAt := by
  cases n
  rw [diff, diffChildren_eq]
  rfl

theorem mem_map_listing {n : Node V} (h : n.Ordered) (f : Hash → ValueChange) {path : Path}
    {c : ValueChange} :
    (path, c) ∈ n.listing.map (fun (path, v) => (path, f v.hash)) ↔
      (n.valueHashAt? path).map f = some c := by
  rw [valueHashAt?_eq, Option.map_map, Option.map_eq_some_iff]
  constructor
  · intro hc
    obtain ⟨⟨p, v⟩, hv, he⟩ := List.mem_map.mp hc
    cases he
    exact ⟨v, (mem_listing_iff h).mp hv, rfl⟩
  · rintro ⟨v, hv, rfl⟩
    exact List.mem_map.mpr ⟨(path, v), (mem_listing_iff h).mpr hv, rfl⟩

theorem mem_allAdded {n : Node V} (h : n.Ordered) {path : Path} {c : ValueChange} :
    (path, c) ∈ n.allAdded ↔ ValueChange.between? none (n.valueHashAt? path) = some c := by
  rw [allAdded, mem_map_listing h]
  cases n.valueHashAt? path <;> rfl

theorem mem_allRemoved {n : Node V} (h : n.Ordered) {path : Path} {c : ValueChange} :
    (path, c) ∈ n.allRemoved ↔ ValueChange.between? (n.valueHashAt? path) none = some c := by
  rw [allRemoved, mem_map_listing h]
  cases n.valueHashAt? path <;> rfl

/-- At some path that leads to `path`, both nodes have a node below them, of one hash. -/
def MeetAbove (n m : Node V) (path : Path) : Prop :=
  ∃ above below k l, above ++ below = path ∧ n.find? above = some k ∧ m.find? above = some l ∧
    k.hash = l.hash

theorem meetAbove_nil {n m : Node V} : n.MeetAbove m [] ↔ n.hash = m.hash := by
  constructor
  · rintro ⟨above, below, k, l, hpath, hk, hl, he⟩
    obtain ⟨rfl, rfl⟩ := List.append_eq_nil_iff.mp hpath
    cases hk
    cases hl
    exact he
  · intro he
    exact ⟨[], [], n, m, rfl, rfl, rfl, he⟩

theorem meetAbove_cons {n m : Node V} {label : String} {path : Path} :
    n.MeetAbove m (label :: path) ↔ n.hash = m.hash ∨
      ∃ c d, n.child? label = some c ∧ m.child? label = some d ∧ c.MeetAbove d path := by
  constructor
  · rintro ⟨above, below, k, l, hpath, hk, hl, he⟩
    cases above with
    | nil =>
      cases hk
      cases hl
      exact .inl he
    | cons label' above =>
      obtain ⟨rfl, rfl⟩ := List.cons.inj hpath
      obtain ⟨c, hc, hk⟩ := Option.bind_eq_some_iff.mp hk
      obtain ⟨d, hd, hl⟩ := Option.bind_eq_some_iff.mp hl
      exact .inr ⟨c, d, hc, hd, above, below, k, l, rfl, hk, hl, he⟩
  · rintro (he | ⟨c, d, hc, hd, above, below, k, l, rfl, hk, hl, he⟩)
    · exact ⟨[], label :: path, n, m, rfl, rfl, rfl, he⟩
    · refine ⟨label :: above, below, k, l, rfl, ?_, ?_, he⟩
      · rw [find?_cons, hc]
        exact hk
      · rw [find?_cons, hd]
        exact hl

theorem mem_diff_nil {n m : Node V} {c : ValueChange} :
    ([], c) ∈ n.diff m ↔
      n.hash ≠ m.hash ∧ ValueChange.between? n.valueHash? m.valueHash? = some c := by
  rw [diff_eq]
  split
  · next he => simp [he]
  · next he => rw [Path.mem_assemble_nil, and_iff_right he]

theorem mem_diff_cons {n m : Node V} (hn : n.Ordered) (hm : m.Ordered) {label : String}
    {path : Path} {c : ValueChange} :
    (label :: path, c) ∈ n.diff m ↔
      n.hash ≠ m.hash ∧ (path, c) ∈ diffAt (n.child? label, m.child? label) := by
  rw [diff_eq]
  split
  · next he => simp [he]
  · next he =>
    rw [Path.mem_assemble_cons (Table.ascending_join hn.ascending hm.ascending),
      Table.get?_join hn.ascending hm.ascending, and_iff_right he, child?, child?]
    cases Table.get? label n.children <;> cases Table.get? label m.children <;>
      simp [Table.either?, diffAt]

/-- The entry at a path is decided by the value hashes there, unless the walk stopped above it. -/
theorem mem_diff_iff {n m : Node V} (hn : n.Ordered) (hm : m.Ordered) {path : Path}
    {c : ValueChange} :
    (path, c) ∈ n.diff m ↔
      ValueChange.between? (n.valueHashAt? path) (m.valueHashAt? path) = some c ∧
        ¬ n.MeetAbove m path := by
  induction n using Node.induction generalizing m path with
  | step n ih =>
    cases path with
    | nil => rw [mem_diff_nil, meetAbove_nil, and_comm]; rfl
    | cons label rest =>
      rw [mem_diff_cons hn hm, meetAbove_cons, valueHashAt?_cons, valueHashAt?_cons]
      cases hc : n.child? label with
      | none =>
        cases hd : m.child? label with
        | none => simp [diffAt, ValueChange.between?]
        | some d => simp [diffAt, mem_allAdded (hm.child hd), and_comm]
      | some k =>
        cases hd : m.child? label with
        | none => simp [diffAt, mem_allRemoved (hn.child hc), and_comm]
        | some d =>
          simp [diffAt, ih _ (child_mem hc) (hn.child hc) (hm.child hd), and_comm, and_assoc]

theorem ascending_allAdded {n : Node V} (h : n.Ordered) : Table.Ascending n.allAdded :=
  Table.ascending_map (fun v : Stored V => ValueChange.added v.hash) (ascending_listing h)

theorem ascending_allRemoved {n : Node V} (h : n.Ordered) : Table.Ascending n.allRemoved :=
  Table.ascending_map (fun v : Stored V => ValueChange.removed v.hash) (ascending_listing h)

/-- The paths of the difference ascend. -/
theorem ascending_diff {n m : Node V} (hn : n.Ordered) (hm : m.Ordered) :
    Table.Ascending (n.diff m) := by
  induction n using Node.induction generalizing m with
  | step n ih =>
    rw [diff_eq]
    split
    · exact .nil
    · refine Path.ascending_assemble (Table.ascending_join hn.ascending hm.ascending)
        fun ⟨label, x, y⟩ hmem => ?_
      obtain ⟨hx, hy⟩ := Table.get?_of_mem_join hn.ascending hm.ascending hmem
      cases x with
      | none =>
        cases y with
        | none => exact .nil
        | some d => exact ascending_allAdded (hm.child hy)
      | some k =>
        cases y with
        | none => exact ascending_allRemoved (hn.child hx)
        | some d => exact ih _ (child_mem hx) (hn.child hx) (hm.child hy)

end Node

namespace Tree

variable {V : Type}

theorem mem_diff_iff {old new : Tree V} {path : Path} {c : ValueChange} :
    (path, c) ∈ old.diff new ↔
      ValueChange.between? (old.valueHash? path) (new.valueHash? path) = some c ∧
        ¬ old.root.MeetAbove new.root path :=
  Node.mem_diff_iff old.ordered new.ordered

/-- Below two nodes with one hash, there is nothing that the walk could miss. -/
theorem valueHash?_eq_of_meetAbove {old new : Tree V} (h : old.ContentByHash new) {path : Path}
    (hmeet : old.root.MeetAbove new.root path) : old.valueHash? path = new.valueHash? path := by
  obtain ⟨above, below, k, l, rfl, hk, hl, he⟩ := hmeet
  rw [valueHash?_append hk, valueHash?_append hl]
  exact Node.valueHashAt?_eq_of_hash_eq (Node.ContentByHash.find? h hk hl) he below

/-- The difference of two trees lists paths in ascending order and none twice, and every entry is
true of the value hashes of the two trees. It lists every path whose value hashes differ, if nodes
of the two trees with one hash have one content: so it is for reachable trees, unless two different
byte strings hashed for them have one hash. -/
theorem diff_exact (old new : Tree V) :
    Table.Ascending (old.diff new) ∧ ((old.diff new).map Prod.fst).Nodup ∧
    (∀ path h, (path, .added h) ∈ old.diff new →
      old.valueHash? path = none ∧ new.valueHash? path = some h) ∧
    (∀ path h, (path, .removed h) ∈ old.diff new →
      old.valueHash? path = some h ∧ new.valueHash? path = none) ∧
    (∀ path a b, (path, .modified a b) ∈ old.diff new →
      a ≠ b ∧ old.valueHash? path = some a ∧ new.valueHash? path = some b) ∧
    (old.ContentByHash new → ∀ path, old.valueHash? path ≠ new.valueHash? path →
      ∃ c, (path, c) ∈ old.diff new) ∧
    (old.Reachable → new.Reachable → CollisionFree (old.hashings ++ new.hashings) →
      old.LabelsFit → new.LabelsFit → old.ContentByHash new) := by
  have hasc : Table.Ascending (old.diff new) := Node.ascending_diff old.ordered new.ordered
  refine ⟨hasc, Table.nodup_keys hasc, ?_, ?_, ?_, ?_, ?_⟩
  · intro path h hmem
    exact ValueChange.between?_eq_added.mp (mem_diff_iff.mp hmem).1
  · intro path h hmem
    exact ValueChange.between?_eq_removed.mp (mem_diff_iff.mp hmem).1
  · intro path a b hmem
    exact ValueChange.between?_eq_modified.mp (mem_diff_iff.mp hmem).1
  · intro hcontent path hne
    cases hc : ValueChange.between? (old.valueHash? path) (new.valueHash? path) with
    | none => exact absurd (ValueChange.between?_eq_none.mp hc) hne
    | some c =>
      have hmeet : ¬ old.root.MeetAbove new.root path := fun hmeet =>
        hne (valueHash?_eq_of_meetAbove hcontent hmeet)
      exact ⟨c, mem_diff_iff.mpr ⟨hc, hmeet⟩⟩
  · intro hold hnew hfree hol hnl
    exact hold.sound.contentByHash hnew.sound hfree hol hnl

/-- A branch that moved, one that stayed behind an equal hash, a value at the root of a branch that
was replaced, and a branch that is only in the new tree. -/
theorem diff_exact_of_moved_branch :
    let s : Scheme String := ⟨.blake3, Encoding.utf8⟩
    let old := (empty s 0).replay 1
      [.insert ["a", "x"] "1", .insert ["b", "x"] "2", .insert ["b"] "3"]
    let new := (empty s 0).replay 1
      [.insert ["c", "x"] "1", .insert ["b", "x"] "2", .insert ["b"] "4", .insert ["b", "y"] "2"]
    (old.diff new).map (fun (path, c) => (path, c.kind)) =
        [(["a", "x"], "removed"), (["b"], "modified"), (["b", "y"], "added"),
          (["c", "x"], "added")] ∧
      old.ContentByHash new ∧ old.valueHash? ["b", "y"] ≠ new.valueHash? ["b", "y"] ∧
      ∃ c, (["b", "y"], c) ∈ old.diff new := by
  intro s old new
  have hold : old.Reachable := .replay (.empty s 0) 1 _
  have hnew : new.Reachable := .replay (.empty s 0) 1 _
  have hall : (old.diff new).map (fun (path, c) => (path, c.kind)) =
        [(["a", "x"], "removed"), (["b"], "modified"), (["b", "y"], "added"),
          (["c", "x"], "added")] ∧
      CollisionFree (old.hashings ++ new.hashings) ∧ old.LabelsFit ∧ new.LabelsFit ∧
      old.valueHash? ["b", "y"] ≠ new.valueHash? ["b", "y"] := by decide +kernel +zetaReduce
  obtain ⟨hkinds, hfree, hol, hnl, hne⟩ := hall
  obtain ⟨-, -, -, -, -, hcomplete, hbyhash⟩ := diff_exact old new
  have hcontent := hbyhash hold hnew hfree hol hnl
  exact ⟨hkinds, hcontent, hne, hcomplete hcontent ["b", "y"] hne⟩

end Tree

end ConfigTree
