import ConfigTree.Proofs.ByteOrder
import ConfigTree.Proofs.Reachable
/-!
# The entries of a tree

The entries of a tree are its look-ups in ascending order of the paths: each value that is found at
a path is listed once, and nothing else is. So trees with the same look-ups have the same entries.
The entries at and below a path are those of the subtree there. Paths are compared label by label
and labels as byte strings, so that a walk over the nodes, in label order, lists them in order.
-/

namespace ConfigTree

theorem Path.append_lt_append {p q r : Path} : p ++ q < p ++ r ↔ q < r := by
  induction p with
  | nil => rfl
  | cons label rest ih => exact cons_lt_cons.trans ih

namespace Tree

variable {V : Type}

theorem mem_entries_iff {t : Tree V} {path : Path} {v : V} :
    (path, v) ∈ t.entries ↔ t.get? path = some v := by
  rw [get?_eq, Option.map_eq_some_iff]
  constructor
  · intro h
    obtain ⟨⟨p, stored⟩, hmem, he⟩ := List.mem_map.mp h
    cases he
    exact ⟨stored, (Node.mem_listing_iff t.ordered).mp hmem, rfl⟩
  · rintro ⟨stored, hstored, rfl⟩
    exact List.mem_map.mpr ⟨(path, stored), (Node.mem_listing_iff t.ordered).mpr hstored, rfl⟩

theorem ascending_entries (t : Tree V) : Table.Ascending t.entries :=
  Table.ascending_map Stored.value (Node.ascending_listing t.ordered)

theorem get?_entries (t : Tree V) (path : Path) : Table.get? path t.entries = t.get? path := by
  refine Option.ext fun v => ?_
  rw [Table.get?_eq_some_iff t.ascending_entries, mem_entries_iff]

theorem entries_eq_of_get?_eq {t u : Tree V} (h : ∀ path, t.get? path = u.get? path) :
    t.entries = u.entries :=
  Table.eq_of_get? t.ascending_entries u.ascending_entries fun path => by
    rw [get?_entries, get?_entries, h]

theorem length_entries (t : Tree V) : t.entries.length = t.size := List.length_map _

theorem exists_subtree?_iff {t : Tree V} {path : Path} :
    (∃ sub, t.subtree? path = some sub) ↔ (t.find? path).isSome := by
  cases hs : t.subtree? path with
  | none => simp [subtree?_eq_none.mp hs]
  | some sub => simp [(subtree?_eq_some.mp hs).1]

theorem exists_subtree_of_get? {t : Tree V} {path : Path} {v : V} (h : t.get? path = some v) :
    ∃ sub, t.subtree? path = some sub := by
  obtain ⟨n, hn, -⟩ := Option.bind_eq_some_iff.mp h
  exact exists_subtree?_iff.mpr (hn ▸ rfl)

theorem hash?_of_subtree? {t sub : Tree V} {path : Path} (h : t.subtree? path = some sub) :
    t.hash? path = some sub.hash := by
  rw [hash?, (subtree?_eq_some.mp h).1]
  rfl

/-- What is found below a node is found in the subtree at its path. -/
theorem get?_append {t sub : Tree V} {path : Path} (h : t.subtree? path = some sub)
    (below : Path) : t.get? (path ++ below) = sub.get? below := by
  rw [get?_eq, get?_eq, Node.stored?_append (subtree?_eq_some.mp h).1]

theorem hash?_append {t sub : Tree V} {path : Path} (h : t.subtree? path = some sub)
    (below : Path) : t.hash? (path ++ below) = sub.hash? below := by
  rw [hash?, find?, Node.find?_append, ← find?, (subtree?_eq_some.mp h).1]
  rfl

theorem entries_within {t sub : Tree V} {path : Path} (h : t.subtree? path = some sub) :
    t.entries.filter (fun e => e.1.isWithin path) =
      sub.entries.map fun (below, v) => (path ++ below, v) := by
  have hfilter : Table.Ascending (t.entries.filter fun e => e.1.isWithin path) :=
    List.Pairwise.filter _ t.ascending_entries
  have hmap : Table.Ascending (sub.entries.map fun (below, v) => (path ++ below, v)) :=
    List.pairwise_map.mpr (sub.ascending_entries.imp fun hlt => Path.append_lt_append.mpr hlt)
  refine Table.eq_of_mem_iff hfilter hmap fun q v => ?_
  rw [List.mem_filter, mem_entries_iff, Path.isWithin_iff]
  constructor
  · rintro ⟨hget, below, rfl⟩
    rw [get?_append h, ← mem_entries_iff] at hget
    exact List.mem_map.mpr ⟨(below, v), hget, rfl⟩
  · intro hmem
    obtain ⟨⟨below, w⟩, hbelow, he⟩ := List.mem_map.mp hmem
    cases he
    rw [get?_append h, ← mem_entries_iff]
    exact ⟨hbelow, List.prefix_append path below⟩

/-- A subtree has as many values as the tree has at and below its path. -/
theorem size_subtree {t sub : Tree V} {path : Path} (h : t.subtree? path = some sub) :
    sub.size = t.entries.countP fun e => e.1.isWithin path := by
  rw [List.countP_eq_length_filter, entries_within h, List.length_map, length_entries]

/-- The entries of a subtree are those of the tree at and below its path, without the path. -/
theorem entries_subtree {t sub : Tree V} {path : Path} (h : t.subtree? path = some sub) :
    sub.entries = (t.entries.filter fun e => e.1.isWithin path).map
      fun (q, v) => (q.drop path.length, v) := by
  rw [entries_within h, List.map_map]
  simp [Function.comp_def]

/-- The entries of a tree ascend, label by label and byte by byte, and are the values that are found
at the paths. A subtree lists the entries at and below its path, in the same order and without the
path, and finds below a path what the tree finds further down. -/
theorem entries_exact (t : Tree V) :
    (t.entries.Pairwise fun x y => x.1.map Bytes.ofString < y.1.map Bytes.ofString) ∧
    (∀ q v, (q, v) ∈ t.entries ↔ t.get? q = some v) ∧
    ∀ path, (t.find? path).isSome → ∃ sub, t.subtree? path = some sub ∧
      sub.entries = ((t.entries.filter fun e => e.1.isWithin path).map
        fun (q, v) => (q.drop path.length, v)) ∧
      sub.size = (t.entries.countP fun e => e.1.isWithin path) ∧
      ∀ q, sub.get? q = t.get? (path ++ q) ∧ sub.hash? q = t.hash? (path ++ q) := by
  refine ⟨t.ascending_entries.imp Path.map_ofString_lt, fun _ _ => mem_entries_iff,
    fun path hpath => ?_⟩
  obtain ⟨sub, hsub⟩ := exists_subtree?_iff.mpr hpath
  exact ⟨sub, hsub, entries_subtree hsub, size_subtree hsub,
    fun q => ⟨(get?_append hsub q).symm, (hash?_append hsub q).symm⟩⟩

/-- Labels that are empty, hold a dot or stand beyond the first 65536 characters. Byte by byte the
last one follows U+FFFF, and `a.b` follows everything below `a`. -/
theorem entries_exact_of_odd_labels :
    let t := (empty (⟨.blake3, Encoding.utf8⟩ : Scheme String) 0).replay 1
      [.insert ["a", "𝄞"] "1", .insert ["a.b"] "2", .insert ["a", "\uffff", ""] "3",
        .insert ["a"] "4", .insert ["a", ""] "5"]
    (t.entries.Pairwise fun x y => x.1.map Bytes.ofString < y.1.map Bytes.ofString) ∧
    (["a.b"], "2") ∈ t.entries ∧
    ∃ sub, t.subtree? ["a"] = some sub ∧
      sub.entries = [([], "4"), ([""], "5"), (["\uffff", ""], "3"), (["𝄞"], "1")] ∧
      sub.size = 4 ∧ sub.get? ["\uffff", ""] = some "3" := by
  intro t
  obtain ⟨hascending, hmem, hsub⟩ := t.entries_exact
  have hall : (t.find? ["a"]).isSome ∧ t.get? ["a.b"] = some "2" ∧
      ((t.entries.filter fun e => e.1.isWithin ["a"]).map fun e => (e.1.drop 1, e.2)) =
        [([], "4"), ([""], "5"), (["\uffff", ""], "3"), (["𝄞"], "1")] ∧
      (t.entries.countP fun e => e.1.isWithin ["a"]) = 4 ∧
      t.get? ["a", "\uffff", ""] = some "3" := by decide +kernel +zetaReduce
  obtain ⟨ha, hb, hlisted, hcount, hc⟩ := hall
  obtain ⟨sub, hs, hentries, hsize, hbelow⟩ := hsub ["a"] ha
  exact ⟨hascending, (hmem _ _).mpr hb, sub, hs, hentries.trans hlisted, hsize.trans hcount,
    (hbelow ["\uffff", ""]).1.trans hc⟩

end Tree

end ConfigTree
