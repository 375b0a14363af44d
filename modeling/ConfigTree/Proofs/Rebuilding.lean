import ConfigTree.Proofs.Detection
import ConfigTree.Proofs.Entries
import ConfigTree.Proofs.Insertion
/-!
# A tree made again from its entries

A tree that grew from an empty one by insertions and removals has no value at its root, so that its
entries can all be inserted again. The values that this leads to are those of the tree, each at its
path, and nothing but these shows in a hash: the new tree has the entries and all hashes of the old
one. A tree that was cut out of a larger one at a value lists this value first, with the path that
cannot be assigned to.
-/

namespace ConfigTree

/-- The trees that insertions and removals lead to, from an empty tree. -/
inductive Tree.Grown {V : Type} : Tree V → Prop
  | empty (scheme : Scheme V) (edit : Nat) : Grown (Tree.empty scheme edit)
  | insert {t u : Tree V} {edit : Nat} {path : Path} {v : V} (ht : Grown t)
      (h : t.insert edit path v = .ok u) : Grown u
  | erase {t u : Tree V} {edit : Nat} {path : Path} (ht : Grown t)
      (h : t.erase edit path = .ok u) : Grown u

namespace Node

variable {V : Type} {a : Algorithm}

theorem value_insertChild (n c : Node V) (stamp : Stamp) (label : String) :
    (n.insertChild a stamp label c).value = n.value := by
  rw [insertChild]
  split <;> rfl

theorem value_eraseChild (n : Node V) (stamp : Stamp) (label : String) :
    (n.eraseChild a stamp label).value = n.value := by
  rw [eraseChild]
  split <;> rfl

theorem value_insert {n : Node V} {v : Stored V} {stamp : Stamp} {path : Path} (h : path ≠ []) :
    (n.insert a v stamp path).value = n.value := by
  cases path with
  | nil => exact absurd rfl h
  | cons label rest => exact value_insertChild n _ stamp label

theorem value_of_erase {n m : Node V} {stamp : Stamp} {path : Path}
    (h : n.erase a stamp path = some m) : m.value = n.value := by
  cases path with
  | nil => cases h
  | cons label rest =>
    rw [erase] at h
    split at h
    · cases h
      rfl
    · split at h
      · rw [← (unlessVacant_eq_some h).1, value_insertChild]
      · rw [← (unlessVacant_eq_some h).1, value_eraseChild]

end Node

namespace Tree

variable {V : Type}

theorem Grown.reachable {t : Tree V} (h : t.Grown) : t.Reachable := by
  induction h with
  | empty scheme edit => exact .empty scheme edit
  | insert _ h ih => exact ih.insert h
  | erase _ h ih => exact ih.erase h

theorem ne_nil_of_insert {t u : Tree V} {edit : Nat} {path : Path} {v : V}
    (h : t.insert edit path v = .ok u) : path ≠ [] := by
  rintro rfl
  cases h

theorem Grown.root_value {t : Tree V} (h : t.Grown) : t.root.value = none := by
  induction h with
  | empty => rfl
  | insert _ h ih =>
    obtain ⟨hash, -, -, hr⟩ := insert_eq_ok h
    rw [hr, Node.value_insert (ne_nil_of_insert h), ih]
  | @erase t _ edit path _ h ih =>
    rw [root_of_erase h]
    cases hr : t.root.erase t.algorithm ⟨edit, 0⟩ path with
    | none => rfl
    | some root => exact (Node.value_of_erase hr).trans ih

theorem Grown.get?_root {t : Tree V} (h : t.Grown) : t.get? [] = none := by
  rw [get?_eq]
  exact Option.map_eq_none_iff.mpr h.root_value

theorem Grown.insertAll {entries : List (Path × V)} {edit : Nat} {t u : Tree V} (ht : t.Grown)
    (h : insertAll edit entries t = .ok u) : u.Grown := by
  induction entries generalizing edit t with
  | nil =>
    cases h
    exact ht
  | cons e rest ih =>
    obtain ⟨w, hi, h⟩ := insertAll_cons_eq_ok h
    exact ih (ht.insert hi) h

/-- The edit goes on with the whole tree. -/
def Edit.isWhole : Edit V → Bool
  | .subtree _ => false
  | _ => true

theorem Grown.edited {t : Tree V} (h : t.Grown) (number : Nat) {e : Edit V}
    (he : e.isWhole = true) : (t.edited number e).Grown := by
  refine edited_induction h (fun _ _ _ _ hr => h.insert hr) (fun _ _ _ hr => h.erase hr) ?_
  rintro path u rfl
  cases he

theorem Grown.replay {t : Tree V} (h : t.Grown) (number : Nat) {edits : List (Edit V)}
    (hedits : ∀ e ∈ edits, e.isWhole = true) : (t.replay number edits).Grown := by
  induction edits generalizing number t with
  | nil => exact h
  | cons e rest ih =>
    obtain ⟨he, hrest⟩ := List.forall_mem_cons.mp hedits
    exact ih (h.edited number he) (number + 1) hrest

theorem LabelsFit.entriesFit {t : Tree V} (h : t.LabelsFit) : EntriesFit t.entries := by
  rintro ⟨path, v⟩ hmem label hlabel
  obtain ⟨n, hn, -⟩ := Option.bind_eq_some_iff.mp (mem_entries_iff.mp hmem)
  exact h.path hn label hlabel

theorem exists_insertAll_eq_ok {entries : List (Path × V)} {t : Tree V}
    (h : ∀ e ∈ entries, e.1 ≠ [] ∧ ∃ hash, t.scheme.hashValue e.2 = .ok hash) (edit : Nat) :
    ∃ u, insertAll edit entries t = .ok u := by
  induction entries generalizing edit t with
  | nil => exact ⟨t, rfl⟩
  | cons e rest ih =>
    obtain ⟨⟨hpath, hv⟩, hrest⟩ := List.forall_mem_cons.mp h
    obtain ⟨w, hw, hs⟩ := exists_insert_eq_ok hpath hv edit
    rw [insertAll, hw]
    exact ih (hs.symm ▸ hrest) (edit + 1)

/-- The values of the entries have been accepted before. -/
theorem Sound.exists_hashValue {t : Tree V} (ht : t.Sound) {path : Path} {v : V}
    (hv : t.get? path = some v) : ∃ hash, t.scheme.hashValue v = .ok hash := by
  have hbind := ht.valueHash?_eq_bind path
  cases hhash : t.scheme.hashValue v with
  | ok hash => exact ⟨hash, rfl⟩
  | error e =>
    rw [hv, Option.bind_some, hhash] at hbind
    rw [valueHash?_eq_none_iff.mp hbind] at hv
    cases hv

theorem Grown.exists_ofEntries {t : Tree V} (ht : t.Grown) (edit : Nat) :
    ∃ u, ofEntries t.scheme edit t.entries = .ok u := by
  refine exists_insertAll_eq_ok (fun e he => ?_) (edit + 1)
  have hv := mem_entries_iff.mp he
  refine ⟨fun hpath => ?_, ht.reachable.sound.exists_hashValue hv⟩
  rw [hpath, ht.get?_root] at hv
  cases hv

/-- A value at the root is listed first. -/
theorem entries_eq_cons {t : Tree V} {v : V} (h : t.get? [] = some v) :
    ∃ rest, t.entries = ([], v) :: rest := by
  rw [get?_eq] at h
  obtain ⟨stored, hstored, rfl⟩ := Option.map_eq_some_iff.mp h
  have hvalue : t.root.value = some stored := hstored
  rw [entries, Node.listing_eq, Path.assemble, hvalue]
  exact ⟨_, rfl⟩

/-- What a tree that is made from the entries of another one has at each path. -/
theorem Sound.get?_ofEntries {t u : Tree V} (ht : t.Sound) {edit : Nat}
    (hfree : CollisionFree (t.algorithm.hashings (ofEntriesHashed t.scheme edit t.entries)))
    (hfits : t.LabelsFit) (h : ofEntries t.scheme edit t.entries = .ok u) :
    u.scheme = t.scheme ∧ ∀ path, u.get? path = t.get? path := by
  obtain ⟨hs, -, hvalues⟩ := ofEntries_valueHash? h hfits.entriesFit (List.Subset.refl _) hfree
  have hhash : ∀ path, u.valueHash? path = t.valueHash? path := by
    intro path
    rw [hvalues, Table.get?_reverse t.ascending_entries, get?_entries, ht.valueHash?_eq_bind]
  refine ⟨hs, fun path => ?_⟩
  cases hu : u.get? path with
  | some w => exact (mem_entries_iff.mp (origin_of_ofEntries h hu)).symm
  | none => rw [eq_comm, ← valueHash?_eq_none_iff, ← hhash, valueHash?_eq_none_iff, hu]

/-- A tree that grew from an empty one is made again from its entries: this succeeds, with the same
entries and the same hash at every path, or none where there was none. The entries of a subtree
whose root has a value are refused. -/
theorem ofEntries_entries (t : Tree V) (edit : Nat) :
    (t.Grown →
      CollisionFree (t.algorithm.hashings (ofEntriesHashed t.scheme edit t.entries)) →
      t.LabelsFit →
      ∃ u, ofEntries t.scheme edit t.entries = .ok u ∧ u.hash = t.hash ∧ u.entries = t.entries ∧
        ∀ path, u.hash? path = t.hash? path) ∧
    ∀ path sub v, t.subtree? path = some sub → t.get? path = some v →
      ofEntries sub.scheme edit sub.entries = .error .rootAssignment := by
  constructor
  · intro hgrown hfree hfits
    have ht := hgrown.reachable.sound
    obtain ⟨u, hu⟩ := hgrown.exists_ofEntries edit
    obtain ⟨hs, hget⟩ := ht.get?_ofEntries hfree hfits hu
    have husound : u.Sound := (sound_empty _ _).insertAll hu
    have hall := husound.hash?_eq_of_get? ht hs hget
    exact ⟨u, hu, Option.some.inj (hall []), entries_eq_of_get?_eq hget, hall⟩
  · intro path sub v hsub hv
    have hroot : sub.get? [] = some v := by
      rw [← get?_append hsub, List.append_nil, hv]
    obtain ⟨rest, hrest⟩ := entries_eq_cons hroot
    rw [ofEntries, hrest, insertAll, insert, if_pos rfl]
    rfl

/-- An encoding tells values apart by their length only, a branch was removed, and a value was kept
because another one of its length was set. The tree below a value is not made again. -/
theorem ofEntries_entries_of_lossy_encoding :
    let s : Scheme String := ⟨.blake3, fun v => .ok [v.length.toUInt8]⟩
    let t := (empty s 0).replay 1
      [.insert ["b", "x"] "1", .insert ["a"] "2", .insert ["a", "c"] "33", .erase ["b"],
        .insert ["a"] "4"]
    (∃ u, ofEntries t.scheme 9 t.entries = .ok u ∧ u.hash = t.hash ∧
      u.entries = [(["a"], "2"), (["a", "c"], "33")] ∧ ∀ path, u.hash? path = t.hash? path) ∧
    ∃ sub, t.subtree? ["a"] = some sub ∧
      ofEntries sub.scheme 9 sub.entries = .error .rootAssignment := by
  intro s t
  have ht : t.Grown := Grown.replay (.empty s 0) 1 (by decide)
  have hall : CollisionFree (t.algorithm.hashings (ofEntriesHashed t.scheme 9 t.entries)) ∧
      t.LabelsFit ∧ t.entries = [(["a"], "2"), (["a", "c"], "33")] ∧ t.get? ["a"] = some "2" ∧
      (t.subtree? ["a"]).isSome := by decide +kernel +zetaReduce
  obtain ⟨hfree, hfits, hentries, ha, hsub⟩ := hall
  obtain ⟨hmade, hrefused⟩ := ofEntries_entries t 9
  obtain ⟨u, hu, hhash, hlisted, hall⟩ := hmade ht hfree hfits
  obtain ⟨sub, hsub⟩ := Option.isSome_iff_exists.mp hsub
  exact ⟨⟨u, hu, hhash, hlisted.trans hentries, hall⟩, sub, hsub,
    hrefused ["a"] sub "2" hsub ha⟩

end Tree

end ConfigTree
