import ConfigTree.Proofs.Integrity
import ConfigTree.Proofs.Placing
import ConfigTree.Proofs.Removal
/-!
# Editing below a node and editing its subtree

The subtree at a path has at each of its paths what the tree has further down. So an edit below the
path does to the subtree what the same edit does when it starts there; the one difference is that a
node that is left without values goes from the tree, whereas the subtree stays as an empty tree.
-/

namespace ConfigTree.Tree

variable {V : Type} {strings : List Bytes}

theorem AllHashedIn.subtree {t sub : Tree V} (ht : t.AllHashedIn strings) {p : Path}
    (h : t.subtree? p = some sub) : sub.AllHashedIn strings := by
  obtain ⟨hr, hs⟩ := subtree?_eq_some.mp h
  rw [AllHashedIn, algorithm, hs]
  exact Node.Everywhere.find? ht hr

theorem valueHash?_append_subtree {t sub : Tree V} {p : Path} (h : t.subtree? p = some sub)
    (below : Path) : t.valueHash? (p ++ below) = sub.valueHash? below :=
  valueHash?_append (subtree?_eq_some.mp h).1 below

theorem Sound.isEmpty_iff {t : Tree V} (ht : t.Sound) :
    t.isEmpty = true ↔ ∀ path, t.get? path = none := by
  have hentries : t.isEmpty = true ↔ t.entries = [] := by
    rw [entries, List.map_eq_nil_iff]
    exact Node.Sound.isVacant_iff ht t.ordered
  rw [hentries, List.eq_nil_iff_forall_not_mem]
  constructor
  · intro hnone path
    cases hv : t.get? path with
    | none => rfl
    | some v => exact absurd (mem_entries_iff.mpr hv) (hnone _)
  · rintro hnone ⟨path, v⟩ hmem
    rw [mem_entries_iff, hnone] at hmem
    cases hmem

section Below

variable {u w : Tree V} {p : Path}

/-- There is a node at the path, unless it is missing because the other tree is empty. -/
theorem Sound.subtree?_eq_none_iff (hu : u.Sound) (hw : w.Sound)
    (hget : ∀ below, u.get? (p ++ below) = w.get? below) :
    u.subtree? p = none ↔ p ≠ [] ∧ w.isEmpty = true := by
  rw [Tree.subtree?_eq_none, ← Option.not_isSome_iff_eq_none, hu.find?_isSome_iff, hw.isEmpty_iff,
    not_or]
  simp only [hget, not_exists, Option.eq_none_iff_forall_ne_some, ne_eq]

theorem Sound.subtree_agrees (hu : u.Sound) (hw : w.Sound) (hs : u.scheme = w.scheme)
    (hget : ∀ below, u.get? (p ++ below) = w.get? below) {usub : Tree V}
    (h : u.subtree? p = some usub) : usub.hash = w.hash ∧ usub.entries = w.entries := by
  have hget' : ∀ path, usub.get? path = w.get? path := fun path =>
    (get?_append h path).symm.trans (hget path)
  have hs' : usub.scheme = w.scheme := (subtree?_eq_some.mp h).2.trans hs
  exact ⟨Option.some.inj ((hu.subtree h).hash?_eq_of_get? hw hs' hget' []),
    entries_eq_of_get?_eq hget'⟩

end Below

section Edits

variable {t sub u w : Tree V} {p q : Path} {edit edit' : Nat}

theorem Inserted.get?_below {v : V} (h : Inserted strings t u edit (p ++ q) v)
    (h' : Inserted strings sub w edit' q v) (hsub : t.subtree? p = some sub) (below : Path) :
    u.get? (p ++ below) = w.get? below := by
  have hs : sub.scheme = t.scheme := (subtree?_eq_some.mp hsub).2
  rw [h.get?_eq, h'.get?_eq, get?_append hsub, valueHash?_append_subtree hsub, hs]
  simp only [List.append_cancel_left_eq]

theorem Erased.get?_below (h : Erased strings t u edit (p ++ q))
    (h' : Erased strings sub w edit' q) (hsub : t.subtree? p = some sub) (below : Path) :
    u.get? (p ++ below) = w.get? below := by
  rw [h.get?_eq, h'.get?_eq, get?_append hsub]
  simp only [List.prefix_append_right_inj]

end Edits

/-- An edit below the path of a subtree and the same edit of the subtree lead to trees that agree
below the path, in hash and entries. After an insertion there is a node at the path; after a removal
there is none exactly if the path is not the root's and the edited subtree is empty. -/
theorem Reachable.subtree_of_edited {t sub : Tree V} (ht : t.Reachable) {p q : Path}
    (hsub : t.subtree? p = some sub) (hq : q ≠ []) (edit edit' : Nat) (hfits : t.LabelsFit) :
    (∀ v hash, t.scheme.hashValue v = .ok hash →
      (∀ label ∈ q, (Bytes.ofString label).length < 2 ^ 64) →
      CollisionFree (t.hashings ++ t.algorithm.hashings
        (t.insertHashed edit (p ++ q) v ++ sub.insertHashed edit' q v)) →
      ∃ u w usub, t.insert edit (p ++ q) v = .ok u ∧ sub.insert edit' q v = .ok w ∧
        u.subtree? p = some usub ∧ usub.hash = w.hash ∧ usub.entries = w.entries) ∧
    (CollisionFree (t.hashings ++ t.algorithm.hashings
        (t.eraseHashed edit (p ++ q) ++ sub.eraseHashed edit' q)) →
      ∃ u w, t.erase edit (p ++ q) = .ok u ∧ sub.erase edit' q = .ok w ∧
        (u.subtree? p = none ↔ p ≠ [] ∧ w.isEmpty = true) ∧
        ∀ usub, u.subtree? p = some usub → usub.hash = w.hash ∧ usub.entries = w.entries) := by
  have hpq : p ++ q ≠ [] := fun h => hq (List.append_eq_nil_iff.mp h).2
  obtain ⟨hn, hs⟩ := subtree?_eq_some.mp hsub
  have hsound := ht.sound.subtree hsub
  have ha : sub.algorithm = t.algorithm := congrArg Scheme.algorithm hs
  constructor
  · intro v hash hv hlabels hfree
    obtain ⟨u, hu, hus⟩ := exists_insert_eq_ok hpq ⟨hash, hv⟩ edit
    obtain ⟨w, hw, hws⟩ := exists_insert_eq_ok hq ⟨hash, hs ▸ hv⟩ edit'
    obtain ⟨strings, hhashed, hway, hfree⟩ := ht.sound.exists_allHashedIn hfits hfree
    obtain ⟨hway, hway'⟩ := List.append_subset.mp hway
    have hall : ∀ label ∈ p ++ q, (Bytes.ofString label).length < 2 ^ 64 := fun label hl =>
      (List.mem_append.mp hl).elim (hfits.path hn label) (hlabels label)
    have hi : Inserted strings t u edit (p ++ q) v := ⟨hu, ht.sound, hhashed, hway, hfree, hall⟩
    have hi' : Inserted strings sub w edit' q v :=
      ⟨hw, hsound, hhashed.subtree hsub, hway', ha ▸ hfree, hlabels⟩
    -- the value at the path of the edit, whether it is new or was there, lies below a node at `p`
    obtain ⟨x, hx⟩ := (hi.exists_get?_iff (p ++ q)).mpr (.inr rfl)
    obtain ⟨usub, husub⟩ :=
      exists_subtree?_iff.mpr ((hi.sound_after.find?_isSome_iff p).mpr (.inr ⟨q, x, hx⟩))
    have hscheme : u.scheme = w.scheme := hus.trans (hws.trans hs).symm
    exact ⟨u, w, usub, hu, hw, husub,
      hi.sound_after.subtree_agrees hi'.sound_after hscheme (hi.get?_below hi' hsub) husub⟩
  · intro hfree
    obtain ⟨u, hu⟩ := exists_erase_eq_ok hpq edit t
    obtain ⟨w, hw⟩ := exists_erase_eq_ok hq edit' sub
    obtain ⟨strings, hhashed, hway, hfree⟩ := ht.sound.exists_allHashedIn hfits hfree
    obtain ⟨hway, hway'⟩ := List.append_subset.mp hway
    have he : Erased strings t u edit (p ++ q) := ⟨hu, ht.sound, hhashed, hway, hfree⟩
    have he' : Erased strings sub w edit' q :=
      ⟨hw, hsound, hhashed.subtree hsub, hway', ha ▸ hfree⟩
    have hget := he.get?_below he' hsub
    have hscheme : u.scheme = w.scheme :=
      (scheme_of_erase hu).trans ((scheme_of_erase hw).trans hs).symm
    exact ⟨u, w, hu, hw, he.sound_after.subtree?_eq_none_iff he'.sound_after hget,
      fun usub husub => he.sound_after.subtree_agrees he'.sound_after hscheme hget husub⟩

/-- An insertion below `a`, a removal there that leaves a value beside it, and one that leaves
nothing: then `a` is gone from the tree, and its subtree is empty. -/
theorem subtree_of_edited_branch :
    let s : Scheme String := ⟨.blake3, Encoding.utf8⟩
    let t := (empty s 0).replay 1
      [.insert ["a", "b", "c"] "1", .insert ["a", "b", "d"] "2", .insert ["e"] "3"]
    ∃ sub, t.subtree? ["a"] = some sub ∧
      (∃ u w usub, t.insert 4 ["a", "b"] "4" = .ok u ∧ sub.insert 5 ["b"] "4" = .ok w ∧
        u.subtree? ["a"] = some usub ∧ usub.hash = w.hash ∧ usub.entries = w.entries) ∧
      (∃ u w usub, t.erase 4 ["a", "b", "c"] = .ok u ∧ sub.erase 5 ["b", "c"] = .ok w ∧
        u.subtree? ["a"] = some usub ∧ usub.hash = w.hash ∧ usub.entries = w.entries) ∧
      ∃ u w, t.erase 4 ["a", "b"] = .ok u ∧ sub.erase 5 ["b"] = .ok w ∧
        u.subtree? ["a"] = none ∧ w.isEmpty = true := by
  intro s t
  have ht : t.Reachable := .replay (.empty s 0) 1 _
  let sub := (t.subtree? ["a"]).getD t
  have hall : (t.find? ["a"]).isSome ∧ t.LabelsFit ∧
      (∀ label ∈ ["b"], (Bytes.ofString label).length < 2 ^ 64) ∧
      CollisionFree (t.hashings ++ t.algorithm.hashings
        (t.insertHashed 4 ["a", "b"] "4" ++ sub.insertHashed 5 ["b"] "4")) ∧
      (∀ q ∈ [["b", "c"], ["b"]], CollisionFree (t.hashings ++ t.algorithm.hashings
        (t.eraseHashed 4 ("a" :: q) ++ sub.eraseHashed 5 q))) ∧
      (sub.erase 5 ["b", "c"]).toOption.map isEmpty = some false ∧
      (sub.erase 5 ["b"]).toOption.map isEmpty = some true := by decide +kernel +zetaReduce
  obtain ⟨ha, hfits, hlabels, hinsert, herase, hleft, hnone⟩ := hall
  obtain ⟨sub', hsub'⟩ := exists_subtree?_iff.mpr ha
  have hsub : t.subtree? ["a"] = some sub := by
    rw [hsub']
    exact congrArg some (by simp [sub, hsub'])
  have hedits := fun q hq => ht.subtree_of_edited (q := q) hsub hq 4 5 hfits
  refine ⟨sub, hsub, ?_, ?_, ?_⟩
  · exact (hedits ["b"] (List.cons_ne_nil _ _)).1 "4" _ rfl hlabels hinsert
  · obtain ⟨u, w, hu, hw, hgone, hagree⟩ :=
      (hedits ["b", "c"] (List.cons_ne_nil _ _)).2 (herase _ (by decide))
    have hempty : w.isEmpty = false := by simpa [hw, Except.toOption] using hleft
    cases husub : u.subtree? ["a"] with
    | none => simpa [hempty] using hgone.mp husub
    | some usub => exact ⟨u, w, usub, hu, hw, husub, hagree usub husub⟩
  · obtain ⟨u, w, hu, hw, hgone, -⟩ :=
      (hedits ["b"] (List.cons_ne_nil _ _)).2 (herase _ (by decide))
    have hempty : w.isEmpty = true := by simpa [hw, Except.toOption] using hnone
    exact ⟨u, w, hu, hw, hgone.mpr ⟨List.cons_ne_nil _ _, hempty⟩, hempty⟩

end ConfigTree.Tree
