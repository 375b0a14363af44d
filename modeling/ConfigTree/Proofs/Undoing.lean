import ConfigTree.Proofs.Rebuilding
import ConfigTree.Proofs.Sharing
/-!
# A removal takes back an insertion

If a tree has no node at a path, the removal of what was inserted there leads back to the tree: all
values, all nodes and all hashes are as before. The insertion makes nodes on the way, as many as
were missing, and the removal finds these without a value below them, whereas each older node on the
way bears a value or is the root. Nothing is assumed of the hash function. Where the new child of a
node happens to have the hash of the present one, the insertion changes nothing from there upwards,
and neither does the removal.
-/

namespace ConfigTree

namespace Node

variable {V : Type} {scheme : Scheme V}

/-- Values alone determine the hash of a sound node. -/
theorem Sound.hash_eq_of_stored? {n m : Node V} (hn : n.Sound scheme) (hm : m.Sound scheme)
    (hno : n.Ordered) (hmo : m.Ordered) (h : ∀ path, n.stored? path = m.stored? path) :
    n.hash = m.hash := by
  have hcontent : n.content = m.content :=
    hn.content_eq hm hno hmo rfl fun path => by rw [valueHashAt?_eq, valueHashAt?_eq, h]
  rw [hn.here.hash_eq, hm.here.hash_eq, hcontent]

/-- What is stored below a label, where a missing child counts as an empty one. -/
theorem stored?_childOrEmpty (n : Node V) (a : Algorithm) (stamp : Stamp) (label : String)
    (path : Path) :
    ((n.child? label).getD (empty a stamp)).stored? path = n.stored? (label :: path) := by
  rw [stored?_cons]
  cases n.child? label with
  | none => exact stored?_empty stamp path
  | some c => rfl

theorem Ordered.childOrEmpty {n : Node V} (h : n.Ordered) (a : Algorithm) (label : String)
    (stamp : Stamp) : ((n.child? label).getD (empty a stamp)).Ordered := by
  cases hc : n.child? label with
  | none => exact ordered_empty a stamp
  | some c => exact h.child hc

/-- A child that bears a value is no missing one. -/
theorem child?_eq_some_of_bears {n : Node V} {a : Algorithm} {stamp : Stamp} {label : String}
    (h : ((n.child? label).getD (empty a stamp)).Bears) :
    n.child? label = some ((n.child? label).getD (empty a stamp)) := by
  cases hc : n.child? label with
  | some c => rfl
  | none =>
    obtain ⟨path, v, hv⟩ := h
    rw [stored?_childOrEmpty, stored?_cons, hc] at hv
    cases hv

/-- If an insertion and a removal leave a node that stores what was stored before, it is one that
bears a value, and its hash is the one from before. -/
theorem Sound.bears_of_erase_insert {n m : Node V} (h : n.Sound scheme) (ho : n.Ordered)
    {v : Stored V} (hv : scheme.hashValue v.value = .ok v.hash) {stamp stamp' : Stamp}
    {path : Path}
    (hm : (n.insert scheme.algorithm v stamp path).erase scheme.algorithm stamp' path = some m)
    (hstored : ∀ path, m.stored? path = n.stored? path) : n.Bears ∧ m.hash = n.hash := by
  have hordered := ho.insert scheme.algorithm v stamp path
  obtain ⟨hinserted, hbears⟩ := h.insert hv stamp path
  obtain ⟨hleft, hleftBears⟩ := hinserted.erase hordered hm
  obtain ⟨q, w, hw⟩ := hleftBears hbears
  rw [hstored] at hw
  exact ⟨⟨q, w, hw⟩, hleft.hash_eq_of_stored? h (hordered.erase hm) ho hstored⟩

/-- A removal below a child that was put in just before, and that was not taken for the present one:
below its label what is left of the new child is found, and elsewhere what was there before. -/
theorem stored?_erase_insertChild {n c : Node V} {a : Algorithm} (ho : n.Ordered)
    (hc : c.Ordered) {label : String} (hne : (n.child? label).map hash ≠ some c.hash)
    {stamp stamp' : Stamp} {rest : Path}
    (hstays : ∀ c', c.erase a stamp'.below rest = some c' → c.hash ≠ c'.hash) (q : Path) :
    (((n.insertChild a stamp label c).erase a stamp' (label :: rest)).bind
        fun m => m.stored? q) =
      match q with
      | [] => n.value
      | label' :: q' =>
        if label' = label then (c.erase a stamp'.below rest).bind fun m => m.stored? q'
        else n.stored? (label' :: q') := by
  have hordered := ho.insertChild hc a stamp label
  have hchild : (n.insertChild a stamp label c).child? label = some c := by
    rw [insertChild, if_neg hne]
    exact (Table.get?_insert ..).trans (if_pos rfl)
  rw [stored?_erase_cons hordered hchild fun c' hc' he => absurd he (hstays c' hc')]
  cases q with
  | nil => exact value_insertChild n c stamp label
  | cons label' q =>
    dsimp only
    split
    · rfl
    · next hl => rw [stored?_cons, child?_insertChild_of_ne hl, stored?_cons]

/-- If nothing is stored at or below a path, a removal there after an insertion leaves what was
stored before the two, and nothing else. -/
theorem Sound.stored?_erase_insert {n : Node V} (h : n.Sound scheme) (ho : n.Ordered)
    {v : Stored V} (hv : scheme.hashValue v.value = .ok v.hash) {path : Path}
    (hnone : ∀ below, n.stored? (path ++ below) = none) (stamp stamp' : Stamp) (q : Path) :
    (((n.insert scheme.algorithm v stamp path).erase scheme.algorithm stamp' path).bind
      fun m => m.stored? q) = n.stored? q := by
  induction path generalizing n stamp stamp' q with
  | nil => exact (hnone q).symm
  | cons label rest ih =>
    have hold := h.childOrEmpty label stamp.below
    have holdOrdered := ho.childOrEmpty scheme.algorithm label stamp.below
    have hbelow := stored?_childOrEmpty n scheme.algorithm stamp.below label
    have hback := ih hold holdOrdered fun below => (hbelow _).trans (hnone below)
    rw [Node.insert]
    by_cases hsame : (n.child? label).map hash = some (((n.child? label).getD
        (empty scheme.algorithm stamp.below)).insert scheme.algorithm v stamp.below rest).hash
    · -- the insertion went unnoticed, so that there is nothing to remove
      have hmissing := h.find?_eq_none (List.cons_ne_nil label rest) hnone
      rw [Node.insertChild, if_pos hsame, erase_eq_self hmissing]
      rfl
    · rw [stored?_erase_insertChild ho (holdOrdered.insert _ v stamp.below rest) hsame]
      · cases q with
        | nil => rfl
        | cons label' q =>
          dsimp only
          split
          · next hl => rw [hl, hback, hbelow]
          · rfl
      · -- what is left of the new child has the hash of the old one, which is another one
        intro c hc hhash
        obtain ⟨hbears, hagain⟩ := hold.bears_of_erase_insert holdOrdered hv hc fun path => by
          rw [← hback stamp.below stamp'.below path, hc]
          rfl
        have hchild := congrArg (Option.map hash) (child?_eq_some_of_bears hbears)
        exact hsame (hchild.trans (congrArg some (hagain.symm.trans hhash.symm)))

end Node

namespace Tree

variable {V : Type}

/-- Where there is no node, the removal of what was inserted leaves the values of the tree. -/
theorem Sound.get?_erase_insert {t u w : Tree V} (ht : t.Sound) {path : Path}
    (hmissing : t.find? path = none) {v : V} {edit edit' : Nat}
    (hu : t.insert edit path v = .ok u) (hw : u.erase edit' path = .ok w) (q : Path) :
    w.get? q = t.get? q := by
  obtain ⟨hash, hv, hs, hr⟩ := insert_eq_ok hu
  have hnone : ∀ below, t.root.stored? (path ++ below) = none := fun below => by
    rw [Node.stored?, Node.find?_append, ← find?, hmissing]
    rfl
  have hstored := Node.Sound.stored?_erase_insert (v := ⟨v, hash⟩) ht t.ordered hv hnone
    ⟨edit, 0⟩ ⟨edit', 0⟩ q
  rw [get?_eq, get?_eq, ← hstored, stored?_of_erase hw, algorithm, hs, hr]
  rfl

/-- The removal of what was inserted at a path without a node leads back: to the same entries, and
at every path to the same hash, or to no node where there was none. -/
theorem Reachable.erase_undoes_insert {t : Tree V} (ht : t.Reachable) {path : Path}
    (hmissing : t.find? path = none) {v : V} {hash : Hash} (hv : t.scheme.hashValue v = .ok hash)
    (edit edit' : Nat) :
    ∃ u w, t.insert edit path v = .ok u ∧ u.erase edit' path = .ok w ∧ w.hash = t.hash ∧
      w.entries = t.entries ∧ (∀ q, (w.find? q).isSome ↔ (t.find? q).isSome) ∧
      ∀ q, w.hash? q = t.hash? q := by
  have hpath : path ≠ [] := fun hroot => by
    rw [hroot] at hmissing
    cases hmissing
  obtain ⟨u, hu, hus⟩ := exists_insert_eq_ok hpath ⟨hash, hv⟩ edit
  obtain ⟨w, hw⟩ := exists_erase_eq_ok hpath edit' u
  have hget := ht.sound.get?_erase_insert hmissing hu hw
  have hwsound : w.Sound := (ht.sound.insert hu).erase hw
  have hhash := hwsound.hash?_eq_of_get? ht.sound ((scheme_of_erase hw).trans hus) hget
  refine ⟨u, w, hu, hw, Option.some.inj (hhash []), entries_eq_of_get?_eq hget, fun q => ?_, hhash⟩
  rw [hwsound.find?_isSome_iff, ht.sound.find?_isSome_iff]
  simp only [hget]

/-- The path leaves the tree below a value, and two nodes are made for it; the removal takes these
two away again, and not the valued node above them. In an empty tree it takes away all. -/
theorem erase_undoes_insert_below_value :
    let s : Scheme String := ⟨.sha256, Encoding.utf8⟩
    let t := (empty s 0).replay 1 [.insert ["a"] "1", .insert ["a", "b"] "2"]
    (∃ u w, t.insert 3 ["a", "c", "d"] "3" = .ok u ∧ u.erase 4 ["a", "c", "d"] = .ok w ∧
      w.hash = t.hash ∧ w.entries = [(["a"], "1"), (["a", "b"], "2")] ∧
      w.find? ["a", "c"] = none ∧ (w.find? ["a", "b"]).isSome) ∧
    ∃ u w, (empty s 0).insert 1 ["a", "b"] "1" = .ok u ∧ u.erase 2 ["a", "b"] = .ok w ∧
      w.hash = (empty s 0).hash ∧ w.entries = [] ∧ w.find? ["a"] = none := by
  intro s t
  have ht : t.Reachable := .replay (.empty s 0) 1 _
  have hall : (t.find? ["a", "c", "d"]).isSome = false ∧ (t.find? ["a", "c"]).isSome = false ∧
      (t.find? ["a", "b"]).isSome ∧ t.entries = [(["a"], "1"), (["a", "b"], "2")] := by
    decide +kernel +zetaReduce
  obtain ⟨hd, hc, hb, hentries⟩ := hall
  have hmissing : t.find? ["a", "c", "d"] = none := by simpa using hd
  have hmissing' : (empty s 0).find? ["a", "b"] = none := rfl
  constructor
  · obtain ⟨u, w, hu, hw, hhash, hlisted, hnodes, -⟩ :=
      ht.erase_undoes_insert hmissing (v := "3") rfl 3 4
    refine ⟨u, w, hu, hw, hhash, hlisted.trans hentries, ?_, (hnodes _).mpr hb⟩
    rw [← Option.not_isSome_iff_eq_none, hnodes, hc]
    decide
  · obtain ⟨u, w, hu, hw, hhash, hlisted, hnodes, -⟩ :=
      (Reachable.empty s 0).erase_undoes_insert hmissing' (v := "1") rfl 1 2
    refine ⟨u, w, hu, hw, hhash, hlisted, ?_⟩
    rw [← Option.not_isSome_iff_eq_none, hnodes]
    decide

end Tree

end ConfigTree
