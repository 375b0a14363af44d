import ConfigTree.Proofs.Detection
import ConfigTree.Proofs.Insertion
import ConfigTree.Proofs.Entries
/-!
# What a removal leaves

A removal goes down to its path and prunes on the way back, by what comes back from below: nothing,
the child as it was, or another child. What is stored after it is what was stored before outside the
branch at its path, unless two different byte strings that are hashed for the tree or on the way
have one hash. Which nodes are left follows from that: a tree has no node without a value at or
below it, except for its root.
-/

namespace ConfigTree

namespace Node

variable {V : Type} {a : Algorithm} {strings : List Bytes}

def eraseChildHashed (n : Node V) (label : String) : List Bytes :=
  match n.child? label with
  | none => []
  | some _ => [(contentOf n.value (Table.erase label n.children)).encode]

/-- The contents hashed while the node at a path is removed, from the path up. -/
def eraseHashed (a : Algorithm) : Stamp → Path → Node V → List Bytes
  | _, [], _ => []
  | stamp, label :: rest, n =>
    match n.child? label with
    | none => []
    | some child =>
      eraseHashed a stamp.below rest child ++
        match erase a stamp.below rest child with
        | some child => n.insertChildHashed label child
        | none => n.eraseChildHashed label

section Below

variable {n c : Node V} {stamp : Stamp} {label : String} {rest : Path}

theorem erase_of_missing (hc : n.child? label = none) :
    n.erase a stamp (label :: rest) = some n := by
  simp only [erase, hc]

theorem erase_of_child (hc : n.child? label = some c) :
    n.erase a stamp (label :: rest) =
      match c.erase a stamp.below rest with
      | some c' => (n.insertChild a stamp label c').unlessVacant
      | none => (n.eraseChild a stamp label).unlessVacant := by
  rw [erase]
  split
  · next h => cases hc.symm.trans h
  · next h =>
    cases hc.symm.trans h
    rfl

/-- What a removal hashes below the node and at the node itself. -/
theorem eraseHashed_cons_subset (hc : n.child? label = some c)
    (hsub : n.eraseHashed a stamp (label :: rest) ⊆ strings) :
    c.eraseHashed a stamp.below rest ⊆ strings ∧
      (∀ c', c.erase a stamp.below rest = some c' → n.insertChildHashed label c' ⊆ strings) ∧
      (c.erase a stamp.below rest = none → n.eraseChildHashed label ⊆ strings) := by
  rw [eraseHashed, hc] at hsub
  obtain ⟨hbelow, hhere⟩ := List.append_subset.mp hsub
  refine ⟨hbelow, fun c' hc' => ?_, fun hnone => ?_⟩
  · rw [hc'] at hhere
    exact hhere
  · rw [hnone] at hhere
    exact hhere

end Below

theorem AllHashedIn.label_fits {n c : Node V} {label : String} (h : n.AllHashedIn a strings)
    (hc : n.child? label = some c) : (Bytes.ofString label).length < 2 ^ 64 :=
  h.here.fits _ (List.mem_map.mpr ⟨(label, c), child_mem hc, rfl⟩)

theorem AllHashedIn.eraseChild {n : Node V} (h : n.AllHashedIn a strings) (ho : n.Ordered)
    {label : String} (hsub : n.eraseChildHashed label ⊆ strings) (stamp : Stamp) :
    (n.eraseChild a stamp label).AllHashedIn a strings := by
  rw [Node.eraseChild]
  rw [eraseChildHashed] at hsub
  split
  · exact h
  · next hc =>
    rw [hc] at hsub
    refine allHashedIn_build (hsub List.mem_cons_self) (fun e he => ?_) fun label' c' hc' => ?_
    · obtain ⟨d, hd, rfl⟩ := List.mem_map.mp he
      have hmem : d ∈ n.children := (Table.erase_sublist label n.children).subset hd
      exact h.here.fits _ (List.mem_map.mpr ⟨d, hmem, rfl⟩)
    · exact h.child (Table.get?_of_erase ho.ascending hc')

theorem AllHashedIn.unlessVacant {n m : Node V} (h : n.AllHashedIn a strings)
    (hm : n.unlessVacant = some m) : m.AllHashedIn a strings :=
  (unlessVacant_eq_some hm).1 ▸ h

theorem AllHashedIn.erase {n m : Node V} (h : n.AllHashedIn a strings) (ho : n.Ordered)
    {stamp : Stamp} {path : Path} (hsub : n.eraseHashed a stamp path ⊆ strings)
    (hm : n.erase a stamp path = some m) : m.AllHashedIn a strings := by
  induction path generalizing n m stamp with
  | nil => cases hm
  | cons label rest ih =>
    cases hc : n.child? label with
    | none =>
      rw [erase_of_missing hc] at hm
      cases hm
      exact h
    | some c =>
      obtain ⟨hbelow, hkept, hgone⟩ := eraseHashed_cons_subset hc hsub
      rw [erase_of_child hc] at hm
      split at hm
      · next c' hc' =>
        have hnew := ih (h.child hc) (ho.child hc) hbelow hc'
        exact (h.insertChild hnew (h.label_fits hc) (hkept c' hc') stamp).unlessVacant hm
      · next hnone => exact (h.eraseChild ho (hgone hnone) stamp).unlessVacant hm

/-- The new child is found below its label, if a present one that stays for its hash stores the
same. -/
theorem stored?_insertChild {n c : Node V} {label : String}
    (hstays : ∀ d, n.child? label = some d → d.hash = c.hash →
      ∀ path, d.stored? path = c.stored? path)
    (stamp : Stamp) (path : Path) :
    (n.insertChild a stamp label c).stored? path =
      match path with
      | [] => n.value
      | label' :: rest =>
        if label' = label then c.stored? rest else n.stored? (label' :: rest) := by
  have hmap := map_stored?_insertChild (a := a) id
    (fun d hd hhash path => congrArg (Option.map id) (hstays d hd hhash path)) stamp path
  cases path with
  | nil => simpa using hmap
  | cons label' rest => simpa using hmap

theorem stored?_eraseChild {n : Node V} (ho : n.Ordered) (stamp : Stamp) (label : String)
    (path : Path) :
    (n.eraseChild a stamp label).stored? path =
      match path with
      | [] => n.value
      | label' :: rest => if label' = label then none else n.stored? (label' :: rest) := by
  rw [Node.eraseChild]
  split
  · next hc =>
    cases path with
    | nil => rfl
    | cons label' rest =>
      dsimp only
      split
      · next hl =>
        rw [hl, stored?_cons, hc]
        rfl
      · rfl
  · rw [stored?_build]
    cases path with
    | nil => rfl
    | cons label' rest =>
      dsimp only
      rw [stored?_cons]
      split
      · next hl =>
        rw [hl, Table.get?_erase_self ho.ascending]
        rfl
      · next hl => rw [Table.get?_erase_ne hl]; rfl

/-- A vacant node stores nothing, so that nothing is lost with it. -/
theorem stored?_unlessVacant (n : Node V) (path : Path) :
    (n.unlessVacant.bind fun m => m.stored? path) = n.stored? path := by
  rw [unlessVacant]
  split
  · next hv =>
    rw [isVacant, Bool.and_eq_true, Option.isNone_iff_eq_none, List.isEmpty_iff] at hv
    cases path with
    | nil => exact hv.1.symm
    | cons label rest =>
      rw [stored?_cons, child?, hv.2]
      rfl
  · rfl

/-- A removal below a child changes what is stored below the child's label, and nothing else. -/
theorem stored?_erase_cons {n c : Node V} (ho : n.Ordered) {stamp : Stamp} {label : String}
    {rest : Path} (hc : n.child? label = some c)
    (hstays : ∀ c', c.erase a stamp.below rest = some c' → c.hash = c'.hash →
      ∀ path, c.stored? path = c'.stored? path) (q : Path) :
    ((n.erase a stamp (label :: rest)).bind fun m => m.stored? q) =
      match q with
      | [] => n.value
      | label' :: q' =>
        if label' = label then (c.erase a stamp.below rest).bind fun m => m.stored? q'
        else n.stored? (label' :: q') := by
  rw [erase_of_child hc]
  cases hc' : c.erase a stamp.below rest with
  | none =>
    dsimp only
    rw [stored?_unlessVacant, stored?_eraseChild ho]
    rfl
  | some c' =>
    have hkept : ∀ d, n.child? label = some d → d.hash = c'.hash →
        ∀ path, d.stored? path = c'.stored? path := by
      intro d hd
      cases hc.symm.trans hd
      exact hstays c' hc'
    dsimp only
    rw [stored?_unlessVacant, stored?_insertChild hkept]
    rfl

/-- After a removal nothing is stored at or below its path, and elsewhere what was stored before. -/
theorem AllHashedIn.stored?_erase (hfree : CollisionFree (a.hashings strings)) {n : Node V}
    (h : n.AllHashedIn a strings) (ho : n.Ordered) {stamp : Stamp} {path : Path}
    (hsub : n.eraseHashed a stamp path ⊆ strings) (q : Path) :
    ((n.erase a stamp path).bind fun m => m.stored? q) =
      if path <+: q then none else n.stored? q := by
  induction path generalizing n stamp q with
  | nil => simp [Node.erase]
  | cons label rest ih =>
    cases hc : n.child? label with
    | none =>
      rw [erase_of_missing hc, Option.bind_some]
      split
      · next hq =>
        obtain ⟨below, rfl⟩ := hq
        rw [List.cons_append, stored?_cons, hc]
        rfl
      · rfl
    | some c =>
      obtain ⟨hbelow, -, -⟩ := eraseHashed_cons_subset hc hsub
      have hleft := ih (h.child hc) (ho.child hc) hbelow
      have hstays : ∀ c', c.erase a stamp.below rest = some c' → c.hash = c'.hash →
          ∀ path, c.stored? path = c'.stored? path := by
        -- a child that stays for its hash has the value hashes of the new one, hence its values
        intro c' hc' hhash path
        have hnew := AllHashedIn.erase (h.child hc) (ho.child hc) hbelow hc'
        have hvalue := valueHashAt?_eq_of_hash_eq
          (AllHashedIn.contentByHash (h.child hc) hnew hfree) hhash path
        have hpath := hleft path
        rw [hc', Option.bind_some] at hpath
        rw [hpath]
        split at hpath
        · next hin => simpa [valueHashAt?_eq, hpath, hin] using hvalue
        · next hout => rw [if_neg hout]
      rw [stored?_erase_cons ho hc hstays]
      cases q with
      | nil => simp [stored?, find?]
      | cons label' q =>
        by_cases hl : label' = label
        · simp [hl, hleft, stored?_cons, hc]
        · simp [hl, Ne.symm hl]

end Node

namespace Tree

variable {V : Type}

/-- The byte strings hashed while the node at a path is removed: the contents of the nodes that are
built, and of an empty root if nothing is left. -/
def eraseHashed (edit : Nat) (path : Path) (t : Tree V) : List Bytes :=
  t.root.eraseHashed t.algorithm ⟨edit, 0⟩ path ++
    match t.root.erase t.algorithm ⟨edit, 0⟩ path with
    | some _ => []
    | none => [(empty t.scheme edit).root.content.encode]

theorem exists_erase_eq_ok {path : Path} (hpath : path ≠ []) (edit : Nat) (t : Tree V) :
    ∃ u, t.erase edit path = .ok u := by
  rw [erase, if_neg hpath]
  split
  · exact ⟨_, rfl⟩
  · exact ⟨_, rfl⟩

/-- What the tree after a removal stores is what the removal left of the old root. -/
theorem stored?_of_erase {t u : Tree V} {edit : Nat} {path : Path} (h : t.erase edit path = .ok u)
    (q : Path) : u.root.stored? q =
      (t.root.erase t.algorithm ⟨edit, 0⟩ path).bind fun m => m.stored? q := by
  rw [root_of_erase h]
  cases t.root.erase t.algorithm ⟨edit, 0⟩ path with
  | none => exact Node.stored?_empty _ q
  | some root => rfl

/-- A removal leads from `t` to `u`. The byte strings hold what is hashed for `t` and on the way,
and no two different ones of them have one hash. -/
structure Erased (strings : List Bytes) (t u : Tree V) (edit : Nat) (path : Path) : Prop where
  eq_ok : t.erase edit path = .ok u
  sound : t.Sound
  hashed : t.AllHashedIn strings
  hashed_on_way : t.eraseHashed edit path ⊆ strings
  free : CollisionFree (t.algorithm.hashings strings)

theorem Sound.exists_erased {t u : Tree V} {edit : Nat} {path : Path} (ht : t.Sound)
    (hfree : CollisionFree (t.hashings ++ t.algorithm.hashings (t.eraseHashed edit path)))
    (hfits : t.LabelsFit) (h : t.erase edit path = .ok u) :
    ∃ strings, Erased strings t u edit path := by
  obtain ⟨strings, hhashed, hway, hfree⟩ := ht.exists_allHashedIn hfits hfree
  exact ⟨strings, h, ht, hhashed, hway, hfree⟩

section Erased

variable {strings : List Bytes} {t u : Tree V} {edit : Nat} {path : Path}

theorem Erased.sound_after (h : Erased strings t u edit path) : u.Sound := h.sound.erase h.eq_ok

/-- What a removal leaves was hashed before or on the way. -/
theorem Erased.hashed_after (h : Erased strings t u edit path) : u.AllHashedIn strings := by
  obtain ⟨hnodes, hroot⟩ := List.append_subset.mp h.hashed_on_way
  have ha : u.algorithm = t.algorithm := congrArg Scheme.algorithm (scheme_of_erase h.eq_ok)
  rw [AllHashedIn, ha, root_of_erase h.eq_ok]
  cases hr : t.root.erase t.algorithm ⟨edit, 0⟩ path with
  | some root => exact Node.AllHashedIn.erase h.hashed t.ordered hnodes hr
  | none =>
    rw [hr] at hroot
    exact Node.allHashedIn_empty (hroot List.mem_cons_self)

/-- After a removal there is no value at or below its path, and elsewhere the one from before. -/
theorem Erased.get?_eq (h : Erased strings t u edit path) (q : Path) :
    u.get? q = if path <+: q then none else t.get? q := by
  have hnodes := (List.append_subset.mp h.hashed_on_way).1
  have hstored := Node.AllHashedIn.stored?_erase h.free h.hashed t.ordered hnodes q
  rw [Tree.get?_eq, Tree.get?_eq, stored?_of_erase h.eq_ok, hstored]
  exact apply_ite ..

end Erased

theorem Sound.get?_erase {t u : Tree V} {edit : Nat} {path : Path} (ht : t.Sound)
    (hfree : CollisionFree (t.hashings ++ t.algorithm.hashings (t.eraseHashed edit path)))
    (hfits : t.LabelsFit) (h : t.erase edit path = .ok u) (q : Path) :
    u.get? q = if path <+: q then none else t.get? q := by
  obtain ⟨strings, he⟩ := ht.exists_erased hfree hfits h
  exact he.get?_eq q

/-- A removal leaves exactly the values outside the branch at its path, and exactly the nodes at or
above them, with the root. So what goes is that branch, and the nodes on the way to it that have no
other value at or below them. -/
theorem Reachable.erase_prunes {t : Tree V} (ht : t.Reachable) {path : Path} (hpath : path ≠ [])
    (edit : Nat)
    (hfree : CollisionFree (t.hashings ++ t.algorithm.hashings (t.eraseHashed edit path)))
    (hfits : t.LabelsFit) :
    ∃ u, t.erase edit path = .ok u ∧
      (∀ q, u.get? q = if path <+: q then none else t.get? q) ∧
      (∀ q, (u.find? q).isSome ↔
        q = [] ∨ ∃ below v, t.get? (q ++ below) = some v ∧ ¬ path <+: q ++ below) ∧
      (∀ q, (t.find? q).isSome → (u.find? q = none ↔ path <+: q ∨ q ≠ [] ∧ q <+: path ∧
        ∀ below v, t.get? (q ++ below) = some v → path <+: q ++ below)) := by
  obtain ⟨u, hu⟩ := exists_erase_eq_ok hpath edit t
  have hget := ht.sound.get?_erase hfree hfits hu
  have hnodes : ∀ q, (u.find? q).isSome ↔
      q = [] ∨ ∃ below v, t.get? (q ++ below) = some v ∧ ¬ path <+: q ++ below := by
    intro q
    rw [(ht.erase hu).sound.find?_isSome_iff]
    simp only [hget, Option.ite_none_left_eq_some, and_comm]
  refine ⟨u, hu, hget, hnodes, fun q hq => ?_⟩
  rw [← Option.not_isSome_iff_eq_none, hnodes]
  constructor
  · intro hgone
    obtain ⟨hne, hall⟩ := not_or.mp hgone
    have hwithin : ∀ below v, t.get? (q ++ below) = some v → path <+: q ++ below :=
      fun below v hv => Decidable.not_not.mp fun hout => hall ⟨below, v, hv, hout⟩
    obtain ⟨below, v, hv⟩ := ((ht.sound.find?_isSome_iff q).mp hq).resolve_left hne
    -- the path leads to the same value as `q` does, so one of them leads to the other
    rcases List.prefix_or_prefix_of_prefix (hwithin below v hv) (List.prefix_append q below)
      with hin | habove
    · exact .inl hin
    · exact .inr ⟨hne, habove, hwithin⟩
  · rintro (hin | ⟨hne, -, hwithin⟩)
    · rintro (rfl | ⟨below, v, -, hout⟩)
      · exact hpath (List.prefix_nil.mp hin)
      · exact hout (hin.trans (List.prefix_append q below))
    · rintro (hroot | ⟨below, v, hv, hout⟩)
      · exact hne hroot
      · exact hout (hwithin below v hv)

/-- Under `a` a branch is removed together with the node above it, which has no value of its own,
but not the valued node above that one. -/
theorem erase_prunes_up_to_value :
    let s : Scheme String := ⟨.blake3, Encoding.utf8⟩
    let t := (empty s 0).replay 1
      [.insert ["a"] "1", .insert ["a", "b", "c"] "2", .insert ["a", "b", "c", "d"] "3",
        .insert ["e"] "4"]
    ∃ u, t.erase 5 ["a", "b", "c"] = .ok u ∧ u.get? ["a", "b", "c", "d"] = none ∧
      u.find? ["a", "b"] = none ∧ u.get? ["a"] = some "1" ∧ (u.find? ["e"]).isSome := by
  intro s t
  have ht : t.Reachable := .replay (.empty s 0) 1 _
  have hall : CollisionFree (t.hashings ++ t.algorithm.hashings (t.eraseHashed 5 ["a", "b", "c"])) ∧
      t.LabelsFit ∧ t.get? ["a"] = some "1" ∧ t.get? ["e"] = some "4" ∧
      (t.find? ["a", "b"]).isSome ∧
      ∀ e ∈ t.entries, ["a", "b"] <+: e.1 → ["a", "b", "c"] <+: e.1 := by decide +kernel +zetaReduce
  obtain ⟨hfree, hfits, ha, he, hb, hwithin⟩ := hall
  have hpath : ["a", "b", "c"] ≠ [] := List.cons_ne_nil _ _
  obtain ⟨u, hu, hget, hnodes, hgone⟩ := ht.erase_prunes hpath 5 hfree hfits
  have hbelow : ∀ below v, t.get? (["a", "b"] ++ below) = some v →
      ["a", "b", "c"] <+: ["a", "b"] ++ below := fun below v hv =>
    hwithin _ (mem_entries_iff.mpr hv) (List.prefix_append ["a", "b"] below)
  refine ⟨u, hu, ?_, ?_, ?_, ?_⟩
  · rw [hget, if_pos (by decide)]
  · exact (hgone ["a", "b"] hb).mpr (.inr ⟨List.cons_ne_nil _ _, by decide, hbelow⟩)
  · rw [hget, if_neg (by decide), ha]
  · exact (hnodes ["e"]).mpr (.inr ⟨[], "4", he, by decide⟩)

end Tree

end ConfigTree
