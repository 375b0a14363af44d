import ConfigTree.Proofs.Movement
/-!
# What an edited tree shares with the old one

An edit that changes nothing returns the root that it was given, and only such an edit does: a root
that an edit builds bears the number of the edit, which no older node bears. All nodes off the path
of an edit are those of the old tree, whatever the hash function; that a change is never mistaken
for none rests on the hashes that are compared on the way.
-/

namespace ConfigTree

namespace Node

variable {V : Type} {a : Algorithm}

theorem child?_insertChild_of_ne {n c : Node V} {label label' : String} (h : label' ≠ label)
    (stamp : Stamp) : (n.insertChild a stamp label c).child? label' = n.child? label' := by
  rw [insertChild]
  split
  · rfl
  · exact (Table.get?_insert ..).trans (if_neg h)

theorem child?_eraseChild_of_ne {n : Node V} {label label' : String} (h : label' ≠ label)
    (stamp : Stamp) : (n.eraseChild a stamp label).child? label' = n.child? label' := by
  rw [eraseChild]
  split
  · rfl
  · exact Table.get?_erase_ne h _

/-- What is found below the present child and below the new one is found below the label, whichever
of them is there in the end. -/
theorem find?_insertChild {n m c d : Node V} {label : String} {path : Path}
    (hd : n.child? label = some d) (hdm : d.find? path = some m) (hcm : c.find? path = some m)
    (stamp : Stamp) : (n.insertChild a stamp label c).find? (label :: path) = some m := by
  rw [insertChild]
  split
  · rw [find?_cons, hd]
    exact hdm
  · have hc : (build a stamp n.value (Table.insert label c n.children)).child? label = some c :=
      (Table.get?_insert ..).trans (if_pos rfl)
    rw [find?_cons, hc]
    exact hcm

/-- A node with something below it is not vacant. -/
theorem unlessVacant_eq_self {n m : Node V} {label : String} {path : Path}
    (h : n.find? (label :: path) = some m) : n.unlessVacant = some n := by
  refine if_neg fun hv => ?_
  rw [isVacant, Bool.and_eq_true, List.isEmpty_iff] at hv
  obtain ⟨c, hc, -⟩ := Option.bind_eq_some_iff.mp h
  rw [child?, hv.2] at hc
  cases hc

theorem find?_insert_of_not_prefix {n m : Node V} {v : Stored V} {path q : Path}
    (hq : ¬ q <+: path) (hm : n.find? q = some m) (stamp : Stamp) :
    (n.insert a v stamp path).find? q = some m := by
  induction path generalizing n stamp q with
  | nil =>
    cases q with
    | nil => exact absurd (List.prefix_refl []) hq
    | cons label q =>
      rw [insert, setValue]
      split <;> exact hm
  | cons label rest ih =>
    cases q with
    | nil => exact absurd List.nil_prefix hq
    | cons label' q =>
      by_cases hl : label' = label
      · cases hl
        obtain ⟨c, hc, hcm⟩ := Option.bind_eq_some_iff.mp hm
        have hrest : ¬ q <+: rest := fun h => hq (List.cons_prefix_cons.mpr ⟨rfl, h⟩)
        rw [insert, hc, Option.getD_some]
        exact find?_insertChild hc hcm (ih hrest hcm stamp.below) stamp
      · rw [insert, find?_cons, child?_insertChild_of_ne hl]
        exact hm

theorem find?_erase_of_apart {n m : Node V} {path q : Path} (hq : ¬ q <+: path)
    (hpath : ¬ path <+: q) (hm : n.find? q = some m) (stamp : Stamp) :
    ∃ k, n.erase a stamp path = some k ∧ k.find? q = some m := by
  induction path generalizing n stamp q with
  | nil => exact absurd List.nil_prefix hpath
  | cons label rest ih =>
    cases q with
    | nil => exact absurd List.nil_prefix hq
    | cons label' q =>
      cases hc : n.child? label with
      | none => exact ⟨n, erase_of_missing hc, hm⟩
      | some c =>
        -- the node stays, because what is found below it is still found there
        have hstays : ∀ k : Node V, k.find? (label' :: q) = some m →
            ∃ l, k.unlessVacant = some l ∧ l.find? (label' :: q) = some m :=
          fun k hk => ⟨k, unlessVacant_eq_self hk, hk⟩
        rw [erase_of_child hc]
        by_cases hl : label' = label
        · cases hl
          obtain ⟨d, hd, hdm⟩ := Option.bind_eq_some_iff.mp hm
          cases hc.symm.trans hd
          have hrest : ¬ q <+: rest := fun h => hq (List.cons_prefix_cons.mpr ⟨rfl, h⟩)
          have hbelow : ¬ rest <+: q := fun h => hpath (List.cons_prefix_cons.mpr ⟨rfl, h⟩)
          obtain ⟨c', hc', hcm⟩ := ih hrest hbelow hdm stamp.below
          rw [hc']
          exact hstays _ (find?_insertChild hc hdm hcm stamp)
        · split
          · refine hstays _ ?_
            rw [find?_cons, child?_insertChild_of_ne hl]
            exact hm
          · refine hstays _ ?_
            rw [find?_cons, child?_eraseChild_of_ne hl]
            exact hm

/-- The removal of what is not there changes nothing. -/
theorem erase_eq_self {n : Node V} {path : Path} (h : n.find? path = none) (stamp : Stamp) :
    n.erase a stamp path = some n := by
  induction path generalizing n stamp with
  | nil => cases h
  | cons label rest ih =>
    cases hc : n.child? label with
    | none => exact erase_of_missing hc
    | some c =>
      rw [find?_cons, hc] at h
      rw [erase_of_child hc, ih h]
      dsimp only
      rw [insertChild_eq_self hc, unlessVacant_eq_self (find?_child hc)]

theorem insertChild_eq_self_or_stamp (n c : Node V) (stamp : Stamp) (label : String) :
    n.insertChild a stamp label c = n ∨ (n.insertChild a stamp label c).stamp = stamp := by
  rw [insertChild]
  split
  · exact .inl rfl
  · exact .inr rfl

theorem insert_eq_self_or_stamp (n : Node V) (v : Stored V) (stamp : Stamp) (path : Path) :
    n.insert a v stamp path = n ∨ (n.insert a v stamp path).stamp = stamp := by
  cases path with
  | nil =>
    rw [insert, setValue]
    split
    · exact .inl rfl
    · exact .inr rfl
  | cons label rest => exact insertChild_eq_self_or_stamp n _ stamp label

theorem eq_self_or_stamp_of_erase {n m : Node V} {stamp : Stamp} {path : Path}
    (h : n.erase a stamp path = some m) : m = n ∨ m.stamp = stamp := by
  cases path with
  | nil => cases h
  | cons label rest =>
    cases hc : n.child? label with
    | none => exact .inl (Option.some.inj ((erase_of_missing hc).symm.trans h)).symm
    | some c =>
      rw [erase_of_child hc] at h
      split at h
      · exact (unlessVacant_eq_some h).1 ▸ insertChild_eq_self_or_stamp n _ stamp label
      · rw [← (unlessVacant_eq_some h).1, eraseChild, hc]
        exact .inr rfl

/-- The numbers of the edits that built the node and the nodes below it are among these. -/
abbrev StampedIn (numbers : Nat → Prop) (n : Node V) : Prop :=
  n.Everywhere fun m => numbers m.stamp.edit

variable {numbers : Nat → Prop} {stamp : Stamp}

theorem stampedIn_build (hs : numbers stamp.edit) {value : Option (Stored V)}
    {children : List (String × Node V)}
    (hchild : ∀ label c, Table.get? label children = some c → c.StampedIn numbers) :
    (build a stamp value children).StampedIn numbers :=
  everywhere_iff.mpr ⟨hs, hchild⟩

theorem stampedIn_empty (hs : numbers stamp.edit) :
    (empty a stamp : Node V).StampedIn numbers :=
  stampedIn_build hs fun _ _ h => nomatch h

theorem StampedIn.insertChild {n c : Node V} (h : n.StampedIn numbers)
    (hc : c.StampedIn numbers) (hs : numbers stamp.edit) (label : String) :
    (n.insertChild a stamp label c).StampedIn numbers := by
  rw [Node.insertChild]
  split
  · exact h
  · refine stampedIn_build hs fun label' d hd => ?_
    rw [Table.get?_insert] at hd
    split at hd
    · cases hd
      exact hc
    · exact h.child hd

theorem StampedIn.insert {n : Node V} (h : n.StampedIn numbers) (hs : numbers stamp.edit)
    (v : Stored V) (path : Path) : (n.insert a v stamp path).StampedIn numbers := by
  induction path generalizing n stamp with
  | nil =>
    rw [Node.insert, Node.setValue]
    split
    · exact h
    · exact stampedIn_build hs fun _ _ hc => h.child hc
  | cons label rest ih =>
    have hbelow : numbers stamp.below.edit := hs
    have hchild : ((n.child? label).getD (empty a stamp.below)).StampedIn numbers :=
      h.childOr fun _ => stampedIn_empty hbelow
    exact h.insertChild (ih hchild hbelow) hs label

theorem StampedIn.erase {n m : Node V} (h : n.StampedIn numbers) (ho : n.Ordered)
    (hs : numbers stamp.edit) {path : Path} (hm : n.erase a stamp path = some m) :
    m.StampedIn numbers := by
  induction path generalizing n m stamp with
  | nil => cases hm
  | cons label rest ih =>
    cases hc : n.child? label with
    | none => exact Option.some.inj ((erase_of_missing hc).symm.trans hm) ▸ h
    | some c =>
      rw [erase_of_child hc] at hm
      split at hm
      · next c' hc' =>
        have hbelow : numbers stamp.below.edit := hs
        have hnew := ih (h.child hc) (ho.child hc) hbelow hc'
        exact (unlessVacant_eq_some hm).1 ▸ h.insertChild hnew hs label
      · rw [← (unlessVacant_eq_some hm).1, Node.eraseChild, hc]
        exact stampedIn_build hs fun _ _ hd => h.child (Table.get?_of_erase ho.ascending hd)

end Node

namespace Tree

variable {V : Type}

/-- No node of the tree bears the number: no edit that it comes from was given it. -/
def Unmarked (edit : Nat) (t : Tree V) : Prop := t.root.StampedIn (· ≠ edit)

theorem stampedIn_edited {numbers : Nat → Prop} {t : Tree V} (h : t.root.StampedIn numbers)
    {number : Nat} (hnumber : numbers number) (e : Edit V) :
    (t.edited number e).root.StampedIn numbers := by
  refine edited_induction (P := fun u => u.root.StampedIn numbers) h (fun path v u _ hu => ?_)
    (fun path u _ hu => ?_) fun path u _ hu => ?_
  · obtain ⟨hash, -, -, hr⟩ := insert_eq_ok hu
    rw [hr]
    exact h.insert hnumber _ path
  · rw [root_of_erase hu]
    cases hr : t.root.erase t.algorithm ⟨number, 0⟩ path with
    | none => exact Node.stampedIn_empty hnumber
    | some root => exact h.erase t.ordered hnumber hr
  · exact Node.Everywhere.find? h (subtree?_eq_some.mp hu).1

/-- Edits that are numbered one after another leave all later numbers unused. -/
theorem unmarked_replay {t : Tree V} {number : Nat} (h : t.root.StampedIn (· < number))
    (edits : List (Edit V)) : (t.replay number edits).Unmarked (number + edits.length) := by
  induction edits generalizing number t with
  | nil => exact fun path n hn => Nat.ne_of_lt (h path n hn)
  | cons e rest ih =>
    have hlater : t.root.StampedIn (· < number + 1) := fun path n hn =>
      Nat.lt_succ_of_lt (h path n hn)
    have hrest := ih (stampedIn_edited hlater (Nat.lt_succ_self number) e)
    rw [Nat.add_right_comm] at hrest
    exact hrest

/-- A root that is the old one or bears a new number is the same instance as the old one exactly
if it is equal to it. -/
theorem Unmarked.sameRoot_iff {t u : Tree V} {edit : Nat} (ht : t.Unmarked edit)
    (hu : u.root = t.root ∨ u.root.stamp = ⟨edit, 0⟩) :
    t.sameRoot u = true ↔ u.root = t.root := by
  rw [sameRoot, Node.same, decide_eq_true_eq]
  refine ⟨fun hstamp => hu.resolve_right fun hedit => ?_, fun he => congrArg Node.stamp he.symm⟩
  exact ht.here (congrArg Stamp.edit (hstamp.trans hedit))

theorem Unmarked.sameRoot_insert_iff {t u : Tree V} {edit : Nat} (ht : t.Unmarked edit)
    {path : Path} {v : V} (h : t.insert edit path v = .ok u) :
    t.sameRoot u = true ↔ u.root = t.root := by
  obtain ⟨hash, -, -, hr⟩ := insert_eq_ok h
  exact ht.sameRoot_iff (hr ▸ Node.insert_eq_self_or_stamp t.root _ _ path)

theorem Unmarked.sameRoot_erase_iff {t u : Tree V} {edit : Nat} (ht : t.Unmarked edit)
    {path : Path} (h : t.erase edit path = .ok u) : t.sameRoot u = true ↔ u.root = t.root := by
  refine ht.sameRoot_iff ?_
  rw [root_of_erase h]
  cases hr : t.root.erase t.algorithm ⟨edit, 0⟩ path with
  | none => exact .inr rfl
  | some root => exact Node.eq_self_or_stamp_of_erase hr

theorem hash?_eq_of_root_eq {t u : Tree V} (h : u.root = t.root) (q : Path) :
    u.hash? q = t.hash? q := by
  rw [hash?, hash?, find?, find?, h]

variable {strings : List Bytes}

section Inserted

variable {t u : Tree V} {edit : Nat} {path : Path} {v : V}

theorem Inserted.root_eq (h : Inserted strings t u edit path v)
    (hkept : t.valueHash? path = (t.scheme.hashValue v).toOption) : u.root = t.root := by
  obtain ⟨hash, hv, -, hr⟩ := insert_eq_ok h.eq_ok
  rw [hv] at hkept
  rw [hr]
  exact Node.insert_eq_self (n := t.root) (v := ⟨v, hash⟩) hkept _

/-- An insertion leaves the hash of the root exactly if the value hash at its path does not
change. -/
theorem Inserted.hash_eq_iff (h : Inserted strings t u edit path v) :
    u.hash = t.hash ↔ t.valueHash? path = (t.scheme.hashValue v).toOption := by
  constructor
  · intro he
    refine Decidable.not_not.mp fun hchanged => ?_
    exact (h.hash?_ne_iff hchanged []).mpr List.nil_prefix (congrArg some he)
  · exact fun hkept => congrArg Node.hash (h.root_eq hkept)

/-- An insertion leaves the root itself exactly if it leaves its hash. -/
theorem Inserted.root_eq_iff (h : Inserted strings t u edit path v) :
    u.root = t.root ↔ t.valueHash? path = (t.scheme.hashValue v).toOption :=
  ⟨fun he => h.hash_eq_iff.mp (congrArg Node.hash he), h.root_eq⟩

end Inserted

/-- A removal leaves the root exactly if there is no node at its path. -/
theorem Erased.root_eq_iff {t u : Tree V} {edit : Nat} {path : Path}
    (h : Erased strings t u edit path) (hpath : path ≠ []) :
    u.root = t.root ↔ t.find? path = none := by
  constructor
  · intro he
    refine Option.not_isSome_iff_eq_none.mp fun hn => ?_
    exact (h.hash?_ne_iff hpath hn []).mpr (.inl List.nil_prefix) (hash?_eq_of_root_eq he [])
  · intro hnone
    rw [root_of_erase h.eq_ok, Node.erase_eq_self hnone]
    rfl

/-- An insertion returns the very root of the tree exactly if the value at its path has the hash of
the new one, a removal exactly if there is no node at its path. All nodes at other paths than those
on the way, and than those that are removed, are the nodes of the old tree, with their stamps. The
number of the edit is to be a new one, because the nodes that the edit builds are known by it. -/
theorem Reachable.shares {t : Tree V} (ht : t.Reachable) {path : Path} (hpath : path ≠ [])
    {edit : Nat} (hnew : t.Unmarked edit) (hfits : t.LabelsFit) :
    (∀ v hash, t.scheme.hashValue v = .ok hash →
      (∀ label ∈ path, (Bytes.ofString label).length < 2 ^ 64) →
      CollisionFree (t.hashings ++ t.algorithm.hashings (t.insertHashed edit path v)) →
      ∃ u, t.insert edit path v = .ok u ∧
        (t.sameRoot u = true ↔
          ∃ w, t.get? path = some w ∧ t.scheme.hashValue w = .ok hash) ∧
        ∀ q n, t.find? q = some n → ¬ q <+: path → u.find? q = some n) ∧
    (CollisionFree (t.hashings ++ t.algorithm.hashings (t.eraseHashed edit path)) →
      ∃ u, t.erase edit path = .ok u ∧ (t.sameRoot u = true ↔ t.find? path = none) ∧
        ∀ q n, t.find? q = some n → ¬ q <+: path → ¬ path <+: q → u.find? q = some n) := by
  constructor
  · intro v hash hv hlabels hfree
    obtain ⟨u, hu, -⟩ := exists_insert_eq_ok hpath ⟨hash, hv⟩ edit
    obtain ⟨strings, hi⟩ := ht.sound.exists_inserted hfree hfits hlabels hu
    have hroot := hi.root_eq_iff
    rw [hv] at hroot
    refine ⟨u, hu, ?_, fun q n hn hq => ?_⟩
    · exact (hnew.sameRoot_insert_iff hu).trans (hroot.trans ht.sound.valueHash?_eq_some_iff)
    · obtain ⟨hash', -, -, hr⟩ := insert_eq_ok hu
      rw [find?, hr]
      exact Node.find?_insert_of_not_prefix hq hn _
  · intro hfree
    obtain ⟨u, hu⟩ := exists_erase_eq_ok hpath edit t
    obtain ⟨strings, he⟩ := ht.sound.exists_erased hfree hfits hu
    have hroot := he.root_eq_iff hpath
    refine ⟨u, hu, (hnew.sameRoot_erase_iff hu).trans hroot, fun q n hn hq hbelow => ?_⟩
    obtain ⟨root, hr, hm⟩ := Node.find?_erase_of_apart hq hbelow hn ⟨edit, 0⟩
    rw [find?, root_of_erase hu, hr]
    exact hm

/-- A value is set again and another one is set; what is not there is removed, and a branch is. -/
theorem shares_beside_the_way :
    let s : Scheme String := ⟨.blake3, Encoding.utf8⟩
    let t := (empty s 0).replay 1
      [.insert ["a", "b"] "1", .insert ["a", "c"] "2", .insert ["d"] "3"]
    (∃ u, t.insert 4 ["a", "b"] "1" = .ok u ∧ t.sameRoot u = true) ∧
    (∃ u, t.insert 4 ["a", "b"] "4" = .ok u ∧ t.sameRoot u = false ∧
      ∃ n, t.find? ["a", "c"] = some n ∧ u.find? ["a", "c"] = some n) ∧
    (∃ u, t.erase 4 ["a", "x"] = .ok u ∧ t.sameRoot u = true) ∧
    ∃ u, t.erase 4 ["a", "b"] = .ok u ∧ t.sameRoot u = false ∧
      ∃ n, t.find? ["a", "c"] = some n ∧ u.find? ["a", "c"] = some n := by
  intro s t
  have ht : t.Reachable := .replay (.empty s 0) 1 _
  have hnew : t.Unmarked 4 := unmarked_replay (Node.stampedIn_empty Nat.zero_lt_one) _
  have hall : t.LabelsFit ∧ t.get? ["a", "b"] = some "1" ∧ (t.find? ["a", "b"]).isSome ∧
      (t.find? ["a", "c"]).isSome ∧ (t.find? ["a", "x"]).isSome = false ∧
      s.algorithm.digest (Bytes.ofString "1") ≠ s.algorithm.digest (Bytes.ofString "4") ∧
      (∀ label ∈ ["a", "b"], (Bytes.ofString label).length < 2 ^ 64) ∧
      (∀ v ∈ ["1", "4"],
        CollisionFree (t.hashings ++ t.algorithm.hashings (t.insertHashed 4 ["a", "b"] v))) ∧
      ∀ path ∈ [["a", "x"], ["a", "b"]],
        CollisionFree (t.hashings ++ t.algorithm.hashings (t.eraseHashed 4 path)) := by
    decide +kernel +zetaReduce
  obtain ⟨hfits, h1, hb, hc, hx, hother, hlabels, hinsert, herase⟩ := hall
  obtain ⟨n, hn⟩ := Option.isSome_iff_exists.mp hc
  have hv : ∀ v, t.scheme.hashValue v = .ok (s.algorithm.digest (Bytes.ofString v)) := fun _ => rfl
  have hab := ht.shares (List.cons_ne_nil "a" ["b"]) hnew hfits
  have hax := ht.shares (List.cons_ne_nil "a" ["x"]) hnew hfits
  refine ⟨?_, ?_, ?_, ?_⟩
  · obtain ⟨u, hu, hsame, -⟩ := hab.1 "1" _ (hv "1") hlabels (hinsert "1" (by decide))
    exact ⟨u, hu, hsame.mpr ⟨"1", h1, hv "1"⟩⟩
  · obtain ⟨u, hu, hsame, hkept⟩ := hab.1 "4" _ (hv "4") hlabels (hinsert "4" (by decide))
    refine ⟨u, hu, Bool.not_eq_true _ ▸ fun he => ?_, n, hn, hkept _ n hn (by decide)⟩
    obtain ⟨w, hw, hhash⟩ := hsame.mp he
    cases h1.symm.trans hw
    exact hother (Except.ok.inj ((hv "1").symm.trans hhash))
  · obtain ⟨u, hu, hsame, -⟩ := hax.2 (herase _ (by decide))
    exact ⟨u, hu, hsame.mpr (by simpa using hx)⟩
  · obtain ⟨u, hu, hsame, hkept⟩ := hab.2 (herase _ (by decide))
    refine ⟨u, hu, Bool.not_eq_true _ ▸ fun he => ?_, n, hn, hkept _ n hn (by decide) (by decide)⟩
    rw [hsame.mp he] at hb
    cases hb

end Tree

end ConfigTree
