import ConfigTree.Proofs.Nodes
/-!
# What holds of every tree that edits lead to

A tree is reachable if edits lead to it from an empty tree or from a list of entries, for any
scheme. At each of its nodes the kept hash is that of the content, the kept value hash is that of
the value, and every child bears a value at itself or below (`Node.Intact`). Each edit may stop
early where a hash does not change; it then returns the node it was given, of which this is known.
-/

namespace ConfigTree

/-- The trees that can be had from the operations, in any order and number. -/
inductive Tree.Reachable {V : Type} : Tree V → Prop
  | empty (scheme : Scheme V) (edit : Nat) : Reachable (Tree.empty scheme edit)
  | ofEntries {scheme : Scheme V} {edit : Nat} {entries : List (Path × V)} {t : Tree V}
      (h : Tree.ofEntries scheme edit entries = .ok t) : Reachable t
  | insert {t u : Tree V} {edit : Nat} {path : Path} {v : V} (ht : Reachable t)
      (h : t.insert edit path v = .ok u) : Reachable u
  | erase {t u : Tree V} {edit : Nat} {path : Path} (ht : Reachable t)
      (h : t.erase edit path = .ok u) : Reachable u
  | subtree {t u : Tree V} {path : Path} (ht : Reachable t)
      (h : t.subtree? path = some u) : Reachable u

namespace Node

variable {V : Type} {scheme : Scheme V}

/-- A node whose hashes are those of what it holds, and whose children all bear values. -/
structure Intact (scheme : Scheme V) (n : Node V) : Prop where
  hash_eq : n.hash = scheme.algorithm.digest n.content.encode
  value_hash : ∀ v, n.value = some v → scheme.hashValue v.value = .ok v.hash
  bears : ∀ label c, n.child? label = some c → c.Bears

/-- The node and all nodes below it are intact. -/
abbrev Sound (scheme : Scheme V) (n : Node V) : Prop := n.Everywhere (Intact scheme)

theorem Sound.find? {n m : Node V} {path : Path} (h : n.Sound scheme)
    (hm : n.find? path = some m) : m.Sound scheme := Everywhere.find? h hm

theorem Sound.child_bears {n c : Node V} {label : String} (h : n.Sound scheme)
    (hc : n.child? label = some c) : c.Bears := h.here.bears label c hc

/-- Every node but the top one bears a value. -/
theorem Sound.bears_of_find? {n m : Node V} {path : Path} (h : n.Sound scheme)
    (hm : n.find? path = some m) (hpath : path ≠ []) : m.Bears := by
  induction path generalizing n with
  | nil => exact absurd rfl hpath
  | cons label rest ih =>
    obtain ⟨c, hc, hm⟩ := Option.bind_eq_some_iff.mp hm
    cases rest with
    | nil =>
      cases hm
      exact h.child_bears hc
    | cons => exact ih (h.child hc) hm (List.cons_ne_nil _ _)

/-- A path of a sound node leads nowhere if no value lies at or below it. -/
theorem Sound.find?_eq_none {n : Node V} (h : n.Sound scheme) {path : Path} (hpath : path ≠ [])
    (hnone : ∀ below, n.stored? (path ++ below) = none) : n.find? path = none := by
  cases hm : n.find? path with
  | none => rfl
  | some m =>
    obtain ⟨below, v, hv⟩ := h.bears_of_find? hm hpath
    rw [← stored?_append hm, hnone] at hv
    cases hv

theorem sound_build {stamp : Stamp} {value : Option (Stored V)}
    {children : List (String × Node V)}
    (hvalue : ∀ v, value = some v → scheme.hashValue v.value = .ok v.hash)
    (hchild : ∀ label c, Table.get? label children = some c → c.Sound scheme ∧ c.Bears) :
    (build scheme.algorithm stamp value children).Sound scheme :=
  everywhere_iff.mpr ⟨⟨rfl, hvalue, fun label c hc => (hchild label c hc).2⟩,
    fun label c hc => (hchild label c hc).1⟩

theorem sound_empty (scheme : Scheme V) (stamp : Stamp) :
    (empty scheme.algorithm stamp).Sound scheme :=
  sound_build (fun _ h => nomatch h) fun _ _ h => nomatch h

theorem Sound.insertChild {n c : Node V} (h : n.Sound scheme) (hc : c.Sound scheme)
    (hb : c.Bears) (stamp : Stamp) (label : String) :
    (n.insertChild scheme.algorithm stamp label c).Sound scheme := by
  rw [Node.insertChild]
  split
  · exact h
  · refine sound_build h.here.value_hash fun label' c' hc' => ?_
    rw [Table.get?_insert] at hc'
    split at hc'
    · cases hc'
      exact ⟨hc, hb⟩
    · exact ⟨h.child hc', h.child_bears hc'⟩

/-- If the child's hash is that of the present one, the present one stays, and it bears a value. -/
theorem Sound.bears_insertChild {n c : Node V} (h : n.Sound scheme) (hb : c.Bears) (stamp : Stamp)
    (label : String) : (n.insertChild scheme.algorithm stamp label c).Bears := by
  rw [Node.insertChild]
  split
  · next heq =>
    obtain ⟨c', hc', -⟩ := Option.map_eq_some_iff.mp heq
    exact bears_of_child hc' (h.child_bears hc')
  · have hc : Table.get? label (Table.insert label c n.children) = some c := by
      rw [Table.get?_insert, if_pos rfl]
    exact bears_of_child hc hb

theorem Sound.eraseChild {n : Node V} (h : n.Sound scheme) (ho : n.Ordered) (stamp : Stamp)
    (label : String) : (n.eraseChild scheme.algorithm stamp label).Sound scheme := by
  rw [Node.eraseChild]
  split
  · exact h
  · refine sound_build h.here.value_hash fun label' c' hc' => ?_
    have hne : label' ≠ label := by
      rintro rfl
      rw [Table.get?_erase_self ho.ascending] at hc'
      cases hc'
    rw [Table.get?_erase_ne hne] at hc'
    exact ⟨h.child hc', h.child_bears hc'⟩

theorem Sound.setValue {n : Node V} (h : n.Sound scheme) {v : Stored V}
    (hv : scheme.hashValue v.value = .ok v.hash) (stamp : Stamp) :
    (n.setValue scheme.algorithm stamp v).Sound scheme := by
  rw [Node.setValue]
  split
  · exact h
  · refine sound_build (fun w hw => ?_) fun label c hc => ⟨h.child hc, h.child_bears hc⟩
    cases hw
    exact hv

theorem bears_setValue (n : Node V) (algorithm : Algorithm) (stamp : Stamp) (v : Stored V) :
    (n.setValue algorithm stamp v).Bears := by
  rw [Node.setValue]
  split
  · next heq =>
    obtain ⟨w, hw, -⟩ := Option.map_eq_some_iff.mp heq
    exact bears_of_value hw
  · exact bears_of_value rfl

theorem Sound.childOrEmpty {n : Node V} (h : n.Sound scheme) (label : String) (stamp : Stamp) :
    ((n.child? label).getD (empty scheme.algorithm stamp)).Sound scheme :=
  h.childOr fun _ => sound_empty scheme stamp

/-- What is put into a node leaves it sound, and bearing a value. -/
theorem Sound.insert {n : Node V} (h : n.Sound scheme) {v : Stored V}
    (hv : scheme.hashValue v.value = .ok v.hash) (stamp : Stamp) (path : Path) :
    (n.insert scheme.algorithm v stamp path).Sound scheme ∧
      (n.insert scheme.algorithm v stamp path).Bears := by
  induction path generalizing n stamp with
  | nil => exact ⟨h.setValue hv stamp, bears_setValue n _ stamp v⟩
  | cons label rest ih =>
    obtain ⟨hsound, hbears⟩ := ih (h.childOrEmpty label stamp.below) stamp.below
    exact ⟨h.insertChild hsound hbears stamp label, h.bears_insertChild hbears stamp label⟩

theorem unlessVacant_eq_some {n m : Node V} (h : n.unlessVacant = some m) :
    n = m ∧ n.isVacant = false := by
  rw [unlessVacant] at h
  split at h
  · cases h
  · next hv =>
    cases h
    exact ⟨rfl, by simpa using hv⟩

/-- A node that holds anything bears a value. -/
theorem Sound.bears_of_not_vacant {n : Node V} (h : n.Sound scheme) (hv : n.isVacant = false) :
    n.Bears := by
  cases hvalue : n.value with
  | some v => exact bears_of_value hvalue
  | none =>
    cases hchildren : n.children with
    | nil => simp [isVacant, hvalue, hchildren] at hv
    | cons e rest =>
      have hc : n.child? e.1 = some e.2 := by simp [child?, hchildren, Table.get?]
      exact bears_of_child hc (h.child_bears hc)

/-- What is left of a node that bears a value is sound, and bears a value again. -/
theorem Sound.erase {n m : Node V} (h : n.Sound scheme) (ho : n.Ordered) {stamp : Stamp}
    {path : Path} (hm : n.erase scheme.algorithm stamp path = some m) :
    m.Sound scheme ∧ (n.Bears → m.Bears) := by
  induction path generalizing n m stamp with
  | nil => cases hm
  | cons label rest ih =>
    rw [Node.erase] at hm
    split at hm
    · cases hm
      exact ⟨h, id⟩
    · next c hc =>
      have hleft : ∀ k : Node V, k.Sound scheme → k.unlessVacant = some m →
          m.Sound scheme ∧ (n.Bears → m.Bears) := by
        intro k hk hkm
        obtain ⟨rfl, hv⟩ := unlessVacant_eq_some hkm
        exact ⟨hk, fun _ => hk.bears_of_not_vacant hv⟩
      split at hm
      · next c' hc' =>
        obtain ⟨hsound, hbears⟩ := ih (h.child hc) (ho.child hc) hc'
        exact hleft _ (h.insertChild hsound (hbears (h.child_bears hc)) stamp label) hm
      · exact hleft _ (h.eraseChild ho stamp label) hm

end Node

namespace Tree

variable {V : Type}

theorem insert_eq_ok {t u : Tree V} {edit : Nat} {path : Path} {v : V}
    (h : t.insert edit path v = .ok u) :
    ∃ hash, t.scheme.hashValue v = .ok hash ∧ u.scheme = t.scheme ∧
      u.root = t.root.insert t.algorithm ⟨v, hash⟩ ⟨edit, 0⟩ path := by
  rw [insert] at h
  split at h
  · cases h
  · cases hv : t.scheme.hashValue v with
    | error e => rw [hv] at h; cases h
    | ok hash => rw [hv] at h; cases h; exact ⟨hash, rfl, rfl, rfl⟩

/-- Insertions one after another, the first of them apart. -/
theorem insertAll_cons_eq_ok {t u : Tree V} {edit : Nat} {e : Path × V} {rest : List (Path × V)}
    (h : insertAll edit (e :: rest) t = .ok u) :
    ∃ w, t.insert edit e.1 e.2 = .ok w ∧ insertAll (edit + 1) rest w = .ok u := by
  rw [insertAll] at h
  cases hi : t.insert edit e.1 e.2 with
  | error _ =>
    rw [hi] at h
    cases h
  | ok w =>
    rw [hi] at h
    exact ⟨w, rfl, h⟩

theorem scheme_of_erase {t u : Tree V} {edit : Nat} {path : Path}
    (h : t.erase edit path = .ok u) : u.scheme = t.scheme := by
  rw [erase] at h
  split at h
  · cases h
  · split at h <;> (cases h; rfl)

/-- Every node of the tree is intact for the tree's own scheme. -/
def Sound (t : Tree V) : Prop := t.root.Sound t.scheme

theorem sound_empty (scheme : Scheme V) (edit : Nat) : (empty scheme edit).Sound :=
  Node.sound_empty scheme _

theorem Sound.insert {t u : Tree V} {edit : Nat} {path : Path} {v : V} (ht : t.Sound)
    (h : t.insert edit path v = .ok u) : u.Sound := by
  obtain ⟨hash, hv, hs, hr⟩ := insert_eq_ok h
  rw [Sound, hs, hr]
  have hstored : t.scheme.hashValue (⟨v, hash⟩ : Stored V).value = .ok hash := hv
  exact (Node.Sound.insert ht hstored _ path).1

theorem Sound.erase {t u : Tree V} {edit : Nat} {path : Path} (ht : t.Sound)
    (h : t.erase edit path = .ok u) : u.Sound := by
  rw [Sound, scheme_of_erase h, root_of_erase h]
  cases hr : t.root.erase t.algorithm ⟨edit, 0⟩ path with
  | none => exact Node.sound_empty t.scheme _
  | some root => exact (Node.Sound.erase ht t.ordered hr).1

theorem Sound.subtree {t u : Tree V} {path : Path} (ht : t.Sound)
    (h : t.subtree? path = some u) : u.Sound := by
  obtain ⟨hr, hs⟩ := subtree?_eq_some.mp h
  rw [Sound, hs]
  exact Node.Sound.find? ht hr

theorem Sound.insertAll {entries : List (Path × V)} {edit : Nat} {t u : Tree V} (ht : t.Sound)
    (h : insertAll edit entries t = .ok u) : u.Sound := by
  induction entries generalizing edit t with
  | nil => cases h; exact ht
  | cons e rest ih =>
    obtain ⟨w, hi, h⟩ := insertAll_cons_eq_ok h
    exact ih (ht.insert hi) h

theorem Sound.valueHash?_eq_bind {t : Tree V} (ht : t.Sound) (path : Path) :
    t.valueHash? path = (t.get? path).bind fun v => (t.scheme.hashValue v).toOption := by
  rw [valueHash?, get?]
  cases hn : t.find? path with
  | none => rfl
  | some n =>
    cases hv : n.value with
    | none => simp [Node.valueHash?, hv]
    | some v =>
      have hhash := (ht path n hn).value_hash v hv
      simp [Node.valueHash?, hv, hhash, Except.toOption]

/-- A node other than the root is there exactly if there is a value at or below its path. -/
theorem Sound.find?_isSome_iff {t : Tree V} (ht : t.Sound) (q : Path) :
    (t.find? q).isSome ↔ q = [] ∨ ∃ below v, t.get? (q ++ below) = some v := by
  constructor
  · intro hsome
    by_cases hq : q = []
    · exact .inl hq
    · obtain ⟨n, hn⟩ := Option.isSome_iff_exists.mp hsome
      obtain ⟨below, v, hv⟩ := Node.Sound.bears_of_find? ht hn hq
      refine .inr ⟨below, v.value, ?_⟩
      rw [get?_eq, Node.stored?_append hn, hv]
      rfl
  · rintro (rfl | ⟨below, v, hv⟩)
    · rfl
    · cases hn : t.find? q with
      | some n => rfl
      | none =>
        rw [get?, find?, Node.find?_append, ← find?, hn] at hv
        cases hv

/-- Whatever the edits and their order, every node is intact. -/
theorem Reachable.sound {t : Tree V} (h : t.Reachable) : t.Sound := by
  induction h with
  | empty scheme edit => exact sound_empty scheme edit
  | ofEntries h => exact Sound.insertAll (sound_empty _ _) h
  | insert _ h ih => exact ih.insert h
  | erase _ h ih => exact ih.erase h
  | subtree _ h ih => exact ih.subtree h

/-- One edit of a tree. -/
inductive Edit (V : Type) where
  | insert (path : Path) (v : V)
  | erase (path : Path)
  /-- Goes on with the tree below a path. -/
  | subtree (path : Path)

/-- The tree after an edit. An edit that is refused leaves the tree that its caller had. -/
def edited (number : Nat) (t : Tree V) : Edit V → Tree V
  | .insert path v => (t.insert number path v).toOption.getD t
  | .erase path => (t.erase number path).toOption.getD t
  | .subtree path => (t.subtree? path).getD t

/-- The tree after edits that are numbered from `number` on. -/
def replay (number : Nat) : List (Edit V) → Tree V → Tree V
  | [], t => t
  | e :: rest, t => replay (number + 1) rest (t.edited number e)

/-- What holds of a tree and of the results of its edits holds after an edit, refused or not. -/
theorem edited_induction {P : Tree V → Prop} {t : Tree V} {number : Nat} {e : Edit V} (h : P t)
    (insert : ∀ path v u, e = .insert path v → t.insert number path v = .ok u → P u)
    (erase : ∀ path u, e = .erase path → t.erase number path = .ok u → P u)
    (subtree : ∀ path u, e = .subtree path → t.subtree? path = some u → P u) :
    P (t.edited number e) := by
  cases e with
  | insert path v =>
    rw [edited]
    cases hr : t.insert number path v with
    | ok u => exact insert path v u rfl hr
    | error => exact h
  | erase path =>
    rw [edited]
    cases hr : t.erase number path with
    | ok u => exact erase path u rfl hr
    | error => exact h
  | subtree path =>
    rw [edited]
    cases hr : t.subtree? path with
    | some u => exact subtree path u rfl hr
    | none => exact h

theorem Reachable.edited {t : Tree V} (h : t.Reachable) (number : Nat) (e : Edit V) :
    (t.edited number e).Reachable :=
  edited_induction h (fun _ _ _ _ hr => h.insert hr) (fun _ _ _ hr => h.erase hr)
    fun _ _ _ hr => h.subtree hr

theorem Reachable.replay {t : Tree V} (h : t.Reachable) (number : Nat) (edits : List (Edit V)) :
    (t.replay number edits).Reachable := by
  induction edits generalizing number t with
  | nil => exact h
  | cons e rest ih => exact ih (h.edited number e) (number + 1)

end Tree

end ConfigTree
