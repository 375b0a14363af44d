import ConfigTree.Proofs.Content
import ConfigTree.Proofs.Reachable
/-!
# Hashes and values determine each other

The hash of a node in a reachable tree is a function of the value hashes at the paths below it:
no node is left behind without a value, so the values tell which children there are. Conversely the
hash tells the value hashes, unless two different byte strings that were hashed for the two trees
have one hash. Nothing is assumed of the hash function beyond that, and the trees may hold values
of different types.
-/

namespace ConfigTree

/-- Among these byte strings with their hashes, no two different ones have one hash. -/
def CollisionFree (hashings : List (Bytes × Hash)) : Prop :=
  ∀ x ∈ hashings, ∀ y ∈ hashings, x.2 = y.2 → x.1 = y.1

instance (hashings : List (Bytes × Hash)) : Decidable (CollisionFree hashings) :=
  inferInstanceAs (Decidable (∀ x ∈ hashings, ∀ y ∈ hashings, x.2 = y.2 → x.1 = y.1))

namespace Node

variable {V W : Type}

mutual
/-- The byte strings hashed for the node and for all below it: node encodings and encoded values. -/
def hashed (encode : Encoding V) : Node V → List Bytes
  | ⟨_, value, children, _⟩ =>
    (contentOf value children).encode ::
      ((value.bind fun v => (encode v.value).toOption).toList ++ hashedChildren encode children)
termination_by structural n => n

def hashedChildren (encode : Encoding V) : List (String × Node V) → List Bytes
  | [] => []
  | (_, child) :: rest => child.hashed encode ++ hashedChildren encode rest
end

mutual
/-- The labels of the children of the node and of all nodes below it. -/
def labels : Node V → List String
  | ⟨_, _, children, _⟩ => childLabels children
termination_by structural n => n

def childLabels : List (String × Node V) → List String
  | [] => []
  | (label, child) :: rest => label :: (child.labels ++ childLabels rest)
end

theorem hashed_eq (encode : Encoding V) (n : Node V) :
    n.hashed encode = n.content.encode ::
      ((n.value.bind fun v => (encode v.value).toOption).toList
        ++ hashedChildren encode n.children) := by
  cases n
  rw [hashed]
  rfl

theorem labels_eq (n : Node V) : n.labels = childLabels n.children := by
  cases n
  rw [labels]

theorem hashed_subset_of_mem {encode : Encoding V} {children : List (String × Node V)}
    {c : String × Node V} (hc : c ∈ children) :
    c.2.hashed encode ⊆ hashedChildren encode children := by
  induction children with
  | nil => cases hc
  | cons d rest ih =>
    intro x hx
    rw [hashedChildren, List.mem_append]
    rcases List.mem_cons.mp hc with rfl | hc
    · exact .inl hx
    · exact .inr (ih hc hx)

/-- What is hashed for a node below is hashed for the node. -/
theorem hashed_subset_of_find? {encode : Encoding V} {n m : Node V} {path : Path}
    (hm : n.find? path = some m) : m.hashed encode ⊆ n.hashed encode := by
  induction path generalizing n with
  | nil =>
    cases hm
    exact List.Subset.refl _
  | cons label rest ih =>
    obtain ⟨c, hc, hm⟩ := Option.bind_eq_some_iff.mp hm
    have hchild : c.hashed encode ⊆ hashedChildren encode n.children :=
      hashed_subset_of_mem (child_mem hc)
    rw [hashed_eq encode n]
    exact fun _ hx => List.mem_cons_of_mem _ (List.mem_append_right _ (hchild (ih hm hx)))

theorem encode_mem_hashed {encode : Encoding V} {n m : Node V} {path : Path}
    (hm : n.find? path = some m) : m.content.encode ∈ n.hashed encode := by
  refine hashed_subset_of_find? hm ?_
  rw [hashed_eq]
  exact List.mem_cons_self

/-- The bytes of every value below a node are hashed for it. -/
theorem value_mem_hashed {encode : Encoding V} {n m : Node V} {path : Path}
    (hm : n.find? path = some m) {v : Stored V} (hv : m.value = some v) {bytes : Bytes}
    (hb : encode v.value = .ok bytes) : bytes ∈ n.hashed encode := by
  refine hashed_subset_of_find? hm ?_
  rw [hashed_eq, hv, Option.bind_some, hb]
  exact List.mem_cons_of_mem _ (List.mem_append_left _ List.mem_cons_self)

theorem labels_subset_of_mem {children : List (String × Node V)} {c : String × Node V}
    (hc : c ∈ children) : c.1 :: c.2.labels ⊆ childLabels children := by
  induction children with
  | nil => cases hc
  | cons d rest ih =>
    intro x hx
    rw [childLabels, ← List.cons_append, List.mem_append]
    rcases List.mem_cons.mp hc with rfl | hc
    · exact .inl hx
    · exact .inr (ih hc hx)

theorem label_mem_labels {n m : Node V} {path : Path} {c : String × Node V}
    (hm : n.find? path = some m) (hc : c ∈ m.children) : c.1 ∈ n.labels := by
  induction path generalizing n with
  | nil =>
    cases hm
    rw [labels_eq]
    exact labels_subset_of_mem hc List.mem_cons_self
  | cons label rest ih =>
    obtain ⟨d, hd, hm⟩ := Option.bind_eq_some_iff.mp hm
    have hmem := labels_subset_of_mem (child_mem hd) (List.mem_cons_of_mem _ (ih hm))
    rw [labels_eq]
    exact hmem

theorem mem_labels_of_find? {n m : Node V} {path : Path} (h : n.find? path = some m) :
    ∀ label ∈ path, label ∈ n.labels := by
  induction path generalizing n with
  | nil => exact fun _ hl => nomatch hl
  | cons label rest ih =>
    obtain ⟨c, hc, hm⟩ := Option.bind_eq_some_iff.mp h
    have hsub := labels_subset_of_mem (child_mem hc)
    rw [labels_eq]
    exact List.forall_mem_cons.mpr
      ⟨hsub List.mem_cons_self, fun l hl => hsub (List.mem_cons_of_mem _ (ih hm l hl))⟩

/-- Nodes of the two subtrees with one hash have one content. -/
def ContentByHash (n : Node V) (m : Node W) : Prop :=
  ∀ p q k l, n.find? p = some k → m.find? q = some l → k.hash = l.hash → k.content = l.content

theorem ContentByHash.find? {n k : Node V} {m l : Node W} {p q : Path} (h : ContentByHash n m)
    (hk : n.find? p = some k) (hl : m.find? q = some l) : ContentByHash k l := by
  intro r s k' l' hk' hl'
  refine h (p ++ r) (q ++ s) k' l' ?_ ?_
  · rw [find?_append, hk]
    exact hk'
  · rw [find?_append, hl]
    exact hl'

theorem ContentByHash.child {n c : Node V} {m d : Node W} {label : String}
    (h : ContentByHash n m) (hc : n.child? label = some c) (hd : m.child? label = some d) :
    ContentByHash c d :=
  h.find? (find?_child hc) (find?_child hd)

/-- The content tells the hash of each child. -/
theorem get?_content (n : Node V) (label : String) :
    Table.get? label n.content.children = (n.child? label).map hash :=
  Table.get?_map hash label n.children

theorem valueHashAt?_eq_of_hash_eq {n : Node V} {m : Node W} (h : ContentByHash n m)
    (he : n.hash = m.hash) (path : Path) : n.valueHashAt? path = m.valueHashAt? path := by
  induction path generalizing n m with
  | nil => exact congrArg Content.value (h [] [] n m rfl rfl he)
  | cons label rest ih =>
    have hcontent := h [] [] n m rfl rfl he
    have hchild : (n.child? label).map hash = (m.child? label).map hash := by
      rw [← get?_content, ← get?_content, hcontent]
    rw [valueHashAt?_cons, valueHashAt?_cons]
    cases hc : n.child? label with
    | none =>
      rw [hc] at hchild
      rw [Option.map_eq_none_iff.mp hchild.symm]
      rfl
    | some c =>
      rw [hc] at hchild
      obtain ⟨d, hd, hcd⟩ := Option.map_eq_some_iff.mp hchild.symm
      rw [hd]
      exact ih (h.child hc hd) hcd.symm

variable {scheme : Scheme V} {scheme' : Scheme W}

/-- The values at the paths below a node tell which children it has. -/
theorem Sound.child_isSome_iff {n : Node V} (h : n.Sound scheme) (label : String) :
    (n.child? label).isSome ↔ ∃ path, (n.valueHashAt? (label :: path)).isSome := by
  constructor
  · intro hc
    obtain ⟨c, hc⟩ := Option.isSome_iff_exists.mp hc
    obtain ⟨path, v, hv⟩ := h.child_bears hc
    refine ⟨path, ?_⟩
    rw [valueHashAt?_eq, stored?_cons, hc, Option.bind_some, hv]
    rfl
  · rintro ⟨path, hpath⟩
    cases hc : n.child? label with
    | none =>
      rw [valueHashAt?_cons, hc] at hpath
      cases hpath
    | some => rfl

theorem Sound.content_eq {n : Node V} {m : Node W} (hn : n.Sound scheme) (hm : m.Sound scheme')
    (hno : n.Ordered) (hmo : m.Ordered) (ha : scheme.algorithm = scheme'.algorithm)
    (h : ∀ path, n.valueHashAt? path = m.valueHashAt? path) : n.content = m.content := by
  induction n using Node.induction generalizing m with
  | step n ih =>
    have hvalue : n.content.value = m.content.value := h []
    have hchildren : n.content.children = m.content.children := by
      refine Table.eq_of_get? (Table.ascending_map _ hno.ascending)
        (Table.ascending_map _ hmo.ascending) fun label => ?_
      rw [get?_content, get?_content]
      have hsome : (n.child? label).isSome ↔ (m.child? label).isSome := by
        rw [hn.child_isSome_iff, hm.child_isSome_iff]
        simp only [h]
      cases hc : n.child? label with
      | none =>
        cases hd : m.child? label with
        | none => rfl
        | some d => simp [hc, hd] at hsome
      | some c =>
        cases hd : m.child? label with
        | none => simp [hc, hd] at hsome
        | some d =>
          have hbelow : ∀ path, c.valueHashAt? path = d.valueHashAt? path := by
            intro path
            have hpath := h (label :: path)
            rw [valueHashAt?_cons, valueHashAt?_cons, hc, hd] at hpath
            exact hpath
          have hcontent := ih _ (child_mem hc) (hn.child hc) (hm.child hd) (hno.child hc)
            (hmo.child hd) hbelow
          rw [Option.map_some, Option.map_some, (hn.child hc).here.hash_eq,
            (hm.child hd).here.hash_eq, hcontent, ha]
    cases hnc : n.content
    cases hmc : m.content
    rw [hnc, hmc] at hvalue hchildren
    cases hvalue
    cases hchildren
    rfl

end Node

namespace Tree

variable {V W : Type}

/-- All byte strings hashed for the tree, with their hashes. -/
def hashings (t : Tree V) : List (Bytes × Hash) :=
  (t.root.hashed t.scheme.encode).map fun bytes => (bytes, t.algorithm.digest bytes)

/-- The length in bytes of every label in the tree fits eight bytes. -/
def LabelsFit (t : Tree V) : Prop := ∀ label ∈ t.root.labels, (Bytes.ofString label).length < 2 ^ 64

instance (t : Tree V) : Decidable t.LabelsFit :=
  inferInstanceAs (Decidable (∀ label ∈ t.root.labels, (Bytes.ofString label).length < 2 ^ 64))

/-- Nodes of the two trees with one hash have one content. -/
def ContentByHash (t : Tree V) (u : Tree W) : Prop := t.root.ContentByHash u.root

theorem Sound.mem_hashings {t : Tree V} (ht : t.Sound) {path : Path} {n : Node V}
    (hn : t.find? path = some n) : (n.content.encode, n.hash) ∈ t.hashings := by
  refine List.mem_map.mpr ⟨n.content.encode, Node.encode_mem_hashed hn, ?_⟩
  rw [(ht path n hn).hash_eq]
  rfl

theorem LabelsFit.content {t : Tree V} (ht : t.LabelsFit) {path : Path} {n : Node V}
    (hn : t.find? path = some n) : n.content.LabelsFit := by
  intro e he
  obtain ⟨c, hc, rfl⟩ := List.mem_map.mp he
  exact ht c.1 (Node.label_mem_labels hn hc)

theorem LabelsFit.path {t : Tree V} (ht : t.LabelsFit) {path : Path} {n : Node V}
    (hn : t.find? path = some n) : ∀ label ∈ path, (Bytes.ofString label).length < 2 ^ 64 :=
  fun label hl => ht label (Node.mem_labels_of_find? hn label hl)

theorem Sound.contentByHash {t : Tree V} {u : Tree W} (ht : t.Sound) (hu : u.Sound)
    (hfree : CollisionFree (t.hashings ++ u.hashings)) (htl : t.LabelsFit) (hul : u.LabelsFit) :
    t.ContentByHash u := by
  intro p q n m hn hm he
  have hbytes := hfree _ (List.mem_append_left _ (ht.mem_hashings hn)) _
    (List.mem_append_right _ (hu.mem_hashings hm)) he
  exact Content.encode_inj (htl.content hn) (hul.content hm) hbytes

theorem valueHash?_append {t : Tree V} {p : Path} {n : Node V} (hn : t.find? p = some n)
    (path : Path) : t.valueHash? (p ++ path) = n.valueHashAt? path := by
  rw [valueHash?, find?, Node.find?_append, ← find?, hn]
  rfl

/-- In reachable trees with one algorithm, two nodes with the same value hashes at the same paths
below them have one hash, whatever edits led to the trees and wherever the nodes lie. Conversely
nodes with one hash have the same value hashes below them, unless two different byte strings hashed
for the trees have one hash. -/
theorem Reachable.hash_canonical {t : Tree V} {u : Tree W} (ht : t.Reachable) (hu : u.Reachable)
    (ha : t.algorithm = u.algorithm) {p q : Path} (hp : (t.find? p).isSome)
    (hq : (u.find? q).isSome) :
    ((∀ path, t.valueHash? (p ++ path) = u.valueHash? (q ++ path)) → t.hash? p = u.hash? q) ∧
    (CollisionFree (t.hashings ++ u.hashings) → t.LabelsFit → u.LabelsFit →
      t.hash? p = u.hash? q → ∀ path, t.valueHash? (p ++ path) = u.valueHash? (q ++ path)) := by
  obtain ⟨n, hn⟩ := Option.isSome_iff_exists.mp hp
  obtain ⟨m, hm⟩ := Option.isSome_iff_exists.mp hq
  simp only [valueHash?_append hn, valueHash?_append hm, hash?, hn, hm, Option.map_some,
    Option.some.injEq]
  have hns := Node.Sound.find? ht.sound hn
  have hms := Node.Sound.find? hu.sound hm
  constructor
  · intro h
    have hcontent := hns.content_eq hms (t.ordered.find? hn) (u.ordered.find? hm) ha h
    rw [hns.here.hash_eq, hms.here.hash_eq, hcontent]
    exact congrArg (fun a => Algorithm.digest a m.content.encode) ha
  · intro hfree htl hul he path
    have hroot := ht.sound.contentByHash hu.sound hfree htl hul
    exact Node.valueHashAt?_eq_of_hash_eq (Node.ContentByHash.find? hroot hn hm) he path

/-- Two histories that leave one value, below different paths: in one a branch is erased again, in
the other a value is replaced after the tree was cut down to a subtree. -/
theorem hash_canonical_of_two_histories :
    let s : Scheme String := ⟨.blake3, Encoding.utf8⟩
    let t := (empty s 0).replay 1
      [.insert ["a", "b"] "1", .insert ["a", "c", "d"] "3", .erase ["a", "c", "d"]]
    let u := (empty s 0).replay 1
      [.insert ["x", "y", "a", "b"] "0", .subtree ["x"], .insert ["y", "a", "b"] "1"]
    t.hash? ["a"] = u.hash? ["y", "a"] ∧
      ∀ path, t.valueHash? (["a"] ++ path) = u.valueHash? (["y", "a"] ++ path) := by
  intro s t u
  have ht : t.Reachable := .replay (.empty s 0) 1 _
  have hu : u.Reachable := .replay (.empty s 0) 1 _
  have hall : t.algorithm = u.algorithm ∧ (t.find? ["a"]).isSome ∧ (u.find? ["y", "a"]).isSome ∧
      CollisionFree (t.hashings ++ u.hashings) ∧ t.LabelsFit ∧ u.LabelsFit ∧
      t.hash? ["a"] = u.hash? ["y", "a"] := by decide +kernel +zetaReduce
  obtain ⟨ha, hp, hq, hfree, htl, hul, he⟩ := hall
  obtain ⟨hforth, hback⟩ := ht.hash_canonical hu ha hp hq
  have hvalues := hback hfree htl hul he
  exact ⟨hforth hvalues, hvalues⟩

end Tree

end ConfigTree
