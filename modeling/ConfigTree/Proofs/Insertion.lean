import ConfigTree.Proofs.Canonical
/-!
# What an insertion hashes, and what it changes

An insertion leaves a node as it is where the hash of its new child, or of its new value, is that of
the present one. So it changes what it should unless two different byte strings that are hashed for
the tree or on the way have one hash. `Node.insertHashed` and its like list what is hashed on the
way; nothing is assumed of the hash function outside such a list. Value hashes are then those of a
map that is set at one path, and after a list of insertions those of the last entry of each path.
-/

namespace ConfigTree

/-- Byte strings with their hashes. -/
def Algorithm.hashings (a : Algorithm) (strings : List Bytes) : List (Bytes × Hash) :=
  strings.map fun bytes => (bytes, a.digest bytes)

theorem CollisionFree.eq_of_digest_eq {a : Algorithm} {strings : List Bytes}
    (h : CollisionFree (a.hashings strings)) {x y : Bytes} (hx : x ∈ strings) (hy : y ∈ strings)
    (he : a.digest x = a.digest y) : x = y :=
  h _ (List.mem_map.mpr ⟨x, hx, rfl⟩) _ (List.mem_map.mpr ⟨y, hy, rfl⟩) he

theorem Scheme.hashValue_eq_ok_iff {V : Type} {s : Scheme V} {v : V} {hash : Hash} :
    s.hashValue v = .ok hash ↔
      ∃ bytes, s.encode v = .ok bytes ∧ s.algorithm.digest bytes = hash := by
  rw [hashValue]
  cases s.encode v <;> simp [Except.map]

namespace Node

variable {V W : Type}

def setValueHashed (n : Node V) (v : Stored V) : List Bytes :=
  if n.valueHash? = some v.hash then [] else [(contentOf (some v) n.children).encode]

def insertChildHashed (n : Node V) (label : String) (child : Node V) : List Bytes :=
  if (n.child? label).map hash = some child.hash then []
  else [(contentOf n.value (Table.insert label child n.children)).encode]

/-- The contents hashed while a value is set at a path below the node, in this order: those of
missing nodes from the top down, and those of changed nodes from the path up. -/
def insertHashed (a : Algorithm) (v : Stored V) : Stamp → Path → Node V → List Bytes
  | _, [], n => n.setValueHashed v
  | stamp, label :: rest, n =>
    let child := (n.child? label).getD (empty a stamp.below)
    (if (n.child? label).isNone then [child.content.encode] else []) ++
      insertHashed a v stamp.below rest child ++
      n.insertChildHashed label (insert a v stamp.below rest child)

/-- The hash of the node is that of its content, which is among the byte strings, with labels whose
lengths fit eight bytes. -/
structure HashedIn (a : Algorithm) (strings : List Bytes) (n : Node V) : Prop where
  hash_eq : n.hash = a.digest n.content.encode
  mem : n.content.encode ∈ strings
  fits : n.content.LabelsFit

/-- The same for the node and all nodes below it. -/
abbrev AllHashedIn (a : Algorithm) (strings : List Bytes) (n : Node V) : Prop :=
  n.Everywhere (HashedIn a strings)

variable {a : Algorithm} {strings : List Bytes}

theorem AllHashedIn.contentByHash {n : Node V} {m : Node W} (hn : n.AllHashedIn a strings)
    (hm : m.AllHashedIn a strings) (hfree : CollisionFree (a.hashings strings)) :
    n.ContentByHash m := by
  intro p q k l hk hl he
  have hkin := hn p k hk
  have hlin := hm q l hl
  rw [hkin.hash_eq, hlin.hash_eq] at he
  exact Content.encode_inj hkin.fits hlin.fits (hfree.eq_of_digest_eq hkin.mem hlin.mem he)

theorem allHashedIn_build {stamp : Stamp} {value : Option (Stored V)}
    {children : List (String × Node V)} (hmem : (contentOf value children).encode ∈ strings)
    (hfits : (contentOf value children).LabelsFit)
    (hchild : ∀ label c, Table.get? label children = some c → c.AllHashedIn a strings) :
    (build a stamp value children).AllHashedIn a strings :=
  everywhere_iff.mpr ⟨⟨rfl, hmem, hfits⟩, hchild⟩

theorem allHashedIn_empty {stamp : Stamp}
    (hmem : (contentOf none ([] : List (String × Node V))).encode ∈ strings) :
    (empty a stamp : Node V).AllHashedIn a strings :=
  allHashedIn_build hmem (fun _ h => nomatch h) fun _ _ h => nomatch h

theorem AllHashedIn.setValue {n : Node V} (h : n.AllHashedIn a strings) {v : Stored V}
    (hsub : n.setValueHashed v ⊆ strings) (stamp : Stamp) :
    (n.setValue a stamp v).AllHashedIn a strings := by
  rw [Node.setValue]
  split
  · exact h
  · next hne =>
    rw [setValueHashed, if_neg hne] at hsub
    exact allHashedIn_build (hsub List.mem_cons_self) h.here.fits fun label c hc => h.child hc

theorem AllHashedIn.insertChild {n c : Node V} (h : n.AllHashedIn a strings)
    (hc : c.AllHashedIn a strings) {label : String}
    (hlabel : (Bytes.ofString label).length < 2 ^ 64)
    (hsub : n.insertChildHashed label c ⊆ strings) (stamp : Stamp) :
    (n.insertChild a stamp label c).AllHashedIn a strings := by
  rw [Node.insertChild]
  split
  · exact h
  · next hne =>
    rw [insertChildHashed, if_neg hne] at hsub
    refine allHashedIn_build (hsub List.mem_cons_self) ?_ fun label' c' hc' => ?_
    · intro e he
      obtain ⟨d, hd, rfl⟩ := List.mem_map.mp he
      rcases Table.mem_insert hd with rfl | hd
      · exact hlabel
      · exact h.here.fits _ (List.mem_map.mpr ⟨d, hd, rfl⟩)
    · rw [Table.get?_insert] at hc'
      split at hc'
      · cases hc'
        exact hc
      · exact h.child hc'

/-- What an insertion hashes at the node itself, below it and for a missing child. -/
theorem insertHashed_subset_iff {n : Node V} {v : Stored V} {stamp : Stamp} {label : String}
    {rest : Path} :
    n.insertHashed a v stamp (label :: rest) ⊆ strings ↔
      (n.child? label = none → (contentOf none ([] : List (String × Node V))).encode ∈ strings) ∧
      ((n.child? label).getD (empty a stamp.below)).insertHashed a v stamp.below rest ⊆ strings ∧
      n.insertChildHashed label
        (((n.child? label).getD (empty a stamp.below)).insert a v stamp.below rest) ⊆ strings := by
  rw [insertHashed, List.append_subset, List.append_subset, and_assoc]
  cases n.child? label with
  | none => simp [empty, build, content]
  | some c => simp

theorem AllHashedIn.childOrEmpty {n : Node V} (h : n.AllHashedIn a strings) {label : String}
    (hmem : n.child? label = none → (contentOf none ([] : List (String × Node V))).encode ∈ strings)
    (stamp : Stamp) : ((n.child? label).getD (empty a stamp)).AllHashedIn a strings :=
  h.childOr fun hmissing => allHashedIn_empty (hmem hmissing)

theorem AllHashedIn.insert {n : Node V} (h : n.AllHashedIn a strings) {v : Stored V}
    {stamp : Stamp} {path : Path} (hpath : ∀ label ∈ path, (Bytes.ofString label).length < 2 ^ 64)
    (hsub : n.insertHashed a v stamp path ⊆ strings) :
    (n.insert a v stamp path).AllHashedIn a strings := by
  induction path generalizing n stamp with
  | nil => exact h.setValue hsub stamp
  | cons label rest ih =>
    obtain ⟨hmissing, hbelow, hhere⟩ := insertHashed_subset_iff.mp hsub
    obtain ⟨hlabel, hrest⟩ := List.forall_mem_cons.mp hpath
    exact h.insertChild (ih (h.childOrEmpty hmissing stamp.below) hrest hbelow) hlabel hhere stamp

theorem valueHashAt?_setValue (n : Node V) (v : Stored V) (stamp : Stamp) (path : Path) :
    (n.setValue a stamp v).valueHashAt? path =
      if path = [] then some v.hash else n.valueHashAt? path := by
  rw [Node.setValue]
  split
  · next he =>
    split
    · next hpath => exact hpath ▸ he
    · rfl
  · cases path <;> rfl

/-- What is read off the values below the new child is read off below its label, if a present child
that stays for its hash tells the same. -/
theorem map_stored?_insertChild {β : Type} (f : Stored V → β) {n c : Node V} {label : String}
    (hstays : ∀ d, n.child? label = some d → d.hash = c.hash →
      ∀ path, (d.stored? path).map f = (c.stored? path).map f) (stamp : Stamp) (path : Path) :
    ((n.insertChild a stamp label c).stored? path).map f =
      match path with
      | [] => n.value.map f
      | label' :: rest =>
        if label' = label then (c.stored? rest).map f else (n.stored? (label' :: rest)).map f := by
  rw [Node.insertChild]
  split
  · next he =>
    obtain ⟨d, hd, hhash⟩ := Option.map_eq_some_iff.mp he
    cases path with
    | nil => rfl
    | cons label' rest =>
      dsimp only
      split
      · next hl =>
        rw [hl, stored?_cons, hd]
        exact hstays d hd hhash rest
      · rfl
  · rw [stored?_build]
    cases path with
    | nil => rfl
    | cons label' rest =>
      dsimp only
      rw [Table.get?_insert, stored?_cons]
      split <;> rfl

/-- Where one hash means one content, the values below the new child are found below its label,
even if the present child stays. -/
theorem valueHashAt?_insertChild {n c : Node V} {label : String}
    (hc : ∀ d, n.child? label = some d → d.ContentByHash c) (stamp : Stamp) (path : Path) :
    (n.insertChild a stamp label c).valueHashAt? path =
      match path with
      | [] => n.valueHash?
      | label' :: rest => if label' = label then c.valueHashAt? rest else n.valueHashAt? path := by
  have hstays : ∀ d, n.child? label = some d → d.hash = c.hash →
      ∀ path, (d.stored? path).map Stored.hash = (c.stored? path).map Stored.hash := by
    intro d hd hhash path
    rw [← valueHashAt?_eq, ← valueHashAt?_eq, valueHashAt?_eq_of_hash_eq (hc d hd) hhash]
  rw [valueHashAt?_eq, map_stored?_insertChild Stored.hash hstays]
  cases path with
  | nil => rfl
  | cons label' rest => simp only [valueHashAt?_eq]

theorem valueHashAt?_empty (stamp : Stamp) (path : Path) :
    (empty a stamp : Node V).valueHashAt? path = none := by
  cases path <;> rfl

/-- The value hashes after an insertion: the new one at its path, and all others as before. -/
theorem AllHashedIn.valueHashAt?_insert (hfree : CollisionFree (a.hashings strings)) {n : Node V}
    (h : n.AllHashedIn a strings) {v : Stored V} {stamp : Stamp} {path : Path}
    (hpath : ∀ label ∈ path, (Bytes.ofString label).length < 2 ^ 64)
    (hsub : n.insertHashed a v stamp path ⊆ strings) (q : Path) :
    (n.insert a v stamp path).valueHashAt? q =
      if q = path then some v.hash else n.valueHashAt? q := by
  induction path generalizing n stamp q with
  | nil => exact valueHashAt?_setValue n v stamp q
  | cons label rest ih =>
    obtain ⟨hmissing, hbelow, -⟩ := insertHashed_subset_iff.mp hsub
    obtain ⟨-, hrest⟩ := List.forall_mem_cons.mp hpath
    have hchild := h.childOrEmpty hmissing stamp.below
    have hnew := hchild.insert hrest hbelow
    rw [Node.insert, valueHashAt?_insertChild fun d hd =>
      AllHashedIn.contentByHash (h.child hd) hnew hfree]
    cases q with
    | nil => rfl
    | cons label' q =>
      dsimp only
      by_cases hl : label' = label
      · -- below the label, where a missing child counts as an empty one
        have hold : ((n.child? label).getD (empty a stamp.below)).valueHashAt? q =
            n.valueHashAt? (label :: q) := by
          rw [valueHashAt?_cons]
          cases n.child? label with
          | none => exact valueHashAt?_empty _ q
          | some c => rfl
        rw [hl, if_pos rfl, ih hchild hrest hbelow, hold]
        simp
      · simp [hl]

/-- What is stored after an insertion is the new value, at its path, or was stored there before,
whatever the hash function. -/
theorem origin_of_insert {n : Node V} {v s : Stored V} {stamp : Stamp} {path q : Path}
    (h : (n.insert a v stamp path).stored? q = some s) :
    q = path ∧ s = v ∨ n.stored? q = some s := by
  induction path generalizing n stamp q with
  | nil =>
    rw [Node.insert, Node.setValue] at h
    split at h
    · exact .inr h
    · cases q with
      | nil => exact .inl ⟨rfl, (Option.some.inj h).symm⟩
      | cons label q => exact .inr h
  | cons label rest ih =>
    rw [Node.insert, Node.insertChild] at h
    split at h
    · exact .inr h
    rw [stored?_build] at h
    cases q with
    | nil => exact .inr h
    | cons label' q =>
      rw [stored?_cons]
      dsimp only at h
      rw [Table.get?_insert] at h
      split at h
      · next hl =>
        rw [hl]
        rcases ih h with ⟨rfl, rfl⟩ | hold
        · exact .inl ⟨rfl, rfl⟩
        refine .inr ?_
        cases hc : n.child? label with
        | none => rw [hc, Option.getD_none, stored?_empty] at hold; cases hold
        | some c => rwa [hc] at hold
      · exact .inr h

end Node

namespace Tree

variable {V : Type}

/-- The byte strings hashed while a value is set: the encoded value, and the contents of nodes. -/
def insertHashed (edit : Nat) (path : Path) (v : V) (t : Tree V) : List Bytes :=
  match t.scheme.encode v with
  | .error _ => []
  | .ok bytes =>
    bytes :: t.root.insertHashed t.algorithm ⟨v, t.algorithm.digest bytes⟩ ⟨edit, 0⟩ path

/-- The byte strings hashed while values are set one after another. -/
def insertAllHashed : (edit : Nat) → List (Path × V) → Tree V → List Bytes
  | _, [], _ => []
  | edit, (path, v) :: rest, t =>
    match t.insert edit path v with
    | .error _ => []
    | .ok u => t.insertHashed edit path v ++ insertAllHashed (edit + 1) rest u

/-- The byte strings hashed while a tree is made from entries. -/
def ofEntriesHashed (scheme : Scheme V) (edit : Nat) (entries : List (Path × V)) : List Bytes :=
  (empty scheme edit).root.content.encode :: insertAllHashed (edit + 1) entries (empty scheme edit)

/-- Every node of the tree was hashed, and its content is among the byte strings. -/
def AllHashedIn (t : Tree V) (strings : List Bytes) : Prop :=
  t.root.AllHashedIn t.algorithm strings

/-- The length in bytes of every label of the paths fits eight bytes. -/
def EntriesFit (entries : List (Path × V)) : Prop :=
  ∀ e ∈ entries, ∀ label ∈ e.1, (Bytes.ofString label).length < 2 ^ 64

instance (entries : List (Path × V)) : Decidable (EntriesFit entries) :=
  inferInstanceAs (Decidable (∀ e ∈ entries, ∀ label ∈ e.1, (Bytes.ofString label).length < 2 ^ 64))

variable {strings : List Bytes}

/-- What is hashed for a tree, and more, in one list. -/
theorem Sound.exists_allHashedIn {t : Tree V} (ht : t.Sound) (hfits : t.LabelsFit)
    {more : List Bytes} (hfree : CollisionFree (t.hashings ++ t.algorithm.hashings more)) :
    ∃ strings, t.AllHashedIn strings ∧ more ⊆ strings ∧
      CollisionFree (t.algorithm.hashings strings) := by
  refine ⟨t.root.hashed t.scheme.encode ++ more, fun _ _ hn => ?_, List.subset_append_right ..,
    ?_⟩
  · exact ⟨(ht _ _ hn).hash_eq, List.mem_append_left _ (Node.encode_mem_hashed hn),
      hfits.content hn⟩
  · rw [Algorithm.hashings, List.map_append]
    exact hfree

theorem exists_insert_eq_ok {t : Tree V} {path : Path} {v : V} (hpath : path ≠ [])
    (hv : ∃ hash, t.scheme.hashValue v = .ok hash) (edit : Nat) :
    ∃ u, t.insert edit path v = .ok u ∧ u.scheme = t.scheme := by
  obtain ⟨hash, hv⟩ := hv
  rw [Tree.insert, if_neg hpath, hv]
  exact ⟨_, rfl, rfl⟩

/-- What is hashed for an insertion that is not refused. -/
theorem insert_eq_ok_of_encode {t u : Tree V} {edit : Nat} {path : Path} {v : V}
    (h : t.insert edit path v = .ok u) :
    ∃ bytes, t.scheme.encode v = .ok bytes ∧ u.scheme = t.scheme ∧
      u.root = t.root.insert t.algorithm ⟨v, t.algorithm.digest bytes⟩ ⟨edit, 0⟩ path ∧
      t.insertHashed edit path v =
        bytes :: t.root.insertHashed t.algorithm ⟨v, t.algorithm.digest bytes⟩ ⟨edit, 0⟩ path := by
  obtain ⟨hash, hv, hs, hr⟩ := insert_eq_ok h
  obtain ⟨bytes, hb, rfl⟩ := Scheme.hashValue_eq_ok_iff.mp hv
  refine ⟨bytes, hb, hs, hr, ?_⟩
  rw [insertHashed, hb]

/-- After an insertion the value hash at its path is the new one, and all others are as before. -/
theorem AllHashedIn.insert {t u : Tree V} (ht : t.AllHashedIn strings)
    (hfree : CollisionFree (t.algorithm.hashings strings)) {edit : Nat} {path : Path} {v : V}
    (h : t.insert edit path v = .ok u)
    (hpath : ∀ label ∈ path, (Bytes.ofString label).length < 2 ^ 64)
    (hsub : t.insertHashed edit path v ⊆ strings) :
    u.scheme = t.scheme ∧ u.AllHashedIn strings ∧
      ∀ q, u.valueHash? q =
        if q = path then (t.scheme.hashValue v).toOption else t.valueHash? q := by
  obtain ⟨bytes, hb, hs, hr, hhashed⟩ := insert_eq_ok_of_encode h
  rw [hhashed, List.cons_subset] at hsub
  have ha : u.algorithm = t.algorithm := congrArg Scheme.algorithm hs
  refine ⟨hs, ?_, fun q => ?_⟩
  · rw [AllHashedIn, ha, hr]
    exact Node.AllHashedIn.insert ht hpath hsub.2
  · have hvalue : (t.scheme.hashValue v).toOption = some (t.algorithm.digest bytes) :=
      congrArg Except.toOption (Scheme.hashValue_eq_ok_iff.mpr ⟨bytes, hb, rfl⟩)
    rw [valueHash?, find?, hr, hvalue]
    exact Node.AllHashedIn.valueHashAt?_insert hfree ht hpath hsub.2 q

/-- After a list of insertions the value hash at a path is that of its last entry. -/
theorem AllHashedIn.insertAll {entries : List (Path × V)} {edit : Nat} {t u : Tree V}
    (ht : t.AllHashedIn strings) (hfree : CollisionFree (t.algorithm.hashings strings))
    (h : insertAll edit entries t = .ok u) (hfits : EntriesFit entries)
    (hsub : t.insertAllHashed edit entries ⊆ strings) :
    u.scheme = t.scheme ∧ u.AllHashedIn strings ∧ ∀ q, u.valueHash? q =
      match Table.get? q entries.reverse with
      | some v => (t.scheme.hashValue v).toOption
      | none => t.valueHash? q := by
  induction entries generalizing edit t with
  | nil =>
    cases h
    exact ⟨rfl, ht, fun _ => rfl⟩
  | cons e rest ih =>
    obtain ⟨w, hi, h⟩ := insertAll_cons_eq_ok h
    rw [insertAllHashed, hi] at hsub
    obtain ⟨hfit, hfits⟩ := List.forall_mem_cons.mp hfits
    obtain ⟨hnow, hlater⟩ := List.append_subset.mp hsub
    obtain ⟨hs, hw, hvalues⟩ := ht.insert hfree hi hfit hnow
    have hfree' : CollisionFree (w.algorithm.hashings strings) := by
      rw [algorithm, hs]
      exact hfree
    obtain ⟨hs', hu, hall⟩ := ih hw hfree' h hfits hlater
    refine ⟨hs'.trans hs, hu, fun q => ?_⟩
    rw [hall q, List.reverse_cons, Table.get?_append, hvalues q, hs]
    cases Table.get? q rest.reverse with
    | some v => rfl
    | none =>
      by_cases hq : q = e.1
      · simp [Table.get?, hq]
      · simp [Table.get?, hq]

/-- Every value that is set is hashed. -/
theorem encode_mem_insertAllHashed {entries : List (Path × V)} {edit : Nat} {t u : Tree V}
    (h : insertAll edit entries t = .ok u) {e : Path × V} (he : e ∈ entries) {bytes : Bytes}
    (hb : t.scheme.encode e.2 = .ok bytes) : bytes ∈ t.insertAllHashed edit entries := by
  induction entries generalizing edit t with
  | nil => cases he
  | cons d rest ih =>
    obtain ⟨w, hi, h⟩ := insertAll_cons_eq_ok h
    obtain ⟨bytes', hb', hs, -, hhashed⟩ := insert_eq_ok_of_encode hi
    rw [insertAllHashed, hi]
    refine List.mem_append.mpr ?_
    rcases List.mem_cons.mp he with rfl | he
    · rw [hb'] at hb
      rw [hhashed, ← Except.ok.inj hb]
      exact .inl List.mem_cons_self
    · exact .inr (ih h he (hs ▸ hb))

/-- A value that is found after insertions was inserted at its path, or was there before. -/
theorem origin_of_insertAll {entries : List (Path × V)} {edit : Nat} {t u : Tree V}
    (h : insertAll edit entries t = .ok u) {q : Path} {w : V} (hw : u.get? q = some w) :
    (q, w) ∈ entries ∨ t.get? q = some w := by
  induction entries generalizing edit t with
  | nil =>
    cases h
    exact .inr hw
  | cons e rest ih =>
    obtain ⟨s, hi, h⟩ := insertAll_cons_eq_ok h
    rcases ih h with hmem | hold
    · exact .inl (List.mem_cons_of_mem _ hmem)
    obtain ⟨hash, -, -, hr⟩ := insert_eq_ok hi
    rw [get?_eq, hr] at hold
    obtain ⟨stored, hstored, rfl⟩ := Option.map_eq_some_iff.mp hold
    rcases Node.origin_of_insert hstored with ⟨rfl, rfl⟩ | hstored
    · exact .inl List.mem_cons_self
    · refine .inr ?_
      rw [get?_eq, hstored]
      rfl

/-- The value hash at a path of a tree that was made from entries is that of the last entry of the
path. -/
theorem ofEntries_valueHash? {scheme : Scheme V} {edit : Nat} {entries : List (Path × V)}
    {t : Tree V} (h : ofEntries scheme edit entries = .ok t) (hfits : EntriesFit entries)
    (hsub : ofEntriesHashed scheme edit entries ⊆ strings)
    (hfree : CollisionFree (scheme.algorithm.hashings strings)) :
    t.scheme = scheme ∧ t.AllHashedIn strings ∧ ∀ q, t.valueHash? q =
      (Table.get? q entries.reverse).bind fun v => (scheme.hashValue v).toOption := by
  rw [ofEntriesHashed, List.cons_subset] at hsub
  have hempty : (empty scheme edit).AllHashedIn strings := Node.allHashedIn_empty hsub.1
  obtain ⟨hs, ht, hall⟩ := hempty.insertAll hfree h hfits hsub.2
  refine ⟨hs, ht, fun q => ?_⟩
  rw [hall q]
  cases Table.get? q entries.reverse with
  | some v => rfl
  | none => exact Node.valueHashAt?_empty _ q

theorem origin_of_ofEntries {scheme : Scheme V} {edit : Nat} {entries : List (Path × V)}
    {t : Tree V} (h : ofEntries scheme edit entries = .ok t) {q : Path} {w : V}
    (hw : t.get? q = some w) : (q, w) ∈ entries := by
  refine (origin_of_insertAll h hw).resolve_right fun hnone => ?_
  rw [get?_eq, empty, Node.stored?_empty] at hnone
  cases hnone

end Tree

end ConfigTree
