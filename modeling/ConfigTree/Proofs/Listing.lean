import ConfigTree.Proofs.Assignments
import ConfigTree.Proofs.CommandLines
import ConfigTree.Proofs.Detection
import ConfigTree.Proofs.Printing
import ConfigTree.Proofs.Rebuilding
/-!
# What is printed of one list of assignments

A listing walks over the whole tree of the assignments, and a look-up goes down to one node of it.
Both tell what was assigned last (`Command.Printed`): a path is listed exactly if it was assigned
to, and it is found exactly if it is the root or a listed path lies at or below it. A listed path,
taken as the text that is printed for it, is found again with the value and the hash that are
listed. Nothing else about the assignments shows.
-/

namespace ConfigTree

/-- The values of a tree with their paths and the hashes of their nodes. -/
def Tree.listed {V : Type} (t : Tree V) : List (Path × V × Hash) :=
  t.entries.map fun e => (e.1, e.2, (t.hash? e.1).getD t.hash)

namespace Tree

variable {V : Type} {t u : Tree V}

theorem ascending_listed (t : Tree V) : Table.Ascending t.listed :=
  List.pairwise_map.mpr t.ascending_entries

theorem mem_listed_iff {path : Path} {v : V} {hash : Hash} :
    (path, v, hash) ∈ t.listed ↔ t.get? path = some v ∧ t.hash? path = some hash := by
  constructor
  · intro h
    obtain ⟨⟨p, w⟩, hmem, he⟩ := List.mem_map.mp h
    cases he
    have hv := mem_entries_iff.mp hmem
    obtain ⟨sub, hsub⟩ := exists_subtree_of_get? hv
    refine ⟨hv, ?_⟩
    rw [hash?_of_subtree? hsub]
    rfl
  · rintro ⟨hv, hhash⟩
    refine List.mem_map.mpr ⟨(path, v), mem_entries_iff.mpr hv, ?_⟩
    rw [hhash]
    rfl

theorem size_eq_countP_listed {sub : Tree V} {path : Path} (h : t.subtree? path = some sub) :
    sub.size = t.listed.countP fun e => e.1.isWithin path := by
  rw [size_subtree h, listed, List.countP_map]
  rfl

/-- Trees with the same values are listed with the same hashes. -/
theorem Sound.listed_eq (ht : t.Sound) (hu : u.Sound) (hs : t.scheme = u.scheme)
    (h : ∀ path, t.get? path = u.get? path) : t.hash = u.hash ∧ t.listed = u.listed := by
  have hhash := ht.hash?_eq_of_get? hu hs h
  have hroot : t.hash = u.hash := Option.some.inj (hhash [])
  refine ⟨hroot, ?_⟩
  rw [listed, listed, entries_eq_of_get?_eq h, hroot]
  simp only [hhash]

end Tree

namespace Command

/-- The document of a listing, from the hash of the root and the entries with their hashes. -/
def listingJson (algorithm : Algorithm) (root : Hash) (entries : List (Path × String × Hash)) :
    Json :=
  .object [("algorithm", .string algorithm.name),
    ("entries", .array (entries.map fun (path, value, hash) =>
      .object [("hash", .string hash.toHex), ("path", .string path.display),
        ("value", .string value)])),
    ("root", .string root.toHex)]

/-- The document of a path that was found, with the number of entries at or below it. -/
def foundJson (path : Path) (value : Option String) (hash : Hash) (entries : Nat) : Json :=
  .object [("entries", .int entries), ("hash", .string hash.toHex),
    ("path", .string path.display), ("value", (value.map Json.string).getD .null)]

/-- No numbers are listed. -/
theorem numbers_listingJson (algorithm : Algorithm) (root : Hash)
    (entries : List (Path × String × Hash)) :
    (listingJson algorithm root entries).numbers = [] := by
  show Json.itemNumbers (entries.map _) ++ [] = []
  rw [List.append_nil, Json.itemNumbers_eq_flatMap, List.flatMap_map, List.flatMap_eq_nil_iff]
  exact fun _ _ => rfl

theorem toJson_listTree (t : Tree String) :
    (listTree t).toJson = listingJson t.algorithm t.hash t.listed := by
  rw [listTree, Report.toJson, listingJson, Tree.listed, List.map_map, List.map_map]
  have hentries : ∀ e ∈ t.entries, (ListedEntry.mk e.1 e.2 (t.hash? e.1)).toJson =
      .object [("hash", .string ((t.hash? e.1).getD t.hash).toHex),
        ("path", .string e.1.display), ("value", .string e.2)] := by
    intro e he
    obtain ⟨sub, hsub⟩ := Tree.exists_subtree_of_get? (Tree.mem_entries_iff.mp he)
    rw [Tree.hash?_of_subtree? hsub]
    rfl
  exact congrArg (fun entries => Json.object [("algorithm", .string t.algorithm.name),
    ("entries", .array entries), ("root", .string t.hash.toHex)]) (List.map_congr_left hentries)

/-- The text leads to the root, or to a path at or below which something is assigned. -/
def Leads (texts : List String) (text : String) : Prop :=
  dottedLabels text = [] ∨ ∃ path value, LastAssigned texts path value ∧ dottedLabels text <+: path

/-- What the commands that read one list of assignments print, in terms of the last assignments. -/
structure Printed (format : Format) (algorithm : Algorithm) (texts : List String) (root : Hash)
    (entries : List (Path × String × Hash)) : Prop where
  hash_line : execute (hashLine format algorithm texts) =
    (Invocation.mk format algorithm (.hash texts)).outcome
  get_line : ∀ text, execute (getLine format algorithm text texts) =
    (Invocation.mk format algorithm (.get text texts)).outcome
  listing : (Invocation.mk format algorithm (.hash texts)).outcome.Prints format 0
    (listingJson algorithm root entries)
  ascending : Table.Ascending entries
  listed_iff : ∀ path value,
    (∃ hash, (path, value, hash) ∈ entries) ↔ LastAssigned texts path value
  /-- A path that is found has the value that was assigned to it last, if any. -/
  found : ∀ text, Leads texts text → ∃ value hash,
    (Invocation.mk format algorithm (.get text texts)).outcome.Prints format 0
      (foundJson (dottedLabels text) value hash
        (entries.countP fun e => e.1.isWithin (dottedLabels text))) ∧
    (∀ v, value = some v ↔ LastAssigned texts (dottedLabels text) v) ∧
    (dottedLabels text = [] → hash = root)
  missing : ∀ text, ¬ Leads texts text →
    (Invocation.mk format algorithm (.get text texts)).outcome.Prints format 1
      (errorJson (missingText (dottedLabels text)))
  /-- The text that is printed for a path leads back to it. -/
  given_back : ∀ path value hash, (path, value, hash) ∈ entries →
    (Invocation.mk format algorithm (.get path.display texts)).outcome.Prints format 0
      (foundJson path (some value) hash (entries.countP fun e => e.1.isWithin path))

section Tree

variable {algorithm : Algorithm} {texts : List String} {t : Tree String}

theorem grown_treeOf {edit : Nat} (h : treeOf algorithm edit texts = .ok t) : t.Grown :=
  Tree.Grown.insertAll (.empty _ _) (insertAll_of_assign h)

theorem outcome_hash (format : Format) (h : treeOf algorithm 0 texts = .ok t)
    (ha : t.algorithm = algorithm) : (Invocation.mk format algorithm (.hash texts)).outcome =
      ⟨0, format.print (listingJson algorithm t.hash t.listed), ""⟩ := by
  have hreport : (Action.hash texts).report algorithm = .ok (listTree t) := by
    rw [Action.report, h]
    rfl
  rw [Invocation.outcome, hreport]
  dsimp only
  rw [toJson_listTree, ha]

theorem prints_get_of_some (format : Format) (h : treeOf algorithm 0 texts = .ok t)
    {text : String} {sub : Tree String} (hsub : t.subtree? (dottedLabels text) = some sub) :
    (Invocation.mk format algorithm (.get text texts)).outcome.Prints format 0
      (foundJson (dottedLabels text) (t.get? (dottedLabels text)) sub.hash
        (t.listed.countP fun e => e.1.isWithin (dottedLabels text))) := by
  have hvalue : sub.value? = t.get? (dottedLabels text) := by
    rw [Tree.value?, ← Tree.get?_append hsub, List.append_nil]
  have hreport : (Action.get text texts).report algorithm = .ok (.subtree (dottedLabels text)
      (t.get? (dottedLabels text)) sub.hash
      (t.listed.countP fun e => e.1.isWithin (dottedLabels text))) := by
    rw [← hvalue, ← Tree.size_eq_countP_listed hsub, Action.report, h, ofDotted_eq]
    simp only [bind, Except.bind, lookUp, hsub]
  rw [Invocation.outcome, hreport]
  exact prints_print format 0 _

theorem prints_get_of_none (format : Format) (h : treeOf algorithm 0 texts = .ok t)
    {text : String} (hnone : t.subtree? (dottedLabels text) = none) :
    (Invocation.mk format algorithm (.get text texts)).outcome.Prints format 1
      (errorJson (missingText (dottedLabels text))) := by
  have hpath : dottedLabels text ≠ [] := fun hroot => by
    rw [hroot] at hnone
    cases hnone
  have hreport : (Action.get text texts).report algorithm =
      .error (.pathNotFound (dottedLabels text)) := by
    rw [Action.report, h, ofDotted_eq]
    simp only [bind, Except.bind, lookUp, hnone]
  rw [Invocation.outcome, hreport, ← Failure.toJson_pathNotFound hpath]
  exact prints_print format 1 _

/-- A text leads somewhere exactly if the tree has a node there. -/
theorem leads_iff (ht : t.Sound)
    (hget : ∀ path value, t.get? path = some value ↔ LastAssigned texts path value)
    (text : String) :
    Leads texts text ↔ ∃ sub, t.subtree? (dottedLabels text) = some sub := by
  rw [Tree.exists_subtree?_iff, ht.find?_isSome_iff, Leads]
  refine or_congr_right ⟨?_, ?_⟩
  · rintro ⟨path, value, hlast, below, rfl⟩
    exact ⟨below, value, (hget _ _).mpr hlast⟩
  · rintro ⟨below, value, hvalue⟩
    exact ⟨_, value, (hget _ _).mp hvalue, below, rfl⟩

theorem separable_of_lastAssigned {path : Path} {value : String}
    (h : LastAssigned texts path value) : Separable path := by
  obtain ⟨-, -, -, -, ⟨key, -, -, rfl⟩, -⟩ := h
  exact separable_dottedLabels key

theorem printed_treeOf (format : Format) (h : treeOf algorithm 0 texts = .ok t)
    (hfits : Tree.EntriesFit (entriesOf texts))
    (hfree : CollisionFree (algorithm.hashings (treeHashed algorithm 0 texts))) :
    Printed format algorithm texts t.hash t.listed := by
  have ht := sound_treeOf h
  have ha : t.algorithm = algorithm :=
    congrArg Scheme.algorithm (valueHash?_treeOf h hfits (List.Subset.refl _) hfree).1
  have hget : ∀ path value, t.get? path = some value ↔ LastAssigned texts path value :=
    fun path value => by rw [get?_treeOf h hfits hfree, get?_reverse_entriesOf]
  exact {
    hash_line := execute_hashLine format algorithm texts
    get_line := fun text => execute_getLine format algorithm text texts
    listing := outcome_hash format h ha ▸ prints_print format 0 _
    ascending := t.ascending_listed
    listed_iff := by
      intro path value
      rw [← hget]
      constructor
      · rintro ⟨hash, hmem⟩
        exact (Tree.mem_listed_iff.mp hmem).1
      · intro hvalue
        obtain ⟨sub, hsub⟩ := Tree.exists_subtree_of_get? hvalue
        exact ⟨sub.hash, Tree.mem_listed_iff.mpr ⟨hvalue, Tree.hash?_of_subtree? hsub⟩⟩
    found := by
      intro text hleads
      obtain ⟨sub, hsub⟩ := (leads_iff ht hget text).mp hleads
      refine ⟨_, _, prints_get_of_some format h hsub, hget _, fun hroot => ?_⟩
      have hhash := Tree.hash?_of_subtree? hsub
      rw [hroot] at hhash
      exact (Option.some.inj hhash).symm
    missing := by
      intro text hnowhere
      refine prints_get_of_none format h (Option.eq_none_iff_forall_ne_some.mpr fun sub hsub => ?_)
      exact hnowhere ((leads_iff ht hget text).mpr ⟨sub, hsub⟩)
    given_back := by
      intro path value hash hmem
      obtain ⟨hvalue, hhash⟩ := Tree.mem_listed_iff.mp hmem
      have hpath : path ≠ [] := by
        rintro rfl
        rw [(grown_treeOf h).get?_root] at hvalue
        cases hvalue
      have hback := dottedLabels_display (separable_of_lastAssigned ((hget _ _).mp hvalue)) hpath
      obtain ⟨sub, hsub⟩ := Tree.exists_subtree_of_get? hvalue
      rw [Tree.hash?_of_subtree? hsub] at hhash
      rw [← hback] at hsub
      have hprints := prints_get_of_some format h hsub
      rw [hback, hvalue, Option.some.inj hhash] at hprints
      exact hprints }

end Tree

/-- Assignments that say the same have labels of the same lengths. -/
theorem entriesFit_of_lastAssigned {texts others : List String}
    (h : ∀ path value, LastAssigned others path value → LastAssigned texts path value)
    (hfits : Tree.EntriesFit (entriesOf texts)) : Tree.EntriesFit (entriesOf others) := by
  intro e he
  cases hv : Table.get? e.1 (entriesOf others).reverse with
  | none => exact absurd rfl (Table.get?_eq_none_iff.mp hv e (List.mem_reverse.mpr he))
  | some value =>
    have hlast := h e.1 value (get?_reverse_entriesOf.mp hv)
    exact hfits (e.1, value) (mem_entriesOf_of_get? (get?_reverse_entriesOf.mpr hlast))

/-- A listing and look-ups agree with the last assignments and with each other, and assignments that
say the same are listed the same. -/
theorem listing_and_lookUp_agree (format : Format) {algorithm : Algorithm} {texts : List String}
    (haccepted : (treeOf algorithm 0 texts).isOk)
    (hfree : CollisionFree (algorithm.hashings (treeHashed algorithm 0 texts)))
    (hfits : Tree.EntriesFit (entriesOf texts)) :
    ∃ root entries, Printed format algorithm texts root entries ∧
      ∀ others, (treeOf algorithm 0 others).isOk →
        CollisionFree (algorithm.hashings (treeHashed algorithm 0 others)) →
        (∀ path value, LastAssigned others path value ↔ LastAssigned texts path value) →
        (Invocation.mk format algorithm (.hash others)).outcome =
          (Invocation.mk format algorithm (.hash texts)).outcome := by
  obtain ⟨t, ht⟩ := exists_tree_of_isOk haccepted
  have hprinted := printed_treeOf format ht hfits hfree
  refine ⟨t.hash, t.listed, hprinted, fun others haccepted' hfree' hsame => ?_⟩
  obtain ⟨u, hu⟩ := exists_tree_of_isOk haccepted'
  have hfits' := entriesFit_of_lastAssigned (fun path value => (hsame path value).mp) hfits
  have hs : u.scheme = t.scheme :=
    (valueHash?_treeOf hu hfits' (List.Subset.refl _) hfree').1.trans
      (valueHash?_treeOf ht hfits (List.Subset.refl _) hfree).1.symm
  have hget : ∀ path, u.get? path = t.get? path := by
    intro path
    refine Option.ext fun value => ?_
    rw [get?_treeOf hu hfits' hfree', get?_treeOf ht hfits hfree, get?_reverse_entriesOf,
      get?_reverse_entriesOf, hsame]
  obtain ⟨hroot, hlisted⟩ := (sound_treeOf hu).listed_eq (sound_treeOf ht) hs hget
  have hlisting := (printed_treeOf format hu hfits' hfree').listing
  rw [hroot, hlisted] at hlisting
  exact hlisting.unique hprinted.listing

/-- A path has a value and another one below it, a path is assigned to twice, a value holds an
equals sign, and labels look like an option and like the name of the root. -/
theorem listing_and_lookUp_agree_on_odd_labels :
    let texts := ["a.b=1", "a=2", ".a..b=3", "--path.<root>=4=5"]
    let others := ["--path.<root>=4=5", "a=2", "a.b=3"]
    ∃ root entries, Printed .indented .blake3 texts root entries ∧
      (entries.map fun e => (e.1, e.2.1)) =
        [(["--path", "<root>"], "4=5"), (["a"], "2"), (["a", "b"], "3")] ∧
      Json.parse (Invocation.mk .indented .blake3 (.hash texts)).outcome.output =
        .ok (listingJson .blake3 root entries) ∧
      (∃ hash, (["--path", "<root>"], "4=5", hash) ∈ entries ∧
        Json.parse (Invocation.mk .indented .blake3 (.get "--path.<root>" texts)).outcome.output =
          .ok (foundJson ["--path", "<root>"] (some "4=5") hash 1)) ∧
      (Invocation.mk .indented .blake3 (.hash others)).outcome =
        (Invocation.mk .indented .blake3 (.hash texts)).outcome := by
  intro texts others
  have hall : (treeOf .blake3 0 texts).isOk ∧ (treeOf .blake3 0 others).isOk ∧
      CollisionFree (Algorithm.hashings .blake3 (treeHashed .blake3 0 texts)) ∧
      CollisionFree (Algorithm.hashings .blake3 (treeHashed .blake3 0 others)) ∧
      Tree.EntriesFit (entriesOf texts) := by
    decide +kernel +zetaReduce
  have hentries : entriesOf texts = [(["a", "b"], "1"), (["a"], "2"), (["a", "b"], "3"),
        (["--path", "<root>"], "4=5")] ∧
      entriesOf others = [(["--path", "<root>"], "4=5"), (["a"], "2"), (["a", "b"], "3")] ∧
      Path.display ["--path", "<root>"] = "--path.<root>" := by decide +kernel +zetaReduce
  obtain ⟨haccepted, haccepted', hfree, hfree', hfits⟩ := hall
  obtain ⟨htexts, hothers, hdisplay⟩ := hentries
  obtain ⟨root, entries, hprinted, hsame⟩ :=
    listing_and_lookUp_agree .indented haccepted hfree hfits
  have hpaths : (entries.map fun e => (e.1, e.2.1)) =
      [(["--path", "<root>"], "4=5"), (["a"], "2"), (["a", "b"], "3")] := by
    refine Table.eq_of_mem_iff (Table.ascending_map Prod.fst hprinted.ascending) (by decide) ?_
    intro path value
    have hmem : (path, value) ∈ (entries.map fun e => (e.1, e.2.1)) ↔
        ∃ hash, (path, value, hash) ∈ entries := by simp
    rw [hmem, hprinted.listed_iff, ← get?_reverse_entriesOf, htexts]
    by_cases hb : path = ["a", "b"]
    · simp [Table.get?, hb, eq_comm]
    by_cases ha : path = ["a"]
    · simp [Table.get?, ha, eq_comm]
    by_cases hodd : path = ["--path", "<root>"] <;> simp [Table.get?, hb, ha, hodd, eq_comm]
  have hlast : LastAssigned texts ["--path", "<root>"] "4=5" := by
    rw [← get?_reverse_entriesOf, htexts]
    rfl
  obtain ⟨hash, hmem⟩ := (hprinted.listed_iff _ _).mpr hlast
  have hback := hprinted.given_back _ _ _ hmem
  have hcount : (entries.countP fun e => e.1.isWithin ["--path", "<root>"]) = 1 := by
    have hwithin : (entries.map fun e => (e.1, e.2.1)).countP
        (fun e => e.1.isWithin ["--path", "<root>"]) = 1 := by
      rw [hpaths]
      rfl
    rwa [List.countP_map] at hwithin
  rw [hdisplay, hcount] at hback
  have hnumber : ∀ n ∈ [Json.Number.int 1], n.IsInteger := by decide
  refine ⟨root, entries, hprinted, hpaths, ?_, ⟨hash, hmem, hback.parse_output hnumber⟩, ?_⟩
  · exact hprinted.listing.parse_output (by simp [numbers_listingJson])
  refine hsame others haccepted' hfree' fun path value => ?_
  rw [← get?_reverse_entriesOf, ← get?_reverse_entriesOf, htexts, hothers]
  by_cases h₁ : path = ["a", "b"]
  · simp [Table.get?, h₁]
  · by_cases h₂ : path = ["a"] <;> simp [Table.get?, h₁, h₂, eq_comm]

end Command

end ConfigTree
