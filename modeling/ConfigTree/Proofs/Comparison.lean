import ConfigTree.Proofs.Assignments
import ConfigTree.Proofs.Detection
import ConfigTree.Proofs.Printing
/-!
# What the comparison of two lists of assignments prints

The entries of a comparison, and what it says of a watched path, are read off hashes of trees. They
tell how the last assignments to each path differ (`Command.Differs`), and whether a watched path is
still assigned to (`Command.Gone`): the hash of a tree stands for what was assigned, as long as no
two different byte strings that are hashed while the trees are built have one hash.
-/

namespace ConfigTree

namespace Command

/-- How the last assignments to a path differ from the old texts to the new ones, in words. -/
inductive Differs (old new : List String) (path : Path) : String → Prop where
  | added (value : String) : LastAssigned new path value →
      (∀ value', ¬ LastAssigned old path value') → Differs old new path "added"
  | removed (value : String) : LastAssigned old path value →
      (∀ value', ¬ LastAssigned new path value') → Differs old new path "removed"
  | modified (value value' : String) : LastAssigned old path value → LastAssigned new path value' →
      value ≠ value' → Differs old new path "modified"

theorem differs_iff {old new : List String} {path : Path} {kind : String} :
    Differs old new path kind ↔
      (∃ value, LastAssigned new path value ∧ (∀ value', ¬ LastAssigned old path value') ∧
        kind = "added") ∨
      (∃ value, LastAssigned old path value ∧ (∀ value', ¬ LastAssigned new path value') ∧
        kind = "removed") ∨
      ∃ value value', LastAssigned old path value ∧ LastAssigned new path value' ∧
        value ≠ value' ∧ kind = "modified" := by
  constructor
  · rintro (⟨v, hnew, hold⟩ | ⟨v, hold, hnew⟩ | ⟨v, v', hold, hnew, hne⟩)
    · exact .inl ⟨v, hnew, hold, rfl⟩
    · exact .inr (.inl ⟨v, hold, hnew, rfl⟩)
    · exact .inr (.inr ⟨v, v', hold, hnew, hne, rfl⟩)
  · rintro (⟨v, hnew, hold, rfl⟩ | ⟨v, hold, hnew, rfl⟩ | ⟨v, v', hold, hnew, hne, rfl⟩)
    · exact .added v hnew hold
    · exact .removed v hold hnew
    · exact .modified v v' hold hnew hne

/-- The path is not that of the root, and nothing is assigned at or below it. -/
def Gone (texts : List String) (path : Path) : Prop :=
  path ≠ [] ∧ ∀ below value, ¬ LastAssigned texts (path ++ below) value

/-- The document of a comparison, from the entries with their kinds and the watched path's part. -/
def comparisonJson (changed : List (Path × String)) (watched : Json) : Json :=
  .object [("added", .int (changed.countP fun e => e.2 = "added")),
    ("entries", .array (changed.map fun (path, kind) =>
      .object [("kind", .string kind), ("path", .string path.display)])),
    ("modified", .int (changed.countP fun e => e.2 = "modified")),
    ("removed", .int (changed.countP fun e => e.2 = "removed")),
    ("root_changed", .bool (!changed.isEmpty)), ("watch", watched)]

end Command

namespace ValueChange

theorem isAdded_iff (c : ValueChange) : c.isAdded = true ↔ c.kind = "added" := by
  cases c <;> simp [isAdded, kind]

theorem isRemoved_iff (c : ValueChange) : c.isRemoved = true ↔ c.kind = "removed" := by
  cases c <;> simp [isRemoved, kind]

theorem isModified_iff (c : ValueChange) : c.isModified = true ↔ c.kind = "modified" := by
  cases c <;> simp [isModified, kind]

/-- The kind of a change tells on which side there is a value, if values are told apart. -/
theorem kind_between?_map {α : Type} {f : α → Hash} {x y : Option α}
    (hf : ∀ v v', x = some v → y = some v' → f v = f v' → v = v') (kind : String) :
    (∃ c, between? (x.map f) (y.map f) = some c ∧ c.kind = kind) ↔
      (∃ v, y = some v ∧ x = none ∧ kind = "added") ∨
      (∃ v, x = some v ∧ y = none ∧ kind = "removed") ∨
      ∃ v v', x = some v ∧ y = some v' ∧ v ≠ v' ∧ kind = "modified" := by
  cases x with
  | none =>
    cases y with
    | none => simp [between?]
    | some v' => simp [between?, ValueChange.kind, eq_comm]
  | some v =>
    cases y with
    | none => simp [between?, ValueChange.kind, eq_comm]
    | some v' =>
      by_cases hv : v = v'
      · simp [between?, hv]
      · have hne : f v ≠ f v' := fun he => hv (hf v v' rfl rfl he)
        simp [between?, ValueChange.kind, hne, hv, eq_comm]

end ValueChange

/-- The changed paths with the kinds of their changes. -/
def Diff.kinds (d : Diff) : List (Path × String) := d.map fun (path, c) => (path, c.kind)

theorem Diff.mem_kinds_iff {d : Diff} {path : Path} {kind : String} :
    (path, kind) ∈ d.kinds ↔ ∃ c, (path, c) ∈ d ∧ c.kind = kind := by
  constructor
  · intro h
    obtain ⟨⟨p, c⟩, hmem, he⟩ := List.mem_map.mp h
    cases he
    exact ⟨c, hmem, rfl⟩
  · rintro ⟨c, hmem, rfl⟩
    exact List.mem_map.mpr ⟨(path, c), hmem, rfl⟩

theorem Diff.countP_kinds (d : Diff) {p : ValueChange → Bool} {kind : String}
    (h : ∀ c, p c = true ↔ c.kind = kind) :
    d.kinds.countP (fun e => e.2 = kind) = d.countP fun (_, c) => p c := by
  rw [kinds, List.countP_map]
  refine List.countP_congr fun e _ => ?_
  simp [h]

theorem Diff.exists_kinds_within_iff (d : Diff) (top : Path) :
    (∃ e ∈ d.kinds, top <+: e.1) ↔ d.within top ≠ [] := by
  constructor
  · rintro ⟨e, he, hwithin⟩
    obtain ⟨change, hmem, rfl⟩ := List.mem_map.mp he
    exact List.ne_nil_of_mem (List.mem_filter.mpr ⟨hmem, Path.isWithin_iff.mpr hwithin⟩)
  · intro hne
    obtain ⟨change, hmem⟩ := List.exists_mem_of_ne_nil _ hne
    obtain ⟨hmem, hwithin⟩ := List.mem_filter.mp hmem
    exact ⟨_, List.mem_map.mpr ⟨change, hmem, rfl⟩, Path.isWithin_iff.mp hwithin⟩

namespace Command

section Trees

variable {algorithm : Algorithm} {edit : Nat} {old new texts : List String} {t u : Tree String}
  {strings : List Bytes}

/-- The tree keeps at each path the hash of what was assigned there last, and everything that was
hashed for it is among the byte strings. -/
structure Represents (algorithm : Algorithm) (strings : List Bytes) (texts : List String)
    (t : Tree String) : Prop where
  algorithm_eq : t.algorithm = algorithm
  sound : t.Sound
  hashed : t.root.AllHashedIn algorithm strings
  valueHash?_eq : ∀ path, t.valueHash? path =
    (Table.get? path (entriesOf texts).reverse).map fun v => algorithm.digest (Bytes.ofString v)
  value_mem : ∀ path value, Table.get? path (entriesOf texts).reverse = some value →
    Bytes.ofString value ∈ strings

theorem represents_treeOf (h : treeOf algorithm edit texts = .ok t)
    (hfits : Tree.EntriesFit (entriesOf texts)) (hsub : treeHashed algorithm edit texts ⊆ strings)
    (hfree : CollisionFree (algorithm.hashings strings)) :
    Represents algorithm strings texts t := by
  obtain ⟨hs, hashed, hvalues⟩ := valueHash?_treeOf h hfits hsub hfree
  have ha : t.algorithm = algorithm := congrArg Scheme.algorithm hs
  exact ⟨ha, sound_treeOf h, ha ▸ hashed, hvalues,
    fun _ _ hv => hsub (mem_treeHashed h (mem_entriesOf_of_get? hv))⟩

/-- A path has no node exactly if it is gone. -/
theorem Represents.find?_eq_none_iff (h : Represents algorithm strings texts t) (path : Path) :
    t.find? path = none ↔ Gone texts path := by
  by_cases hpath : path = []
  · subst hpath
    simp [Gone, Tree.find?, Node.find?]
  · simp only [Gone, h.sound.find?_eq_none_iff hpath, h.valueHash?_eq, Option.map_eq_none_iff,
      get?_reverse_entriesOf_eq_none]
    exact (and_iff_right hpath).symm

variable (hfree : CollisionFree (algorithm.hashings strings))
  (ht : Represents algorithm strings old t) (hu : Represents algorithm strings new u)

include hfree ht hu

theorem Represents.contentByHash : t.ContentByHash u := ht.hashed.contentByHash hu.hashed hfree

/-- The entries of the difference are the paths whose last assignments differ. -/
theorem Represents.mem_kinds_diff_iff {path : Path} {kind : String} :
    (path, kind) ∈ (t.diff u).kinds ↔ Differs old new path kind := by
  have hdigest : ∀ v v', Table.get? path (entriesOf old).reverse = some v →
      Table.get? path (entriesOf new).reverse = some v' →
      algorithm.digest (Bytes.ofString v) = algorithm.digest (Bytes.ofString v') → v = v' :=
    fun v v' hv hv' he => Bytes.ofString_inj
      (hfree.eq_of_digest_eq (ht.value_mem path v hv) (hu.value_mem path v' hv') he)
  simp only [Diff.mem_kinds_iff, Tree.mem_diff_iff_between? (ht.contentByHash hfree hu),
    ht.valueHash?_eq, hu.valueHash?_eq, ValueChange.kind_between?_map hdigest, differs_iff,
    get?_reverse_entriesOf, get?_reverse_entriesOf_eq_none]

/-- The hashes at a path agree exactly if no entry of the difference lies at or below it. -/
theorem Represents.hash?_eq_iff (path : Path) :
    t.hash? path = u.hash? path ↔ (t.diff u).within path = [] := by
  have hc := ht.contentByHash hfree hu
  rw [ht.sound.hash?_eq_iff hu.sound (ht.algorithm_eq.trans hu.algorithm_eq.symm) hc,
    Tree.within_diff_eq_nil_iff hc]

/-- The trees agree exactly if there is no entry. -/
theorem Represents.hash_eq_iff : t.hash = u.hash ↔ t.diff u = [] := by
  have hall : (t.diff u).within [] = t.diff u := List.filter_eq_self.mpr fun _ _ => rfl
  rw [← hall, ← ht.hash?_eq_iff hfree hu []]
  exact (Option.some.injEq _ _).to_iff.symm

end Trees

theorem watchChange_path (path : Path) (old new : Tree String) :
    (watchChange path old new).path = path := by
  rw [watchChange]
  split <;> rfl

/-- The hash that is reported is that at the watched path in the new tree. -/
theorem watchChange_hash (path : Path) (old new : Tree String) :
    (watchChange path old new).hash = new.hash? path := by
  by_cases h : old.hash? path = new.hash? path
  · rw [watchChange, (Tree.between?_eq_none_iff old new path).mpr h]
  · rw [watchChange, Tree.between?_eq_some h]
    cases hs : new.subtree? path with
    | none =>
      rw [Tree.hash?, Tree.subtree?_eq_none.mp hs]
      rfl
    | some sub =>
      rw [Tree.hash?, (Tree.subtree?_eq_some.mp hs).1]
      rfl

theorem watchChange_status (path : Path) (old new : Tree String) :
    (watchChange path old new).status =
      if old.hash? path = new.hash? path then .unchanged
      else if new.find? path = none then .removed else .changed := by
  by_cases h : old.hash? path = new.hash? path
  · rw [watchChange, (Tree.between?_eq_none_iff old new path).mpr h, if_pos h]
  · rw [watchChange, Tree.between?_eq_some h, if_neg h]
    cases hs : new.subtree? path with
    | none =>
      rw [if_pos (Tree.subtree?_eq_none.mp hs)]
      rfl
    | some sub =>
      rw [(Tree.subtree?_eq_some.mp hs).1]
      rfl

theorem hashJson_eq_null_iff {h : Option Hash} : hashJson h = .null ↔ h = none := by
  cases h <;> simp [hashJson]

/-- A watched path is unchanged exactly if no entry of the difference lies at or below it, and else
it is removed or changed. Its hash is null exactly if it is gone. -/
theorem Represents.watchChange_tells {algorithm : Algorithm} {strings : List Bytes}
    {old new : List String} {t u : Tree String} (hfree : CollisionFree (algorithm.hashings strings))
    (ht : Represents algorithm strings old t) (hu : Represents algorithm strings new u)
    (path : Path) :
    let status := (watchChange path t u).status.text
    (status = "unchanged" ↔ ¬ ∃ e ∈ (t.diff u).kinds, path <+: e.1) ∧
      (status = "removed" ↔ (∃ e ∈ (t.diff u).kinds, path <+: e.1) ∧ Gone new path) ∧
      (status = "changed" ↔ (∃ e ∈ (t.diff u).kinds, path <+: e.1) ∧ ¬ Gone new path) ∧
      (hashJson (watchChange path t u).hash = .null ↔ Gone new path) := by
  have hnull : u.hash? path = none ↔ Gone new path :=
    Option.map_eq_none_iff.trans (hu.find?_eq_none_iff _)
  simp only [watchChange_status, watchChange_hash, hashJson_eq_null_iff, hnull,
    ht.hash?_eq_iff hfree hu, Diff.exists_kinds_within_iff]
  by_cases hwithin : (t.diff u).within path = []
  · simp [hwithin, WatchStatus.text]
  · by_cases hgone : Gone new path
    · simp [hwithin, hgone, hu.find?_eq_none_iff, WatchStatus.text]
    · simp [hwithin, hgone, hu.find?_eq_none_iff, WatchStatus.text]

theorem toJson_comparison (rootChanged : Bool) (d : Diff) (watch : Option WatchReport)
    (h : rootChanged = !d.isEmpty) :
    (Report.comparison rootChanged d watch).toJson =
      comparisonJson d.kinds ((watch.map WatchReport.toJson).getD .null) := by
  rw [comparisonJson, d.countP_kinds ValueChange.isAdded_iff, d.countP_kinds
    ValueChange.isModified_iff, d.countP_kinds ValueChange.isRemoved_iff, Report.toJson, h,
    Diff.kinds, List.map_map, List.isEmpty_map]
  rfl

/-- What a comparison prints, in terms of the last assignments to each path: what is printed is read
as one document. Its entries ascend, and are exactly the paths to which the old and the new texts
assign differently. A watched path is
unchanged exactly if no entry lies at or below it. Otherwise it is removed exactly if it is gone,
and its hash is null exactly then. -/
theorem outcome_diff (format : Format) {algorithm : Algorithm} {old new : List String}
    (hold : (treeOf algorithm 0 old).isOk) (hnew : (treeOf algorithm (old.length + 1) new).isOk)
    (hfree : CollisionFree (algorithm.hashings
      (treeHashed algorithm 0 old ++ treeHashed algorithm (old.length + 1) new)))
    (hol : Tree.EntriesFit (entriesOf old)) (hnl : Tree.EntriesFit (entriesOf new))
    (watch : Option String) :
    ∃ changed watched,
      (Invocation.mk format algorithm (.diff old new watch)).outcome.Prints format 0
        (comparisonJson changed watched) ∧
      Table.Ascending changed ∧
      (∀ path kind, (path, kind) ∈ changed ↔ Differs old new path kind) ∧
      (watch = none → watched = .null) ∧
      ∀ text, watch = some text → ∃ hash status,
        watched = .object [("hash", hash), ("path", .string (dottedLabels text).display),
          ("status", .string status)] ∧
        (status = "unchanged" ↔ ¬ ∃ e ∈ changed, dottedLabels text <+: e.1) ∧
        (status = "removed" ↔
          (∃ e ∈ changed, dottedLabels text <+: e.1) ∧ Gone new (dottedLabels text)) ∧
        (status = "changed" ↔
          (∃ e ∈ changed, dottedLabels text <+: e.1) ∧ ¬ Gone new (dottedLabels text)) ∧
        (hash = .null ↔ Gone new (dottedLabels text)) := by
  obtain ⟨t, hold⟩ := exists_tree_of_isOk hold
  obtain ⟨u, hnew⟩ := exists_tree_of_isOk hnew
  have ht : Represents algorithm _ old t :=
    represents_treeOf hold hol (List.subset_append_left ..) hfree
  have hu : Represents algorithm _ new u :=
    represents_treeOf hnew hnl (List.subset_append_right ..) hfree
  have hroot : decide (t.hash ≠ u.hash) = !(t.diff u).isEmpty := by
    cases hd : (t.diff u).isEmpty with
    | true => simpa using (ht.hash_eq_iff hfree hu).mpr (List.isEmpty_iff.mp hd)
    | false => simpa [ht.hash_eq_iff hfree hu] using hd
  refine ⟨(t.diff u).kinds, (watch.map fun text =>
    (watchChange (dottedLabels text) t u).toJson).getD .null, ?_, ?_, ?_, ?_, ?_⟩
  · have hreport : (Action.diff old new watch).report algorithm =
        .ok (compareTrees (watch.map Path.ofDotted) t u) := by
      simp only [Action.report, hold, hnew]
      rfl
    rw [Invocation.outcome, hreport, compareTrees]
    dsimp only
    rw [toJson_comparison _ _ _ hroot, Option.map_map, Option.map_map]
    simp only [Function.comp_def, ofDotted_eq]
    exact prints_print format 0 _
  · exact Table.ascending_map ValueChange.kind (Node.ascending_diff t.ordered u.ordered)
  · exact fun path kind => ht.mem_kinds_diff_iff hfree hu
  · rintro rfl
    rfl
  · rintro text rfl
    refine ⟨_, _, ?_, ht.watchChange_tells hfree hu (dottedLabels text)⟩
    rw [Option.map_some, Option.getD_some, WatchReport.toJson, watchChange_path]

/-- The values of three branches differ, with one branch gone that is watched, and a value was put
back at the top of another one. -/
theorem outcome_diff_of_removed_branch :
    let old := ["a.x=1", "b=2", "b=3", "c.y=4"]
    let new := ["b=1", "a..x=5=5", "b.=3", "b.z="]
    Json.parse (Invocation.mk .compact .blake3 (.diff old new (some ".c"))).outcome.output =
      .ok (.object [("added", .int 1),
        ("entries", .array [
          .object [("kind", .string "modified"), ("path", .string "a.x")],
          .object [("kind", .string "added"), ("path", .string "b.z")],
          .object [("kind", .string "removed"), ("path", .string "c.y")]]),
        ("modified", .int 1), ("removed", .int 1), ("root_changed", .bool true),
        ("watch", .object [("hash", .null), ("path", .string "c"),
          ("status", .string "removed")])]) := by
  intro old new
  have hall : (treeOf .blake3 0 old).isOk ∧ (treeOf .blake3 (old.length + 1) new).isOk ∧
      CollisionFree (Algorithm.hashings .blake3
        (treeHashed .blake3 0 old ++ treeHashed .blake3 (old.length + 1) new)) ∧
      Tree.EntriesFit (entriesOf old) ∧ Tree.EntriesFit (entriesOf new) := by
    decide +kernel +zetaReduce
  have hentries : entriesOf old = [(["a", "x"], "1"), (["b"], "2"), (["b"], "3"),
        (["c", "y"], "4")] ∧
      entriesOf new = [(["b"], "1"), (["a", "x"], "5=5"), (["b"], "3"), (["b", "z"], "")] ∧
      dottedLabels ".c" = ["c"] := by decide +kernel +zetaReduce
  obtain ⟨hold, hnew, hfree, hol, hnl⟩ := hall
  obtain ⟨holds, hnews, hwatched⟩ := hentries
  obtain ⟨changed, watched, hprints, hascending, hmem, -, hwatch⟩ :=
    outcome_diff .compact hold hnew hfree hol hnl (some ".c")
  simp only [differs_iff, ← get?_reverse_entriesOf, holds, hnews] at hmem
  have hchanged : changed =
      [(["a", "x"], "modified"), (["b", "z"], "added"), (["c", "y"], "removed")] := by
    refine Table.eq_of_mem_iff hascending (by decide) fun path kind => ?_
    rw [hmem]
    by_cases hx : path = ["a", "x"]
    · simp [Table.get?, hx]
    by_cases hb : path = ["b"]
    · simp [Table.get?, hb]
    by_cases hz : path = ["b", "z"]
    · simp [Table.get?, hz]
    by_cases hy : path = ["c", "y"] <;> simp [Table.get?, hx, hb, hz, hy, eq_comm]
  have hgone : Gone new ["c"] := by
    simp [Gone, ← get?_reverse_entriesOf, hnews, Table.get?]
  obtain ⟨hash, status, rfl, -, hstatus, -, hnull⟩ := hwatch ".c" rfl
  rw [hwatched] at hstatus hnull
  have hgoes : ∃ e ∈ changed, ["c"] <+: e.1 := by simp [hchanged]
  rw [hnull.mpr hgone, hstatus.mpr ⟨hgoes, hgone⟩, hwatched, hchanged] at hprints
  exact hprints.parse_output (by decide)

end Command

end ConfigTree
