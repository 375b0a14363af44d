import ConfigTree.Command.Assignment
import ConfigTree.Proofs.Insertion
/-!
# What assignments say about a path

An assignment is cut at its first equals sign (`Command.Assigns`), and the last assignment to a path
counts (`Command.LastAssigned`). The tree of a list of assignments holds, at each path that is
assigned to, a value with the hash of what was assigned there last, and no other value.
-/

namespace ConfigTree

theorem Path.splitDots_eq (cs : List Char) : splitDots cs = cs.splitOn '.' := by
  induction cs with
  | nil => rfl
  | cons c rest ih =>
    rw [splitDots, ih, List.splitOn_eq_splitOnP, List.splitOn_eq_splitOnP,
      List.splitOnP_cons_eq_if_modifyHead]
    by_cases hc : c = '.'
    · simp [hc]
    · simp only [beq_iff_eq, hc, if_false]
      cases h : List.splitOnP (· == '.') rest with
      | nil => exact absurd h (List.splitOnP_ne_nil _ _)
      | cons part parts => rfl

theorem Path.not_mem_of_mem_splitDots {cs part : List Char} (h : part ∈ splitDots cs) :
    '.' ∉ part := by
  induction cs generalizing part with
  | nil => simp [List.mem_singleton.mp h]
  | cons c rest ih =>
    rw [splitDots] at h
    split at h
    · rcases List.mem_cons.mp h with rfl | h
      · exact List.not_mem_nil
      · exact ih h
    · next hc =>
      cases hs : splitDots rest with
      | nil =>
        rw [hs] at h
        rw [List.mem_singleton.mp h]
        simpa using Ne.symm hc
      | cons head tail =>
        rw [hs] at h ih
        rcases List.mem_cons.mp h with rfl | h
        · exact List.not_mem_cons_of_ne_of_not_mem (Ne.symm hc) (ih List.mem_cons_self)
        · exact ih (List.mem_cons_of_mem _ h)

namespace Command

/-- The labels of a dotted text: what stands between its dots, without empty parts. -/
def dottedLabels (text : String) : Path :=
  ((text.toList.splitOn '.').filter (· ≠ [])).map String.ofList

/-- The first equals sign of the text stands between a dotted path and a value. -/
def Assigns (text : String) (path : Path) (value : String) : Prop :=
  ∃ key, text = key ++ "=" ++ value ∧ '=' ∉ key.toList ∧ path = dottedLabels key

/-- Of the texts that assign to the path, the last one assigns the value. -/
def LastAssigned (texts : List String) (path : Path) (value : String) : Prop :=
  ∃ before text after, texts = before ++ text :: after ∧ Assigns text path value ∧
    ∀ later ∈ after, ∀ v, ¬ Assigns later path v

theorem ofDotted_eq (text : String) : Path.ofDotted text = dottedLabels text := by
  rw [Path.ofDotted, Path.splitDots_eq, dottedLabels]

/-- No label is empty or holds a dot. -/
def Separable (path : Path) : Prop := ∀ label ∈ path, label ≠ "" ∧ '.' ∉ label.toList

theorem separable_dottedLabels (text : String) : Separable (dottedLabels text) := by
  rw [dottedLabels, ← Path.splitDots_eq]
  intro label hlabel
  obtain ⟨part, hpart, rfl⟩ := List.mem_map.mp hlabel
  obtain ⟨hmem, hne⟩ := List.mem_filter.mp hpart
  refine ⟨fun hempty => ?_, ?_⟩
  · have hlist := congrArg String.toList hempty
    rw [String.toList_ofList] at hlist
    simp [hlist] at hne
  · rw [String.toList_ofList]
    exact Path.not_mem_of_mem_splitDots hmem

/-- Labels between dots are read back. -/
theorem dottedLabels_display {path : Path} (h : Separable path) (hpath : path ≠ []) :
    dottedLabels path.display = path := by
  have hdisplay : path.display = ".".intercalate path := by
    cases path with
    | nil => exact absurd rfl hpath
    | cons => rfl
  have hdots : ∀ part ∈ path.map String.toList, '.' ∉ part := by
    intro part hpart
    obtain ⟨label, hlabel, rfl⟩ := List.mem_map.mp hpart
    exact (h label hlabel).2
  have hempty : ∀ part ∈ path.map String.toList, decide (part ≠ []) = true := by
    intro part hpart
    obtain ⟨label, hlabel, rfl⟩ := List.mem_map.mp hpart
    simpa using (h label hlabel).1
  have hsign : ".".toList = ['.'] := rfl
  rw [hdisplay, dottedLabels, String.toList_intercalate, hsign,
    List.splitOn_intercalate '.' hdots (by simpa using hpath), List.filter_eq_self.mpr hempty,
    List.map_map]
  simp

/-- A text is read at its first equals sign. -/
theorem readAssignment_eq_ok_iff {text : String} {path : Path} {value : String} :
    readAssignment text = .ok (path, value) ↔ Assigns text path value := by
  have hall : ∀ c ∈ text.toList.takeWhile (· ≠ '='), c ≠ '=' := fun c hc => by
    simpa using List.all_eq_true.mp List.all_takeWhile c hc
  rw [readAssignment]
  constructor
  · intro h
    have hcut := List.takeWhile_append_dropWhile (p := (· ≠ '=')) (l := text.toList)
    split at h
    · cases h
    · next c rest hd =>
      cases h
      have hc : c = '=' := by
        have hhead := List.head?_dropWhile_not (fun c : Char => decide (c ≠ '=')) text.toList
        rw [hd] at hhead
        simpa using hhead
      refine ⟨String.ofList (text.toList.takeWhile (· ≠ '=')), ?_, ?_, ofDotted_eq _⟩
      · rw [hd, hc] at hcut
        have hsign : "=".toList = ['='] := rfl
        rw [← String.toList_inj, String.toList_append, String.toList_append, List.append_assoc]
        simpa only [String.toList_ofList, hsign, List.singleton_append] using hcut.symm
      · rw [String.toList_ofList]
        exact fun hm => hall _ hm rfl
  · rintro ⟨key, rfl, hkey, rfl⟩
    have hlist : (key ++ "=" ++ value).toList = key.toList ++ '=' :: value.toList := by
      simp [String.toList_append]
    have hpass : ∀ c ∈ key.toList, decide (c ≠ '=') = true := fun c hc =>
      decide_eq_true fun he => hkey (he ▸ hc)
    rw [hlist, List.takeWhile_append_of_pos hpass, List.dropWhile_append_of_pos hpass]
    simp [ofDotted_eq]

/-- What the texts assign, in order. Texts that are no assignments are left out. -/
def entriesOf (texts : List String) : List (Path × String) :=
  texts.filterMap fun text => (readAssignment text).toOption

theorem toOption_readAssignment {text : String} {path : Path} {value : String} :
    (readAssignment text).toOption = some (path, value) ↔ Assigns text path value := by
  rw [← readAssignment_eq_ok_iff]
  cases readAssignment text <;> simp [Except.toOption]

/-- What the reversed entries give first for a path is what was assigned to it last. -/
theorem get?_reverse_entriesOf {texts : List String} {path : Path} {value : String} :
    Table.get? path (entriesOf texts).reverse = some value ↔ LastAssigned texts path value := by
  rw [Table.get?_reverse_eq_some_iff]
  constructor
  · rintro ⟨before, after, hentries, hafter⟩
    obtain ⟨texts₁, texts₂, rfl, -, hrest⟩ := List.filterMap_eq_append_iff.mp hentries
    obtain ⟨skipped, text, later, rfl, hskip, hread, rfl⟩ := List.filterMap_eq_cons_iff.mp hrest
    refine ⟨texts₁ ++ skipped, text, later, by simp, toOption_readAssignment.mp hread, ?_⟩
    intro t ht v hv
    have hmem : (path, v) ∈ entriesOf later :=
      List.mem_filterMap.mpr ⟨t, ht, toOption_readAssignment.mpr hv⟩
    exact hafter _ hmem rfl
  · rintro ⟨before, text, after, rfl, hassigns, hlater⟩
    refine ⟨entriesOf before, entriesOf after, ?_, ?_⟩
    · have hread : entriesOf (text :: after) = (path, value) :: entriesOf after :=
        List.filterMap_cons_some (toOption_readAssignment.mpr hassigns)
      rw [← hread, entriesOf, entriesOf, entriesOf, List.filterMap_append]
    · rintro ⟨p, v⟩ he rfl
      obtain ⟨t, ht, hread⟩ := List.mem_filterMap.mp he
      exact hlater t ht v (toOption_readAssignment.mp hread)

theorem get?_reverse_entriesOf_eq_none {texts : List String} {path : Path} :
    Table.get? path (entriesOf texts).reverse = none ↔
      ∀ value, ¬ LastAssigned texts path value := by
  simp only [Option.eq_none_iff_forall_ne_some, Ne, get?_reverse_entriesOf]

theorem mem_entriesOf_of_get? {texts : List String} {path : Path} {value : String}
    (h : Table.get? path (entriesOf texts).reverse = some value) :
    (path, value) ∈ entriesOf texts := List.mem_reverse.mp (Table.mem_of_get? h)

/-- Assignments that can all be applied are insertions of what they say. -/
theorem insertAll_of_assign {edit : Nat} {texts : List String} {t u : Tree String}
    (h : assign edit texts t = .ok u) : Tree.insertAll edit (entriesOf texts) t = .ok u := by
  induction texts generalizing edit t with
  | nil => exact (Except.ok.inj h) ▸ rfl
  | cons text rest ih =>
    rw [assign] at h
    split at h
    · cases h
    · next path value hread =>
      split at h
      · cases h
      · next w hw =>
        have hentries : entriesOf (text :: rest) = (path, value) :: entriesOf rest :=
          List.filterMap_cons_some (toOption_readAssignment.mpr (readAssignment_eq_ok_iff.mp hread))
        rw [hentries, Tree.insertAll, hw]
        exact ih h

/-- The byte strings hashed while the tree of the texts is built. -/
def treeHashed (a : Algorithm) (edit : Nat) (texts : List String) : List Bytes :=
  Tree.ofEntriesHashed ⟨a, Encoding.utf8⟩ edit (entriesOf texts)

theorem sound_treeOf {a : Algorithm} {edit : Nat} {texts : List String} {t : Tree String}
    (h : treeOf a edit texts = .ok t) : t.Sound :=
  (Tree.sound_empty _ _).insertAll (insertAll_of_assign h)

/-- What is assigned is hashed. -/
theorem mem_treeHashed {a : Algorithm} {edit : Nat} {texts : List String} {t : Tree String}
    (h : treeOf a edit texts = .ok t) {path : Path} {value : String}
    (hmem : (path, value) ∈ entriesOf texts) : Bytes.ofString value ∈ treeHashed a edit texts :=
  List.mem_cons_of_mem _
    (Tree.encode_mem_insertAllHashed (insertAll_of_assign h) hmem (Eq.refl _))

/-- The value hash at a path is that of what was assigned there last. -/
theorem valueHash?_treeOf {a : Algorithm} {edit : Nat} {texts : List String} {t : Tree String}
    {strings : List Bytes} (h : treeOf a edit texts = .ok t)
    (hfits : Tree.EntriesFit (entriesOf texts)) (hsub : treeHashed a edit texts ⊆ strings)
    (hfree : CollisionFree (a.hashings strings)) :
    t.scheme = ⟨a, Encoding.utf8⟩ ∧ t.AllHashedIn strings ∧ ∀ path, t.valueHash? path =
      (Table.get? path (entriesOf texts).reverse).map fun v => a.digest (Bytes.ofString v) := by
  have hall : Tree.ofEntries ⟨a, Encoding.utf8⟩ edit (entriesOf texts) = .ok t :=
    insertAll_of_assign h
  obtain ⟨hs, ht, hvalues⟩ := Tree.ofEntries_valueHash? hall hfits hsub hfree
  refine ⟨hs, ht, fun path => ?_⟩
  rw [hvalues path]
  cases Table.get? path (entriesOf texts).reverse <;> rfl

/-- The tree holds at each path what was assigned there last. -/
theorem get?_treeOf {a : Algorithm} {edit : Nat} {texts : List String} {t : Tree String}
    (h : treeOf a edit texts = .ok t) (hfits : Tree.EntriesFit (entriesOf texts))
    (hfree : CollisionFree (a.hashings (treeHashed a edit texts))) (path : Path) :
    t.get? path = Table.get? path (entriesOf texts).reverse := by
  obtain ⟨hs, -, hvalues⟩ := valueHash?_treeOf h hfits (List.Subset.refl _) hfree
  have hlast := hvalues path
  cases hv : t.get? path with
  | none =>
    rw [Tree.valueHash?_eq_none_iff.mpr hv] at hlast
    exact (Option.map_eq_none_iff.mp hlast.symm).symm
  | some v =>
    have hv' : (path, v) ∈ entriesOf texts := Tree.origin_of_ofEntries (insertAll_of_assign h) hv
    rw [(sound_treeOf h).valueHash?_eq_bind, hv, hs] at hlast
    obtain ⟨w, hw, hhash⟩ := Option.map_eq_some_iff.mp hlast.symm
    have hbytes := hfree.eq_of_digest_eq (mem_treeHashed h (mem_entriesOf_of_get? hw))
      (mem_treeHashed h hv') hhash
    rw [hw, Bytes.ofString_inj hbytes]

theorem exists_tree_of_isOk {a : Algorithm} {edit : Nat} {texts : List String}
    (h : (treeOf a edit texts).isOk) : ∃ t, treeOf a edit texts = .ok t := by
  cases ht : treeOf a edit texts with
  | error e =>
    rw [ht] at h
    cases h
  | ok t => exact ⟨t, rfl⟩

end Command

end ConfigTree
