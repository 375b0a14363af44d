import ConfigTree.Proofs.FirstFaults
import ConfigTree.Proofs.Listing
import Mathlib.Data.List.TakeWhile
/-!
# When a command fails

A command fails for the first of its assignments that is no assignment to a path below the root
(`Command.Faulty`), those of an old tree before those of a new one. If there is none, only a look-up
can fail: that of a path which is neither the root nor leads on to a path that is assigned to
(`Action.Fails`). What is printed is one document, which says what is wrong (`Failure.Says`) or
holds the result.
-/

namespace ConfigTree.Command

/-- What is wrong with a text: it has no equals sign, or there is no label in front of the first. -/
inductive Faulty (text : String) : Failure → Prop
  | noSign : '=' ∉ text.toList → Faulty text (.notAssignment text)
  | noLabel (key value : String) : text = key ++ "=" ++ value → '=' ∉ key.toList →
      (∀ part ∈ key.toList.splitOn '.', part = []) → Faulty text (.edit .rootAssignment)

/-- What is said of a failure. -/
inductive Failure.Says : Failure → String → Prop
  | noSign (text : String) :
      Says (.notAssignment text) ("Invalid assignment (expected path=value): " ++ text)
  | noLabel : Says (.edit .rootAssignment) "Invalid path: cannot assign a value to the root"
  | missing (path : Path) : Says (.pathNotFound path) (missingText path)

/-- All assignments of an action, in the order in which they are applied. -/
def Action.assignments : Action → List String
  | hash texts => texts
  | get _ texts => texts
  | diff old new _ => old ++ new

/-- Why an action fails. A path is looked up only if no assignment is at fault. -/
inductive Action.Fails : Action → Failure → Prop
  | fault {action : Action} {failure : Failure} :
      FirstFault Faulty action.assignments failure → Fails action failure
  | missing {path : String} {texts : List String} :
      (∀ text ∈ texts, ∀ failure, ¬ Faulty text failure) → dottedLabels path ≠ [] →
      (∀ text ∈ texts, ∀ assigned value, Assigns text assigned value →
        ¬ dottedLabels path <+: assigned) →
      Fails (.get path texts) (.pathNotFound (dottedLabels path))

theorem readAssignment_eq_error_iff {text : String} {failure : Failure} :
    readAssignment text = .error failure ↔
      '=' ∉ text.toList ∧ failure = .notAssignment text := by
  have hnone : text.toList.dropWhile (· ≠ '=') = [] ↔ '=' ∉ text.toList := by
    simp only [List.dropWhile_eq_nil_iff, decide_eq_true_eq]
    exact ⟨fun h hm => h _ hm rfl, fun h c hc he => h (he ▸ hc)⟩
  rw [← hnone, readAssignment]
  cases text.toList.dropWhile (· ≠ '=') <;> simp [eq_comm]

theorem dottedLabels_eq_nil_iff {text : String} :
    dottedLabels text = [] ↔ ∀ part ∈ text.toList.splitOn '.', part = [] := by
  rw [dottedLabels, List.map_eq_nil_iff, List.filter_eq_nil_iff]
  simp

theorem faulty_of_assigns_root {text value : String} (h : Assigns text [] value) :
    Faulty text (.edit .rootAssignment) := by
  obtain ⟨key, htext, hkey, hroot⟩ := h
  exact .noLabel key value htext hkey (dottedLabels_eq_nil_iff.mp hroot.symm)

section Assign

variable {a : Algorithm} {text : String} {edit : Nat} {t : Tree String}

theorem assign_of_faulty {failure : Failure} (h : Faulty text failure) (edit : Nat)
    (rest : List String) (t : Tree String) : assign edit (text :: rest) t = .error failure := by
  cases h with
  | noSign hsign => rw [assign, readAssignment_eq_error_iff.mpr ⟨hsign, rfl⟩]
  | noLabel key value htext hkey hparts =>
    have hread : readAssignment text = .ok ([], value) :=
      readAssignment_eq_ok_iff.mpr ⟨key, htext, hkey, (dottedLabels_eq_nil_iff.mpr hparts).symm⟩
    rw [assign, hread]
    rfl

/-- A text has one fault at most. -/
theorem Faulty.unique {f g : Failure} (hf : Faulty text f) (hg : Faulty text g) : f = g := by
  have he := assign_of_faulty hf 0 [] (Tree.empty ⟨.standard, Encoding.utf8⟩ 0)
  rw [assign_of_faulty hg] at he
  exact (Except.error.inj he).symm

/-- A text without a fault is applied. -/
theorem exists_assign_cons (h : ∀ failure, ¬ Faulty text failure)
    (hs : t.scheme = ⟨a, Encoding.utf8⟩) (edit : Nat) (rest : List String) :
    ∃ u : Tree String, u.scheme = ⟨a, Encoding.utf8⟩ ∧
      assign edit (text :: rest) t = assign (edit + 1) rest u := by
  cases hread : readAssignment text with
  | error failure =>
    obtain ⟨hsign, rfl⟩ := readAssignment_eq_error_iff.mp hread
    exact absurd (.noSign hsign) (h _)
  | ok assignment =>
    obtain ⟨path, value⟩ := assignment
    have hassigns := readAssignment_eq_ok_iff.mp hread
    have hpath : path ≠ [] := fun hroot => h _ (faulty_of_assigns_root (hroot ▸ hassigns))
    have hvalue : ∃ hash, t.scheme.hashValue value = .ok hash := ⟨_, by rw [hs]; rfl⟩
    obtain ⟨u, hu, hscheme⟩ := Tree.exists_insert_eq_ok hpath hvalue edit
    refine ⟨u, hscheme.trans hs, ?_⟩
    rw [assign, hread]
    dsimp only
    rw [hu]

/-- Assignments are applied up to the first one at fault. -/
theorem assign_eq_error_iff {texts : List String} {edit : Nat} {t : Tree String}
    {failure : Failure} (hs : t.scheme = ⟨a, Encoding.utf8⟩) :
    assign edit texts t = .error failure ↔ FirstFault Faulty texts failure := by
  induction texts generalizing edit t with
  | nil => exact iff_of_false nofun (not_firstFault_nil _)
  | cons text rest ih =>
    rw [firstFault_cons_iff]
    by_cases hfaulty : ∃ f, Faulty text f
    · obtain ⟨f, hf⟩ := hfaulty
      rw [assign_of_faulty hf]
      constructor
      · intro he
        exact .inl (Except.error.inj he ▸ hf)
      · rintro (hg | ⟨hnone, -⟩)
        · exact congrArg _ (hf.unique hg)
        · exact absurd hf (hnone f)
    · have hnone := not_exists.mp hfaulty
      obtain ⟨u, hu, he⟩ := exists_assign_cons hnone hs edit rest
      rw [he, ih hu]
      exact ⟨fun h => .inr ⟨hnone, h⟩, fun h => (h.resolve_left (hnone failure)).2⟩

theorem treeOf_eq_error_iff (a : Algorithm) (edit : Nat) {texts : List String}
    {failure : Failure} :
    treeOf a edit texts = .error failure ↔ FirstFault Faulty texts failure :=
  assign_eq_error_iff rfl

/-- Without a fault there is a tree. -/
theorem exists_treeOf_iff (a : Algorithm) (edit : Nat) {texts : List String} :
    (∃ t, treeOf a edit texts = .ok t) ↔ ∀ text ∈ texts, ∀ failure, ¬ Faulty text failure := by
  have hfault : (∃ failure, treeOf a edit texts = .error failure) ↔
      ¬ ∀ text ∈ texts, ∀ failure, ¬ Faulty text failure := by
    simp only [treeOf_eq_error_iff, exists_firstFault_iff, not_forall, not_not, exists_prop]
  cases htree : treeOf a edit texts with
  | ok t => exact iff_of_true ⟨t, rfl⟩ (by simpa [htree] using hfault)
  | error failure => exact iff_of_false nofun (by simpa [htree] using hfault)

/-- A path is assigned to last if it is assigned to at all. -/
theorem exists_lastAssigned_iff {texts : List String} {path : Path} :
    (∃ value, LastAssigned texts path value) ↔ ∃ text ∈ texts, ∃ value, Assigns text path value := by
  constructor
  · rintro ⟨value, before, text, after, rfl, hassigns, -⟩
    exact ⟨text, by simp, value, hassigns⟩
  · rintro ⟨text, htext, value, hassigns⟩
    have hmem : (path, value) ∈ (entriesOf texts).reverse :=
      List.mem_reverse.mpr (List.mem_filterMap.mpr ⟨text, htext, toOption_readAssignment.mpr hassigns⟩)
    simp only [← get?_reverse_entriesOf]
    refine Option.ne_none_iff_exists'.mp fun hnone => ?_
    exact Table.get?_eq_none_iff.mp hnone (path, value) hmem rfl

theorem not_leads_iff {texts : List String} {text : String} :
    ¬ Leads texts text ↔ dottedLabels text ≠ [] ∧
      ∀ t ∈ texts, ∀ path value, Assigns t path value → ¬ dottedLabels text <+: path := by
  rw [Leads, not_or]
  refine and_congr_right fun _ => ?_
  constructor
  · intro h t ht path value hassigns hprefix
    obtain ⟨last, hlast⟩ := exists_lastAssigned_iff.mpr ⟨t, ht, value, hassigns⟩
    exact h ⟨path, last, hlast, hprefix⟩
  · rintro h ⟨path, last, hlast, hprefix⟩
    obtain ⟨t, ht, value, hassigns⟩ := exists_lastAssigned_iff.mp ⟨last, hlast⟩
    exact h t ht path value hassigns hprefix

end Assign

/-- What is assumed of a look-up whose assignments are not at fault: the labels have lengths of 64
bits, and no two byte strings that are hashed for the tree have one hash. -/
def Action.Hashable (a : Algorithm) (action : Action) : Prop :=
  ∀ path texts, action = .get path texts →
    (∀ text ∈ texts, ∀ failure, ¬ Faulty text failure) →
    Tree.EntriesFit (entriesOf texts) ∧ CollisionFree (a.hashings (treeHashed a 0 texts))

theorem fails_hash_iff {texts : List String} {failure : Failure} :
    (Action.hash texts).Fails failure ↔ FirstFault Faulty texts failure :=
  ⟨fun h => by cases h; assumption, fun h => .fault h⟩

theorem fails_diff_iff {old new : List String} {watch : Option String} {failure : Failure} :
    (Action.diff old new watch).Fails failure ↔ FirstFault Faulty old failure ∨
      (∀ text ∈ old, ∀ f, ¬ Faulty text f) ∧ FirstFault Faulty new failure := by
  rw [← firstFault_append_iff]
  exact ⟨fun h => by cases h; assumption, fun h => .fault h⟩

theorem fails_get_iff {path : String} {texts : List String} {failure : Failure} :
    (Action.get path texts).Fails failure ↔ FirstFault Faulty texts failure ∨
      (∀ text ∈ texts, ∀ f, ¬ Faulty text f) ∧ ¬ Leads texts path ∧
        failure = .pathNotFound (dottedLabels path) := by
  rw [not_leads_iff]
  constructor
  · rintro (hfault | ⟨hnone, hroot, hbelow⟩)
    · exact .inl hfault
    · exact .inr ⟨hnone, ⟨hroot, hbelow⟩, rfl⟩
  · rintro (hfault | ⟨hnone, ⟨hroot, hbelow⟩, rfl⟩)
    · exact .fault hfault
    · exact .missing hnone hroot hbelow

/-- A look-up of a path that no assignment leads on to fails for the path, and only it does. -/
theorem lookUp_eq_error_iff {a : Algorithm} {path : String} {texts : List String} {t : Tree String}
    (ht : treeOf a 0 texts = .ok t) (hfits : Tree.EntriesFit (entriesOf texts))
    (hfree : CollisionFree (a.hashings (treeHashed a 0 texts))) {failure : Failure} :
    lookUp (Path.ofDotted path) t = .error failure ↔
      ¬ Leads texts path ∧ failure = .pathNotFound (dottedLabels path) := by
  have hget : ∀ p value, t.get? p = some value ↔ LastAssigned texts p value := fun p value => by
    rw [get?_treeOf ht hfits hfree, get?_reverse_entriesOf]
  rw [leads_iff (sound_treeOf ht) hget, ofDotted_eq, lookUp]
  cases t.subtree? (dottedLabels path) <;> simp [eq_comm]

/-- An action has no result exactly if it fails, and for the reason that it gives. -/
theorem report_eq_error_iff {a : Algorithm} {action : Action} (h : action.Hashable a)
    {failure : Failure} : action.report a = .error failure ↔ action.Fails failure := by
  cases action with
  | hash texts =>
    rw [fails_hash_iff, ← treeOf_eq_error_iff a 0, Action.report]
    cases treeOf a 0 texts <;> simp [Except.map]
  | get path texts =>
    rw [fails_get_iff, ← exists_treeOf_iff a 0, ← treeOf_eq_error_iff a 0, Action.report]
    cases ht : treeOf a 0 texts with
    | error f => simp [bind, Except.bind]
    | ok t =>
      obtain ⟨hfits, hfree⟩ := h path texts rfl ((exists_treeOf_iff _ _).mp ⟨t, ht⟩)
      have hlook : (Except.ok t >>= lookUp (Path.ofDotted path)) = .error failure ↔ _ :=
        lookUp_eq_error_iff ht hfits hfree
      rw [hlook]
      simp
  | diff old new watch =>
    rw [fails_diff_iff, ← exists_treeOf_iff a 0, ← treeOf_eq_error_iff a 0,
      ← treeOf_eq_error_iff a (old.length + 1), Action.report]
    cases treeOf a 0 old <;> cases treeOf a (old.length + 1) new <;> simp [bind, Except.bind]

/-- The document of a failure is the message about it, marked as an error. -/
theorem Action.Fails.exists_says {action : Action} {failure : Failure} (h : action.Fails failure) :
    ∃ message, failure.Says message ∧ failure.toJson = errorJson message := by
  cases h with
  | fault hfault =>
    obtain ⟨-, text, -, -, hfaulty, -⟩ := hfault
    cases hfaulty with
    | noSign => exact ⟨_, .noSign text, rfl⟩
    | noLabel => exact ⟨_, .noLabel, rfl⟩
  | missing _ hroot _ => exact ⟨_, .missing _, Failure.toJson_pathNotFound hroot⟩

/-- A result is not taken for an error. -/
theorem Report.toJson_ne_errorJson (report : Report) (message : String) :
    report.toJson ≠ errorJson message := by
  cases report <;> simp [Report.toJson, errorJson]

/-- A command line that was understood fails exactly for its first assignment at fault, or for a
path that no assignment leads on to. It prints one document and nothing else: with exit code 1 the
error object with the message about the failure, or with exit code 0 the result, which is no error
object. -/
theorem outcome_of_failure {i : Invocation} (h : i.action.Hashable i.algorithm) :
    (∀ failure, i.action.report i.algorithm = .error failure ↔ i.action.Fails failure) ∧
    (∀ failure, i.action.Fails failure → ∃ message, failure.Says message ∧
      i.outcome.Prints i.format 1 (errorJson message)) ∧
    ((∀ failure, ¬ i.action.Fails failure) → ∃ report, i.action.report i.algorithm = .ok report ∧
      i.outcome.Prints i.format 0 report.toJson ∧ ∀ message, report.toJson ≠ errorJson message) ∧
    ∀ arguments, CommandLine.ofArguments arguments = .ok (.run i) →
      execute arguments = i.outcome := by
  have hfails : ∀ failure, i.action.report i.algorithm = .error failure ↔ i.action.Fails failure :=
    fun failure => report_eq_error_iff h
  refine ⟨hfails, fun failure hfailure => ?_, fun hnone => ?_, fun arguments hread => ?_⟩
  · obtain ⟨message, hsays, hdocument⟩ := hfailure.exists_says
    refine ⟨message, hsays, ?_⟩
    rw [Invocation.outcome, (hfails failure).mpr hfailure, ← hdocument]
    exact prints_print i.format 1 _
  · cases hreport : i.action.report i.algorithm with
    | error failure => exact absurd ((hfails failure).mp hreport) (hnone failure)
    | ok report =>
      refine ⟨report, rfl, ?_, report.toJson_ne_errorJson⟩
      rw [Invocation.outcome, hreport]
      exact prints_print i.format 0 _
  · rw [execute, hread]

/-- Of the texts for an old tree the second is at fault, and so are the third and a text for the new
tree. A path beside an assigned one is missing, and one above it is found. -/
theorem outcome_of_failure_at_odd_texts :
    let texts := ["a.b=1", "..é=x=y"]
    (Invocation.mk .compact .sha256 (.diff ["a=1", "..=x", "b"] ["c"] none)).outcome.Prints
        .compact 1 (errorJson "Invalid path: cannot assign a value to the root") ∧
      (Invocation.mk .indented .blake3 (.get "a.c" texts)).outcome.exitCode = 1 ∧
      Json.parse (Invocation.mk .indented .blake3 (.get "a.c" texts)).outcome.output =
        .ok (.object [("message", .string "Path not found: a.c"), ("status", .string "error")]) ∧
      ∃ report : Report, (Invocation.mk .compact .blake3 (.get ".a." texts)).outcome.Prints
        .compact 0 report.toJson := by
  intro texts
  have hall : (treeOf .blake3 0 ["a=1"]).isOk ∧ (treeOf .blake3 0 texts).isOk ∧
      Tree.EntriesFit (entriesOf texts) ∧
      CollisionFree (Algorithm.hashings .blake3 (treeHashed .blake3 0 texts)) := by
    decide +kernel +zetaReduce
  obtain ⟨hfirst, haccepted, hfits, hfree⟩ := hall
  have hassigned : entriesOf texts = [(["a", "b"], "1"), (["é"], "x=y")] ∧
      dottedLabels "a.c" = ["a", "c"] ∧ dottedLabels ".a." = ["a"] := by decide +kernel +zetaReduce
  obtain ⟨hentries, hbeside, habove⟩ := hassigned
  have hnone := (exists_treeOf_iff _ _).mp (exists_tree_of_isOk haccepted)
  have hhashable : ∀ path, (Action.get path texts).Hashable .blake3 := by
    rintro path _ _ ⟨⟩ -
    exact ⟨hfits, hfree⟩
  have hpaths : ∀ text ∈ texts, ∀ path value, Assigns text path value →
      path = ["a", "b"] ∨ path = ["é"] := by
    intro text htext path value hassigns
    have hmem : (path, value) ∈ entriesOf texts :=
      List.mem_filterMap.mpr ⟨text, htext, toOption_readAssignment.mpr hassigns⟩
    rw [hentries] at hmem
    simp only [List.mem_cons, Prod.mk.injEq, List.not_mem_nil, or_false] at hmem
    exact hmem.imp And.left And.left
  have hmissed : (Invocation.mk .indented .blake3 (.get "a.c" texts)).outcome.Prints .indented 1
      (errorJson "Path not found: a.c") := by
    have hmissing : (Action.get "a.c" texts).Fails (.pathNotFound (dottedLabels "a.c")) := by
      refine .missing hnone (by rw [hbeside]; exact List.cons_ne_nil _ _) ?_
      intro text htext path value hassigns
      rw [hbeside]
      rcases hpaths text htext path value hassigns with rfl | rfl <;> decide
    obtain ⟨message, ⟨⟩, hprints⟩ :=
      (outcome_of_failure (i := ⟨.indented, .blake3, _⟩) (hhashable _)).2.1 _ hmissing
    rw [hbeside] at hprints
    exact hprints
  refine ⟨?_, hmissed.exitCode_eq, hmissed.parse_output nofun, ?_⟩
  · have hdiff : (Action.diff ["a=1", "..=x", "b"] ["c"] none).Hashable .sha256 := nofun
    have hroot : (Action.diff ["a=1", "..=x", "b"] ["c"] none).Fails (.edit .rootAssignment) := by
      refine .fault ⟨["a=1"], "..=x", ["b", "c"], rfl, ?_,
        (exists_treeOf_iff _ _).mp (exists_tree_of_isOk hfirst)⟩
      exact .noLabel ".." "x" rfl (by decide) (by decide)
    obtain ⟨message, ⟨⟩, hprints⟩ :=
      (outcome_of_failure (i := ⟨.compact, .sha256, _⟩) hdiff).2.1 _ hroot
    exact hprints
  · have hmem : (["a", "b"], "1") ∈ entriesOf texts := by rw [hentries]; exact List.mem_cons_self
    obtain ⟨text, htext, hread⟩ := List.mem_filterMap.mp hmem
    obtain ⟨value, hlast⟩ :=
      exists_lastAssigned_iff.mpr ⟨text, htext, "1", toOption_readAssignment.mp hread⟩
    have hleads : Leads texts ".a." := .inr ⟨_, value, hlast, by rw [habove]; decide⟩
    have hfound : ∀ failure, ¬ (Action.get ".a." texts).Fails failure := by
      intro failure hfails
      rcases fails_get_iff.mp hfails with hfault | ⟨-, hnowhere, -⟩
      · obtain ⟨t, ht, f, hf⟩ := exists_firstFault_iff.mp ⟨failure, hfault⟩
        exact hnone t ht f hf
      · exact hnowhere hleads
    obtain ⟨report, -, hprints, -⟩ :=
      (outcome_of_failure (i := ⟨.compact, .blake3, _⟩) (hhashable _)).2.2.1 hfound
    exact ⟨report, hprints⟩

end ConfigTree.Command
