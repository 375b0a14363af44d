import ConfigTree.Delivery
import ConfigTree.Proofs.Diff
/-!
# Detecting a change at one path

Whether the subtree at a path changed is read off two hashes, one in each tree, whereas the
difference of the trees is a walk over both. The two agree on reachable trees: the hash at a path
tells the value hashes at and below it, and a node that only one of the trees has shows in these
value hashes, because no node but the root is without a value at or below it.
-/

namespace ConfigTree.Tree

variable {V : Type}

/-- Below a missing node there is no value. -/
theorem valueHash?_append_of_none {t : Tree V} {path : Path} (h : t.find? path = none)
    (below : Path) : t.valueHash? (path ++ below) = none := by
  rw [valueHash?, find?, Node.find?_append, ← find?, h]
  rfl

/-- A node other than the root shows in the value hashes at and below its path. -/
theorem Sound.find?_eq_none_iff {t : Tree V} (ht : t.Sound) {path : Path} (hpath : path ≠ []) :
    t.find? path = none ↔ ∀ below, t.valueHash? (path ++ below) = none := by
  constructor
  · exact valueHash?_append_of_none
  · intro h
    refine Node.Sound.find?_eq_none ht hpath fun below => ?_
    exact Option.map_eq_none_iff.mp ((valueHash?_eq t _).symm.trans (h below))

/-- Value hashes at and below a path determine the hash there: whether there is a node, and which
content it has. -/
theorem Sound.hash?_eq_of_valueHash? {t u : Tree V} (ht : t.Sound) (hu : u.Sound)
    (ha : t.algorithm = u.algorithm) {path : Path}
    (h : ∀ below, t.valueHash? (path ++ below) = u.valueHash? (path ++ below)) :
    t.hash? path = u.hash? path := by
  have hmissing : t.find? path = none ↔ u.find? path = none := by
    by_cases hpath : path = []
    · rw [hpath]
      exact ⟨nofun, nofun⟩
    · rw [ht.find?_eq_none_iff hpath, hu.find?_eq_none_iff hpath]
      simp only [h]
  rw [hash?, hash?]
  cases hn : t.find? path with
  | none => rw [hmissing.mp hn]
  | some n =>
    cases hm : u.find? path with
    | none => rw [hmissing.mpr hm] at hn; cases hn
    | some m =>
      have hns := Node.Sound.find? ht hn
      have hms := Node.Sound.find? hu hm
      simp only [valueHash?_append hn, valueHash?_append hm] at h
      have hcontent := hns.content_eq hms (t.ordered.find? hn) (u.ordered.find? hm) ha h
      rw [Option.map_some, Option.map_some, hns.here.hash_eq, hms.here.hash_eq, hcontent]
      exact congrArg (fun a => some (Algorithm.digest a m.content.encode)) ha

/-- Trees with the same values have the same hashes. -/
theorem Sound.hash?_eq_of_get? {t u : Tree V} (ht : t.Sound) (hu : u.Sound)
    (hs : t.scheme = u.scheme) (h : ∀ path, t.get? path = u.get? path) (path : Path) :
    t.hash? path = u.hash? path := by
  refine ht.hash?_eq_of_valueHash? hu (congrArg Scheme.algorithm hs) fun below => ?_
  rw [ht.valueHash?_eq_bind, hu.valueHash?_eq_bind, h, hs]

/-- The hashes at a path agree exactly if the value hashes at and below it do. -/
theorem Sound.hash?_eq_iff {t u : Tree V} (ht : t.Sound) (hu : u.Sound)
    (ha : t.algorithm = u.algorithm) (hc : t.ContentByHash u) (path : Path) :
    t.hash? path = u.hash? path ↔
      ∀ below, t.valueHash? (path ++ below) = u.valueHash? (path ++ below) := by
  refine ⟨fun he below => ?_, ht.hash?_eq_of_valueHash? hu ha⟩
  rw [hash?, hash?] at he
  cases hn : t.find? path with
  | none =>
    rw [hn] at he
    have hm := Option.map_eq_none_iff.mp he.symm
    rw [valueHash?_append_of_none hn, valueHash?_append_of_none hm]
  | some n =>
    rw [hn] at he
    obtain ⟨m, hm, hhash⟩ := Option.map_eq_some_iff.mp he.symm
    rw [valueHash?_append hn, valueHash?_append hm]
    exact Node.valueHashAt?_eq_of_hash_eq (Node.ContentByHash.find? hc hn hm) hhash.symm below

/-- Where one hash means one content, the difference lists exactly the paths whose value hashes
differ. -/
theorem mem_diff_iff_between? {old new : Tree V} (hc : old.ContentByHash new) {path : Path}
    {c : ValueChange} :
    (path, c) ∈ old.diff new ↔
      ValueChange.between? (old.valueHash? path) (new.valueHash? path) = some c := by
  rw [mem_diff_iff, and_iff_left_iff_imp]
  intro hbetween hmeet
  rw [ValueChange.between?_eq_none.mpr (valueHash?_eq_of_meetAbove hc hmeet)] at hbetween
  cases hbetween

theorem within_diff_eq_nil_iff {old new : Tree V} (hc : old.ContentByHash new) (path : Path) :
    (old.diff new).within path = [] ↔
      ∀ below, old.valueHash? (path ++ below) = new.valueHash? (path ++ below) := by
  rw [Diff.within, List.filter_eq_nil_iff]
  constructor
  · intro h below
    cases hb : ValueChange.between? (old.valueHash? (path ++ below))
        (new.valueHash? (path ++ below)) with
    | none => exact ValueChange.between?_eq_none.mp hb
    | some c =>
      have hmem := (mem_diff_iff_between? hc).mpr hb
      exact absurd (Path.isWithin_iff.mpr (List.prefix_append path below)) (h _ hmem)
  · rintro h ⟨p, c⟩ hmem hwithin
    obtain ⟨below, rfl⟩ := Path.isWithin_iff.mp hwithin
    have hb := (mem_diff_iff_between? hc).mp hmem
    rw [ValueChange.between?_eq_none.mpr (h below)] at hb
    cases hb

/-- What is to be delivered at a path, once there is a snapshot before: nothing if the hashes there
agree, else the subtree, or that there is none. -/
theorem between?_eq_none_iff (old new : Tree V) (path : Path) :
    Delivery.between? (some old) new path = none ↔ old.hash? path = new.hash? path := by
  simp [Delivery.between?, agreesAt]

theorem between?_eq_some {old new : Tree V} {path : Path} (h : old.hash? path ≠ new.hash? path) :
    Delivery.between? (some old) new path = some (Delivery.ofSubtree? (new.subtree? path)) := by
  simp [Delivery.between?, agreesAt, h]

/-- Change detection at a path agrees with the difference of the two trees: nothing is detected
exactly if no entry lies at or below the path. Otherwise the subtree is reported as gone exactly if
the new tree has no node there, and else the new tree's subtree is reported. -/
theorem Reachable.between?_agrees_with_diff {old new : Tree V} (hold : old.Reachable)
    (hnew : new.Reachable) (ha : old.algorithm = new.algorithm)
    (hfree : CollisionFree (old.hashings ++ new.hashings)) (hol : old.LabelsFit)
    (hnl : new.LabelsFit) (path : Path) :
    (Delivery.between? (some old) new path = none ↔ (old.diff new).within path = []) ∧
    ((old.diff new).within path ≠ [] →
      (Delivery.between? (some old) new path = some .absent ↔ new.find? path = none) ∧
      ((new.find? path).isSome → ∃ s, Delivery.between? (some old) new path = some (.present s) ∧
        new.subtree? path = some s)) := by
  have hc := hold.sound.contentByHash hnew.sound hfree hol hnl
  have hiff : Delivery.between? (some old) new path = none ↔ (old.diff new).within path = [] := by
    rw [between?_eq_none_iff, within_diff_eq_nil_iff hc,
      hold.sound.hash?_eq_iff hnew.sound ha hc]
  refine ⟨hiff, fun hentry => ?_⟩
  have hne : old.hash? path ≠ new.hash? path := fun he =>
    hentry (hiff.mp ((between?_eq_none_iff old new path).mpr he))
  rw [between?_eq_some hne]
  cases hs : new.subtree? path with
  | none =>
    have hnone := subtree?_eq_none.mp hs
    simp [Delivery.ofSubtree?, hnone]
  | some s =>
    have hsome := (subtree?_eq_some.mp hs).1
    simp [Delivery.ofSubtree?, hsome]

/-- One branch is gone, in another one a value was replaced, and a third one was edited and put back
by another history. -/
theorem between?_agrees_with_diff_of_edited_branches :
    let s : Scheme String := ⟨.blake3, Encoding.utf8⟩
    let old := (empty s 0).replay 1
      [.insert ["a", "x"] "1", .insert ["b", "x"] "2", .insert ["c", "x", "y"] "3"]
    let new := (empty s 0).replay 1
      [.insert ["c", "x", "y"] "3", .insert ["c", "z"] "4", .insert ["b", "x"] "5",
        .erase ["c", "z"]]
    Delivery.between? (some old) new ["a"] = some .absent ∧
      (∃ t, Delivery.between? (some old) new ["b"] = some (.present t) ∧
        new.subtree? ["b"] = some t) ∧
      Delivery.between? (some old) new ["c"] = none ∧
      Delivery.between? (some old) new [] ≠ none := by
  intro s old new
  have hold : old.Reachable := .replay (.empty s 0) 1 _
  have hnew : new.Reachable := .replay (.empty s 0) 1 _
  have hall : old.algorithm = new.algorithm ∧ CollisionFree (old.hashings ++ new.hashings) ∧
      old.LabelsFit ∧ new.LabelsFit ∧ (old.diff new).within ["a"] ≠ [] ∧
      (new.find? ["a"]).isSome = false ∧ (old.diff new).within ["b"] ≠ [] ∧
      (new.find? ["b"]).isSome = true ∧ (old.diff new).within ["c"] = [] ∧
      (old.diff new).within [] ≠ [] := by decide +kernel +zetaReduce
  obtain ⟨ha, hfree, hol, hnl, hain, hagone, hbin, hbthere, hcout, hin⟩ := hall
  have h := hold.between?_agrees_with_diff hnew ha hfree hol hnl
  have hnone : new.find? ["a"] = none := by simpa using hagone
  exact ⟨((h ["a"]).2 hain).1.mpr hnone, ((h ["b"]).2 hbin).2 hbthere, (h ["c"]).1.mpr hcout,
    fun he => hin ((h []).1.mp he)⟩

end ConfigTree.Tree
