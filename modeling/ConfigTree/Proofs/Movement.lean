import ConfigTree.Proofs.Placing
import ConfigTree.Proofs.Removal
/-!
# Where hashes move

An edit that changes the value hash at a path changes the hash of every node on the way to it, from
the root down, and of no other node; a removal changes what was below its path too, where nothing is
left. So whoever keeps the hash of a node learns of each change below it, and of no other change.
The hash at a path stands for the value hashes at and below it, so that it is enough to know which
of these an edit changes.
-/

namespace ConfigTree.Tree

variable {V : Type} {strings : List Bytes}

/-- The hash at a path moves exactly if a value hash at or below the path does. -/
theorem Sound.hash?_ne_iff {t u : Tree V} (ht : t.Sound) (hu : u.Sound)
    (hs : u.scheme = t.scheme) (htin : t.AllHashedIn strings) (huin : u.AllHashedIn strings)
    (hfree : CollisionFree (t.algorithm.hashings strings)) (q : Path) :
    u.hash? q ≠ t.hash? q ↔
      ∃ below, u.valueHash? (q ++ below) ≠ t.valueHash? (q ++ below) := by
  have ha : u.algorithm = t.algorithm := congrArg Scheme.algorithm hs
  rw [AllHashedIn, ha] at huin
  have hc : u.ContentByHash t := Node.AllHashedIn.contentByHash huin htin hfree
  rw [ne_eq, hu.hash?_eq_iff ht ha hc, Classical.not_forall]

/-- A node other than the root has a value hash at or below its path. -/
theorem Sound.exists_valueHash?_below {t : Tree V} (ht : t.Sound) {path : Path}
    (hpath : path ≠ []) (hn : (t.find? path).isSome) :
    ∃ below, t.valueHash? (path ++ below) ≠ none := by
  rw [Option.isSome_iff_ne_none, ne_eq, ht.find?_eq_none_iff hpath, Classical.not_forall] at hn
  exact hn

theorem Inserted.hash?_ne_iff {t u : Tree V} {edit : Nat} {path : Path} {v : V}
    (h : Inserted strings t u edit path v)
    (hnew : t.valueHash? path ≠ (t.scheme.hashValue v).toOption) (q : Path) :
    u.hash? q ≠ t.hash? q ↔ q <+: path := by
  obtain ⟨hs, hafter, hvalues⟩ := h.after
  rw [h.sound.hash?_ne_iff h.sound_after hs h.hashed hafter h.free]
  refine exists_congr fun below => ?_
  rw [hvalues]
  split
  · next hq => exact iff_of_true (hq ▸ hnew.symm) hq
  · next hq => exact iff_of_false (fun hne => hne rfl) hq

section Erased

variable {t u : Tree V} {edit : Nat} {path : Path}

/-- What a removal takes away are the value hashes at and below its path. -/
theorem Erased.valueHash?_ne_iff (h : Erased strings t u edit path) (q : Path) :
    u.valueHash? q ≠ t.valueHash? q ↔ path <+: q ∧ t.valueHash? q ≠ none := by
  rw [h.sound_after.valueHash?_eq_bind, scheme_of_erase h.eq_ok, h.get?_eq,
    h.sound.valueHash?_eq_bind]
  split
  · next hq => exact ⟨fun hne => ⟨hq, hne.symm⟩, fun hne => hne.2.symm⟩
  · next hq => exact iff_of_false (fun hne => hne rfl) fun hne => hq hne.1

theorem Erased.hash?_ne_iff (h : Erased strings t u edit path) (hpath : path ≠ [])
    (hn : (t.find? path).isSome) (q : Path) :
    u.hash? q ≠ t.hash? q ↔ q <+: path ∨ path <+: q ∧ (t.find? q).isSome := by
  rw [h.sound.hash?_ne_iff h.sound_after (scheme_of_erase h.eq_ok) h.hashed h.hashed_after h.free]
  simp only [h.valueHash?_ne_iff]
  constructor
  · rintro ⟨below, hwithin, hvalue⟩
    -- both paths lead to the value that is gone, so one of them leads to the other
    rcases List.prefix_or_prefix_of_prefix (List.prefix_append q below) hwithin with hq | hq
    · exact .inl hq
    · refine .inr ⟨hq, Option.isSome_iff_ne_none.mpr fun hnone => hvalue ?_⟩
      exact valueHash?_append_of_none hnone below
  · rintro (⟨rest, rfl⟩ | ⟨hq, hqn⟩)
    · obtain ⟨below, hvalue⟩ := h.sound.exists_valueHash?_below hpath hn
      rw [List.append_assoc] at hvalue
      exact ⟨rest ++ below, List.append_assoc q rest below ▸ List.prefix_append .., hvalue⟩
    · have hne : q ≠ [] := fun hroot => hpath (List.prefix_nil.mp (hroot ▸ hq))
      obtain ⟨below, hvalue⟩ := h.sound.exists_valueHash?_below hne hqn
      exact ⟨below, hq.trans (List.prefix_append q below), hvalue⟩

end Erased

/-- If an insertion changes the value hash at its path, the hashes that move are those at the
beginnings of the path, the root's and the one at the path itself among them. A removal of a node
moves these, and takes away those below it. -/
theorem Reachable.hash?_moves {t : Tree V} (ht : t.Reachable) {path : Path} (hpath : path ≠ [])
    (edit : Nat) (hfits : t.LabelsFit) :
    (∀ v hash, t.scheme.hashValue v = .ok hash → t.valueHash? path ≠ some hash →
      (∀ label ∈ path, (Bytes.ofString label).length < 2 ^ 64) →
      CollisionFree (t.hashings ++ t.algorithm.hashings (t.insertHashed edit path v)) →
      ∃ u, t.insert edit path v = .ok u ∧ ∀ q, u.hash? q ≠ t.hash? q ↔ q <+: path) ∧
    ((t.find? path).isSome →
      CollisionFree (t.hashings ++ t.algorithm.hashings (t.eraseHashed edit path)) →
      ∃ u, t.erase edit path = .ok u ∧
        ∀ q, u.hash? q ≠ t.hash? q ↔ q <+: path ∨ path <+: q ∧ (t.find? q).isSome) := by
  constructor
  · intro v hash hv hnew hlabels hfree
    obtain ⟨u, hu, -⟩ := exists_insert_eq_ok hpath ⟨hash, hv⟩ edit
    obtain ⟨strings, hi⟩ := ht.sound.exists_inserted hfree hfits hlabels hu
    refine ⟨u, hu, hi.hash?_ne_iff ?_⟩
    rw [hv]
    exact hnew
  · intro hn hfree
    obtain ⟨u, hu⟩ := exists_erase_eq_ok hpath edit t
    obtain ⟨strings, he⟩ := ht.sound.exists_erased hfree hfits hu
    exact ⟨u, hu, he.hash?_ne_iff hpath hn⟩

/-- A value is set at `a`, where there was none, above two others. Then the branch at `a` is
removed, with which nothing else than `d` is left. -/
theorem hash?_moves_on_the_way :
    let s : Scheme String := ⟨.blake3, Encoding.utf8⟩
    let t := (empty s 0).replay 1
      [.insert ["a", "b"] "1", .insert ["a", "c"] "1", .insert ["d"] "2"]
    (∃ u, t.insert 4 ["a"] "3" = .ok u ∧ u.hash? [] ≠ t.hash? [] ∧ u.hash? ["a"] ≠ t.hash? ["a"] ∧
      u.hash? ["a", "b"] = t.hash? ["a", "b"] ∧ u.hash? ["d"] = t.hash? ["d"]) ∧
    ∃ u, t.erase 4 ["a"] = .ok u ∧ u.hash? [] ≠ t.hash? [] ∧
      u.hash? ["a", "b"] ≠ t.hash? ["a", "b"] ∧ u.hash? ["a", "x"] = t.hash? ["a", "x"] ∧
      u.hash? ["d"] = t.hash? ["d"] := by
  intro s t
  have ht : t.Reachable := .replay (.empty s 0) 1 _
  have hall : t.LabelsFit ∧ t.valueHash? ["a"] = none ∧
      (∀ label ∈ ["a"], (Bytes.ofString label).length < 2 ^ 64) ∧
      CollisionFree (t.hashings ++ t.algorithm.hashings (t.insertHashed 4 ["a"] "3")) ∧
      CollisionFree (t.hashings ++ t.algorithm.hashings (t.eraseHashed 4 ["a"])) ∧
      (t.find? ["a"]).isSome ∧ (t.find? ["a", "b"]).isSome ∧
      (t.find? ["a", "x"]).isSome = false := by decide +kernel +zetaReduce
  obtain ⟨hfits, hnone, hlabels, hinsert, herase, ha, hb, hx⟩ := hall
  have hpath : ["a"] ≠ [] := List.cons_ne_nil _ _
  obtain ⟨hset, hgone⟩ := ht.hash?_moves hpath 4 hfits
  constructor
  · obtain ⟨u, hu, hmoves⟩ := hset "3" _ rfl (by simp [hnone]) hlabels hinsert
    refine ⟨u, hu, (hmoves _).mpr (by decide), (hmoves _).mpr (by decide), ?_, ?_⟩
    · exact Decidable.not_not.mp fun hne => absurd ((hmoves _).mp hne) (by decide)
    · exact Decidable.not_not.mp fun hne => absurd ((hmoves _).mp hne) (by decide)
  · obtain ⟨u, hu, hmoves⟩ := hgone ha herase
    refine ⟨u, hu, (hmoves _).mpr (.inl (by decide)), (hmoves _).mpr (.inr ⟨by decide, hb⟩), ?_, ?_⟩
    · refine Decidable.not_not.mp fun hne => ?_
      simpa [hx] using (hmoves _).mp hne
    · refine Decidable.not_not.mp fun hne => ?_
      simpa using (hmoves _).mp hne

end ConfigTree.Tree
