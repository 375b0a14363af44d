import ConfigTree.Proofs.Entries
import ConfigTree.Proofs.Insertion
/-!
# What an insertion leaves

An insertion sets the value at its path, unless a value with the same hash is there: then it returns
the node that it was given, whatever the hash function. All other values stay, those above the path
and those below it too. The nodes that are new are those on the way to the path.
-/

namespace ConfigTree

namespace Node

variable {V : Type} {a : Algorithm} {strings : List Bytes}

theorem insertChild_eq_self {n c : Node V} {label : String} (hc : n.child? label = some c)
    (stamp : Stamp) : n.insertChild a stamp label c = n := by
  rw [insertChild, hc, if_pos (Option.map_some ..)]

/-- A value with the hash of the one at its path changes nothing. -/
theorem insert_eq_self {n : Node V} {v : Stored V} {path : Path}
    (h : n.valueHashAt? path = some v.hash) (stamp : Stamp) : n.insert a v stamp path = n := by
  induction path generalizing n stamp with
  | nil => exact if_pos h
  | cons label rest ih =>
    rw [valueHashAt?_cons] at h
    obtain ⟨c, hc, hrest⟩ := Option.bind_eq_some_iff.mp h
    rw [insert, hc, Option.getD_some, ih hrest]
    exact insertChild_eq_self hc stamp

/-- What is stored after an insertion: the new value at its path, unless the one there has the same
hash, and all else as before. -/
theorem AllHashedIn.stored?_insert (hfree : CollisionFree (a.hashings strings)) {n : Node V}
    (h : n.AllHashedIn a strings) {v : Stored V} {stamp : Stamp} {path : Path}
    (hpath : ∀ label ∈ path, (Bytes.ofString label).length < 2 ^ 64)
    (hsub : n.insertHashed a v stamp path ⊆ strings) (q : Path) :
    (n.insert a v stamp path).stored? q =
      if q = path ∧ n.valueHashAt? path ≠ some v.hash then some v else n.stored? q := by
  by_cases hold : n.valueHashAt? path = some v.hash
  · rw [insert_eq_self hold, if_neg fun hnew => hnew.2 hold]
  have hhash := h.valueHashAt?_insert hfree hpath hsub q
  by_cases hq : q = path
  · -- what is stored there has the new hash, so it is not what was there before
    rw [if_pos hq, valueHashAt?_eq] at hhash
    obtain ⟨s, hs, hsv⟩ := Option.map_eq_some_iff.mp hhash
    rcases origin_of_insert hs with ⟨-, rfl⟩ | hbefore
    · rw [hs, if_pos ⟨hq, hold⟩]
    · rw [← hq, valueHashAt?_eq, hbefore] at hold
      exact absurd (congrArg some hsv) hold
  · rw [if_neg hq, valueHashAt?_eq, valueHashAt?_eq] at hhash
    rw [if_neg fun hnew => hq hnew.1]
    cases hs : (n.insert a v stamp path).stored? q with
    | some s => exact ((origin_of_insert hs).resolve_left fun hnew => hq hnew.1).symm
    | none =>
      rw [hs] at hhash
      exact (Option.map_eq_none_iff.mp hhash.symm).symm

end Node

namespace Tree

variable {V : Type}

theorem Sound.valueHash?_eq_some_iff {t : Tree V} (ht : t.Sound) {path : Path} {hash : Hash} :
    t.valueHash? path = some hash ↔
      ∃ w, t.get? path = some w ∧ t.scheme.hashValue w = .ok hash := by
  rw [ht.valueHash?_eq_bind, Option.bind_eq_some_iff]
  refine exists_congr fun w => and_congr_right fun _ => ?_
  cases t.scheme.hashValue w <;> simp [Except.toOption]

/-- An insertion leads from `t` to `u`. The byte strings hold what is hashed for `t` and on the way,
and no two different ones of them have one hash. -/
structure Inserted (strings : List Bytes) (t u : Tree V) (edit : Nat) (path : Path) (v : V) :
    Prop where
  eq_ok : t.insert edit path v = .ok u
  sound : t.Sound
  hashed : t.AllHashedIn strings
  hashed_on_way : t.insertHashed edit path v ⊆ strings
  free : CollisionFree (t.algorithm.hashings strings)
  fits : ∀ label ∈ path, (Bytes.ofString label).length < 2 ^ 64

theorem Sound.exists_inserted {t u : Tree V} {edit : Nat} {path : Path} {v : V} (ht : t.Sound)
    (hfree : CollisionFree (t.hashings ++ t.algorithm.hashings (t.insertHashed edit path v)))
    (hfits : t.LabelsFit) (hlabels : ∀ label ∈ path, (Bytes.ofString label).length < 2 ^ 64)
    (h : t.insert edit path v = .ok u) : ∃ strings, Inserted strings t u edit path v := by
  obtain ⟨strings, hhashed, hway, hfree⟩ := ht.exists_allHashedIn hfits hfree
  exact ⟨strings, h, ht, hhashed, hway, hfree, hlabels⟩

section Inserted

variable {strings : List Bytes} {t u : Tree V} {edit : Nat} {path : Path} {v : V}

theorem Inserted.sound_after (h : Inserted strings t u edit path v) : u.Sound :=
  h.sound.insert h.eq_ok

/-- The tree after an insertion as a list of value hashes, which is set at one path. -/
theorem Inserted.after (h : Inserted strings t u edit path v) :
    u.scheme = t.scheme ∧ u.AllHashedIn strings ∧ ∀ q, u.valueHash? q =
      if q = path then (t.scheme.hashValue v).toOption else t.valueHash? q :=
  h.hashed.insert h.free h.eq_ok h.fits h.hashed_on_way

/-- After an insertion the new value is at its path, unless the one there has the same hash, and
all else is as before. -/
theorem Inserted.get?_eq (h : Inserted strings t u edit path v) (q : Path) :
    u.get? q =
      if q = path ∧ t.valueHash? path ≠ (t.scheme.hashValue v).toOption then some v
      else t.get? q := by
  obtain ⟨bytes, hb, -, hr, hhashed⟩ := insert_eq_ok_of_encode h.eq_ok
  have hway := h.hashed_on_way
  rw [hhashed, List.cons_subset] at hway
  have hvalue : (t.scheme.hashValue v).toOption = some (t.algorithm.digest bytes) :=
    congrArg Except.toOption (Scheme.hashValue_eq_ok_iff.mpr ⟨bytes, hb, rfl⟩)
  have hstored := Node.AllHashedIn.stored?_insert h.free h.hashed h.fits hway.2 q
  rw [Tree.get?_eq, Tree.get?_eq, hr, hstored, hvalue]
  exact apply_ite ..

/-- After an insertion there are values where there were some, and at its path. -/
theorem Inserted.exists_get?_iff (h : Inserted strings t u edit path v) (q : Path) :
    (∃ w, u.get? q = some w) ↔ (∃ w, t.get? q = some w) ∨ q = path := by
  obtain ⟨hash, hv, -, -⟩ := insert_eq_ok h.eq_ok
  rw [h.get?_eq, hv]
  split
  · next hset => exact ⟨fun _ => .inr hset.1, fun _ => ⟨v, rfl⟩⟩
  · next hkept =>
    refine ⟨.inl, ?_⟩
    rintro (hold | rfl)
    · exact hold
    · -- the value that stays has the hash of the new one
      refine Option.ne_none_iff_exists'.mp fun hnone => hkept ⟨rfl, fun hsame => ?_⟩
      rw [valueHash?_eq_none_iff.mpr hnone] at hsame
      cases hsame

end Inserted

/-- An insertion of a value that is accepted makes the nodes on its path that were missing, and no
others. It leaves all values at other paths, and sets the value at its own, unless the value that
is there has the same hash: then that one stays. -/
theorem Reachable.insert_places {t : Tree V} (ht : t.Reachable) {path : Path} (hpath : path ≠ [])
    {v : V} {hash : Hash} (hv : t.scheme.hashValue v = .ok hash) (edit : Nat)
    (hfree : CollisionFree (t.hashings ++ t.algorithm.hashings (t.insertHashed edit path v)))
    (hfits : t.LabelsFit) (hlabels : ∀ label ∈ path, (Bytes.ofString label).length < 2 ^ 64) :
    ∃ u, t.insert edit path v = .ok u ∧
      (∀ q, (u.find? q).isSome ↔ (t.find? q).isSome ∨ q <+: path) ∧
      (∀ q, q ≠ path → u.get? q = t.get? q) ∧
      (∀ w, t.get? path = some w → t.scheme.hashValue w = .ok hash → u.get? path = some w) ∧
      ((∀ w, t.get? path = some w → t.scheme.hashValue w ≠ .ok hash) →
        u.get? path = some v) := by
  obtain ⟨u, hu, -⟩ := exists_insert_eq_ok hpath ⟨hash, hv⟩ edit
  obtain ⟨strings, hi⟩ := ht.sound.exists_inserted hfree hfits hlabels hu
  have hget := hi.get?_eq
  rw [hv] at hget
  refine ⟨u, hu, fun q => ?_, fun q hq => ?_, fun w hw hwhash => ?_, fun hother => ?_⟩
  · rw [hi.sound_after.find?_isSome_iff, hi.sound.find?_isSome_iff, or_assoc]
    simp only [hi.exists_get?_iff, exists_or]
    exact Iff.rfl
  · rw [hget, if_neg fun hnew => hq hnew.1]
  · have hkept : t.valueHash? path = some hash :=
      ht.sound.valueHash?_eq_some_iff.mpr ⟨w, hw, hwhash⟩
    rw [hget, if_neg fun hnew => hnew.2 hkept, hw]
  · have hnew : t.valueHash? path ≠ some hash := fun hkept => by
      obtain ⟨w, hw, hwhash⟩ := ht.sound.valueHash?_eq_some_iff.mp hkept
      exact hother w hw hwhash
    rw [hget, if_pos ⟨rfl, hnew⟩]

/-- An encoding that keeps only the first byte. At `a` a value with the same hash changes nothing,
another one replaces the value and keeps what is below, and a value further down makes the nodes on
the way to it. -/
theorem insert_places_with_lossy_encoding :
    let s : Scheme String := ⟨.blake3, fun v => .ok ((Bytes.ofString v).take 1)⟩
    let t := (empty s 0).replay 1 [.insert ["a"] "x1", .insert ["a", "b"] "y1"]
    (∃ u, t.insert 3 ["a"] "x2" = .ok u ∧ u.get? ["a"] = some "x1") ∧
    (∃ u, t.insert 3 ["a"] "z" = .ok u ∧ u.get? ["a"] = some "z" ∧
      u.get? ["a", "b"] = some "y1") ∧
    ∃ u, t.insert 3 ["a", "b", "c", "d"] "z" = .ok u ∧ (u.find? ["a", "b", "c"]).isSome ∧
      (u.find? ["a", "c"]).isSome = false ∧ u.get? ["a", "b", "c", "d"] = some "z" := by
  intro s t
  have ht : t.Reachable := .replay (.empty s 0) 1 _
  have hv : ∀ v, t.scheme.hashValue v = .ok (s.algorithm.digest ((Bytes.ofString v).take 1)) :=
    fun _ => rfl
  have hall : t.LabelsFit ∧ t.get? ["a"] = some "x1" ∧ t.get? ["a", "b"] = some "y1" ∧
      (t.find? ["a", "c"]).isSome = false ∧ t.get? ["a", "b", "c", "d"] = none ∧
      s.algorithm.digest ((Bytes.ofString "x1").take 1) =
        s.algorithm.digest ((Bytes.ofString "x2").take 1) ∧
      s.algorithm.digest ((Bytes.ofString "x1").take 1) ≠
        s.algorithm.digest ((Bytes.ofString "z").take 1) := by decide +kernel +zetaReduce
  obtain ⟨hfits, ha, hb, hc, hd, hsame, hother⟩ := hall
  have hedits : ∀ e ∈ [(["a"], "x2"), (["a"], "z"), (["a", "b", "c", "d"], "z")], e.1 ≠ [] ∧
      CollisionFree (t.hashings ++ t.algorithm.hashings (t.insertHashed 3 e.1 e.2)) ∧
        ∀ label ∈ e.1, (Bytes.ofString label).length < 2 ^ 64 := by decide +kernel +zetaReduce
  have hplaces := fun e he =>
    ht.insert_places (hedits e he).1 (hv e.2) 3 (hedits e he).2.1 hfits (hedits e he).2.2
  refine ⟨?_, ?_, ?_⟩
  · obtain ⟨u, hu, -, -, hkept, -⟩ := hplaces (["a"], "x2") (by simp)
    exact ⟨u, hu, hkept "x1" ha ((hv "x1").trans (congrArg Except.ok hsame))⟩
  · obtain ⟨u, hu, -, helse, -, hset⟩ := hplaces (["a"], "z") (by simp)
    refine ⟨u, hu, hset fun w hw he => ?_, (helse _ (by decide)).trans hb⟩
    cases ha.symm.trans hw
    exact hother (Except.ok.inj ((hv "x1").symm.trans he))
  · obtain ⟨u, hu, hnodes, -, -, hset⟩ := hplaces (["a", "b", "c", "d"], "z") (by simp)
    refine ⟨u, hu, (hnodes _).mpr (.inr (by decide)), ?_, hset fun w hw => ?_⟩
    · rw [← Bool.not_eq_true, hnodes, hc]
      decide
    · rw [hd] at hw
      cases hw

end Tree

end ConfigTree
