import ConfigTree.Proofs.FirstFaults
import ConfigTree.Proofs.Rebuilding
/-!
# A tree made from a list of entries

Entries are inserted one after another. The first one that is refused stops this, with its own error
(`Tree.FirstRefused`): an entry for the root is refused whatever its value, any other one if the
encoding refuses its value. If all are accepted, each path that is listed has a value in the end,
with the hash of its last entry (`Tree.LastEntry`), and no other path has one. So the hash of the
tree depends on the last value hash of each path only, not on the order of the list.
-/

namespace ConfigTree

/-- An entry for the root is refused for its path, any other one if its value has no encoding. -/
def Scheme.Refuses {V : Type} (s : Scheme V) (entry : Path × V) (e : Error) : Prop :=
  if entry.1 = [] then e = .rootAssignment else s.encode entry.2 = .error e

theorem Scheme.exists_refuses_iff {V : Type} {s : Scheme V} {entry : Path × V} :
    (∃ e, s.Refuses entry e) ↔ entry.1 = [] ∨ ∃ e, s.encode entry.2 = .error e := by
  by_cases hpath : entry.1 = [] <;> simp [Scheme.Refuses, hpath]

namespace Tree

variable {V : Type}

/-- One of the entries is refused for this, and none before it is refused. -/
def FirstRefused (s : Scheme V) (entries : List (Path × V)) (e : Error) : Prop :=
  ∃ before entry after, entries = before ++ entry :: after ∧ s.Refuses entry e ∧
    ∀ d ∈ before, ∀ e', ¬ s.Refuses d e'

/-- Of the entries of the path, the last one has this value. -/
def LastEntry (entries : List (Path × V)) (path : Path) (v : V) : Prop :=
  ∃ before after, entries = before ++ (path, v) :: after ∧ ∀ d ∈ after, d.1 ≠ path

/-- The value of the last entry of the path has this hash. -/
def LastHashed (s : Scheme V) (entries : List (Path × V)) (path : Path) (hash : Hash) : Prop :=
  ∃ v, LastEntry entries path v ∧ s.hashValue v = .ok hash

theorem insert_eq_error_iff {t : Tree V} {edit : Nat} {path : Path} {v : V} {e : Error} :
    t.insert edit path v = .error e ↔ t.scheme.Refuses (path, v) e := by
  rw [insert, Scheme.Refuses]
  by_cases hpath : path = []
  · simp [hpath, eq_comm]
  · rw [if_neg hpath, if_neg hpath, Scheme.hashValue]
    cases t.scheme.encode v with
    | ok bytes => exact iff_of_false (fun h => by cases h) (fun h => by cases h)
    | error e' => exact ⟨fun h => by cases h; rfl, fun h => by cases h; rfl⟩

theorem firstRefused_iff {s : Scheme V} {entries : List (Path × V)} {e : Error} :
    FirstRefused s entries e ↔ FirstFault s.Refuses entries e :=
  Iff.rfl

/-- Insertions one after another fail with the error of the first one that is refused. -/
theorem insertAll_eq_error_iff {entries : List (Path × V)} {edit : Nat} {t : Tree V} {e : Error} :
    insertAll edit entries t = .error e ↔ FirstRefused t.scheme entries e := by
  induction entries generalizing edit t with
  | nil => exact iff_of_false nofun (not_firstFault_nil e)
  | cons entry rest ih =>
    rw [insertAll, firstRefused_iff, firstFault_cons_iff, ← firstRefused_iff]
    cases hi : t.insert edit entry.1 entry.2 with
    | error e' =>
      have hrefused := insert_eq_error_iff.mp hi
      have hiff : t.insert edit entry.1 entry.2 = .error e ↔ t.scheme.Refuses entry e :=
        insert_eq_error_iff
      rw [← hiff, hi]
      exact ⟨.inl, fun h => h.resolve_right fun hlater => hlater.1 e' hrefused⟩
    | ok u =>
      obtain ⟨hash, -, hs, -⟩ := insert_eq_ok hi
      have haccepted : ∀ e', ¬ t.scheme.Refuses entry e' := fun e' hrefused => by
        rw [insert_eq_error_iff.mpr hrefused] at hi
        cases hi
      rw [← hs] at haccepted ⊢
      exact (ih (t := u)).trans
        ⟨fun h => .inr ⟨haccepted, h⟩, fun h => (h.resolve_left (haccepted e)).2⟩

theorem ofEntries_eq_error_iff {s : Scheme V} {edit : Nat} {entries : List (Path × V)}
    {e : Error} : ofEntries s edit entries = .error e ↔ FirstRefused s entries e :=
  insertAll_eq_error_iff

theorem exists_firstRefused_iff {s : Scheme V} {entries : List (Path × V)} :
    (∃ e, FirstRefused s entries e) ↔ ∃ d ∈ entries, ∃ e, s.Refuses d e :=
  exists_firstFault_iff

/-- The values of entries that made a tree have been accepted. -/
theorem exists_hashValue_of_ofEntries {s : Scheme V} {edit : Nat} {entries : List (Path × V)}
    {t : Tree V} (h : ofEntries s edit entries = .ok t) {d : Path × V} (hd : d ∈ entries) :
    ∃ hash, s.hashValue d.2 = .ok hash := by
  cases hb : s.encode d.2 with
  | ok bytes => exact ⟨_, Scheme.hashValue_eq_ok_iff.mpr ⟨bytes, hb, rfl⟩⟩
  | error e =>
    obtain ⟨e', he'⟩ := exists_firstRefused_iff.mpr
      ⟨d, hd, Scheme.exists_refuses_iff.mpr (.inr ⟨e, hb⟩)⟩
    rw [ofEntries_eq_error_iff.mpr he'] at h
    cases h

theorem lastEntry_iff {entries : List (Path × V)} {path : Path} {v : V} :
    LastEntry entries path v ↔ Table.get? path entries.reverse = some v :=
  Table.get?_reverse_eq_some_iff.symm

theorem LastEntry.mem {entries : List (Path × V)} {path : Path} {v : V}
    (h : LastEntry entries path v) : (path, v) ∈ entries := by
  obtain ⟨before, after, rfl, -⟩ := h
  exact List.mem_append_right _ List.mem_cons_self

theorem exists_lastEntry_iff {entries : List (Path × V)} {path : Path} :
    (∃ v, LastEntry entries path v) ↔ ∃ v, (path, v) ∈ entries := by
  constructor
  · rintro ⟨v, hv⟩
    exact ⟨v, hv.mem⟩
  · rintro ⟨v, hv⟩
    simp only [lastEntry_iff]
    refine Option.ne_none_iff_exists'.mp fun hnone => ?_
    exact Table.get?_eq_none_iff.mp hnone (path, v) (List.mem_reverse.mpr hv) rfl

section Made

variable {s : Scheme V} {edit : Nat} {entries : List (Path × V)} {t : Tree V}

/-- A path has a value hash exactly if it is that of its last entry. -/
theorem valueHash?_ofEntries (h : ofEntries s edit entries = .ok t) (hfits : EntriesFit entries)
    (hfree : CollisionFree (s.algorithm.hashings (ofEntriesHashed s edit entries))) (q : Path)
    (hash : Hash) : t.valueHash? q = some hash ↔ LastHashed s entries q hash := by
  obtain ⟨-, -, hvalues⟩ := ofEntries_valueHash? h hfits (List.Subset.refl _) hfree
  rw [hvalues, Option.bind_eq_some_iff]
  refine exists_congr fun v => and_congr lastEntry_iff.symm ?_
  cases s.hashValue v <;> simp [Except.toOption]

theorem exists_lastHashed_iff (h : ofEntries s edit entries = .ok t) (q : Path) :
    (∃ hash, LastHashed s entries q hash) ↔ ∃ v, (q, v) ∈ entries := by
  rw [← exists_lastEntry_iff]
  constructor
  · rintro ⟨hash, v, hv, -⟩
    exact ⟨v, hv⟩
  · rintro ⟨v, hv⟩
    obtain ⟨hash, hhash⟩ := exists_hashValue_of_ofEntries h hv.mem
    exact ⟨hash, v, hv, hhash⟩

theorem exists_get?_iff_valueHash? (t : Tree V) (q : Path) :
    (∃ v, t.get? q = some v) ↔ ∃ hash, t.valueHash? q = some hash := by
  rw [← Option.ne_none_iff_exists', ← Option.ne_none_iff_exists', ne_eq, ne_eq,
    valueHash?_eq_none_iff]

/-- Lists that agree on the last value hash of each path make trees with one hash. -/
theorem hash_eq_of_lastHashed {edit' : Nat} {entries' : List (Path × V)} {t' : Tree V}
    (h : ofEntries s edit entries = .ok t) (hfits : EntriesFit entries)
    (hfree : CollisionFree (s.algorithm.hashings (ofEntriesHashed s edit entries)))
    (h' : ofEntries s edit' entries' = .ok t') (hfits' : EntriesFit entries')
    (hfree' : CollisionFree (s.algorithm.hashings (ofEntriesHashed s edit' entries')))
    (hagree : ∀ q hash, LastHashed s entries q hash ↔ LastHashed s entries' q hash) :
    t.hash = t'.hash := by
  have hsame : ∀ q, t.valueHash? q = t'.valueHash? q := fun q => Option.ext fun hash => by
    rw [valueHash?_ofEntries h hfits hfree, valueHash?_ofEntries h' hfits' hfree', hagree]
  obtain ⟨hs, -, -⟩ := ofEntries_valueHash? h hfits (List.Subset.refl _) hfree
  obtain ⟨hs', -, -⟩ := ofEntries_valueHash? h' hfits' (List.Subset.refl _) hfree'
  have halgorithm : t.algorithm = t'.algorithm := congrArg Scheme.algorithm (hs.trans hs'.symm)
  have ht : t.Sound := (sound_empty _ _).insertAll h
  have ht' : t'.Sound := (sound_empty _ _).insertAll h'
  have hroot : t.hash? [] = t'.hash? [] := ht.hash?_eq_of_valueHash? ht' halgorithm hsame
  exact Option.some.inj hroot

end Made

/-- Making a tree from entries fails exactly if one of them has the path of the root or a value that
the encoding refuses, with the error of the first such entry. Otherwise the paths with values are
those of the entries, with the hash of the last value of each; lists that agree on these hashes make
trees with one hash. -/
theorem ofEntries_folds (s : Scheme V) (edit : Nat) (entries : List (Path × V)) :
    ((∃ e, ofEntries s edit entries = .error e) ↔
      ∃ d ∈ entries, d.1 = [] ∨ ∃ e, s.encode d.2 = .error e) ∧
    (∀ e, ofEntries s edit entries = .error e ↔ FirstRefused s entries e) ∧
    ∀ t, ofEntries s edit entries = .ok t → EntriesFit entries →
      CollisionFree (s.algorithm.hashings (ofEntriesHashed s edit entries)) →
      (∀ q, (∃ v, t.get? q = some v) ↔ ∃ v, (q, v) ∈ entries) ∧
      (∀ q v, LastEntry entries q v →
        ∃ hash, s.hashValue v = .ok hash ∧ t.valueHash? q = some hash) ∧
      ∀ edit' entries' t', ofEntries s edit' entries' = .ok t' → EntriesFit entries' →
        CollisionFree (s.algorithm.hashings (ofEntriesHashed s edit' entries')) →
        (∀ q hash, LastHashed s entries q hash ↔ LastHashed s entries' q hash) →
        t.hash = t'.hash := by
  refine ⟨?_, fun e => ofEntries_eq_error_iff, fun t ht hfits hfree => ⟨fun q => ?_,
    fun q v hv => ?_, fun edit' entries' t' => hash_eq_of_lastHashed ht hfits hfree⟩⟩
  · simp only [ofEntries_eq_error_iff, exists_firstRefused_iff, Scheme.exists_refuses_iff]
  · rw [exists_get?_iff_valueHash?, ← exists_lastHashed_iff ht]
    exact exists_congr fun hash => valueHash?_ofEntries ht hfits hfree q hash
  · obtain ⟨hash, hhash⟩ := exists_hashValue_of_ofEntries ht hv.mem
    exact ⟨hash, hhash, (valueHash?_ofEntries ht hfits hfree q hash).mpr ⟨v, hv, hhash⟩⟩

/-- An encoding refuses the empty text and keeps the first byte of any other one. The error of a
list is that of its first entry with a fault, and that of the path where both are at fault. A path
below another one is set before and after it, and replaced by a value with another first byte; in
the end it has the value hash of its last entry, whatever the order. -/
theorem ofEntries_folds_with_lossy_encoding :
    let s : Scheme String := ⟨.blake3, fun v =>
      if v = "" then .error (.encoding "empty") else .ok ((Bytes.ofString v).take 1)⟩
    let entries := [(["a", "b"], "1"), (["a"], "x1"), (["a", "b"], "2x")]
    let entries' := [(["a", "b"], "2y"), (["a"], "x2")]
    ofEntries s 0 ((["a"], "1") :: ([], "") :: (["b"], "") :: entries) =
      .error .rootAssignment ∧
    ofEntries s 0 ((["a"], "1") :: (["b"], "") :: ([], "") :: entries) =
      .error (.encoding "empty") ∧
    ∃ t t', ofEntries s 0 entries = .ok t ∧ ofEntries s 0 entries' = .ok t' ∧
      (∃ v, t.get? ["a", "b"] = some v) ∧ ¬ (∃ v, t.get? ["b"] = some v) ∧
      (∃ hash, s.hashValue "2x" = .ok hash ∧ t.valueHash? ["a", "b"] = some hash) ∧
      t.hash = t'.hash := by
  intro s entries entries'
  have hall : EntriesFit entries ∧ EntriesFit entries' ∧
      CollisionFree (s.algorithm.hashings (ofEntriesHashed s 0 entries)) ∧
      CollisionFree (s.algorithm.hashings (ofEntriesHashed s 0 entries')) ∧
      (Bytes.ofString "2x").take 1 = (Bytes.ofString "2y").take 1 ∧
      (Bytes.ofString "x1").take 1 = (Bytes.ofString "x2").take 1 := by decide +kernel +zetaReduce
  obtain ⟨hfits, hfits', hfree, hfree', h2, hx⟩ := hall
  have hencode : ∀ v ≠ "", s.encode v = .ok ((Bytes.ofString v).take 1) := fun v hv => if_neg hv
  have haccepted : ∀ d ∈ [(["a"], "1")], ∀ e, ¬ s.Refuses d e := by
    simp [Scheme.Refuses, hencode]
  have hlisted : ∀ d ∈ entries ++ entries', d.1 ≠ [] ∧ ∃ hash, s.hashValue d.2 = .ok hash := by
    simp [entries, entries', Scheme.hashValue, hencode, Except.map]
  obtain ⟨t, ht⟩ := exists_insertAll_eq_ok (t := empty s 0)
    (fun d hd => hlisted d (List.mem_append_left _ hd)) 1
  obtain ⟨t', ht'⟩ := exists_insertAll_eq_ok (t := empty s 0)
    (fun d hd => hlisted d (List.mem_append_right _ hd)) 1
  have hagree : ∀ q hash, LastHashed s entries q hash ↔ LastHashed s entries' q hash := by
    intro q hash
    simp only [LastHashed, lastEntry_iff, entries, entries', Scheme.hashValue]
    by_cases hab : q = ["a", "b"]
    · simp [hab, Table.get?, hencode, h2]
    · by_cases ha : q = ["a"]
      · simp [ha, Table.get?, hencode, hx]
      · simp [hab, ha, Table.get?]
  obtain ⟨hvalued, hlast, hequal⟩ := (ofEntries_folds s 0 entries).2.2 t ht hfits hfree
  refine ⟨((ofEntries_folds s 0 _).2.1 _).mpr ⟨[(["a"], "1")], _, _, rfl, rfl, haccepted⟩,
    ((ofEntries_folds s 0 _).2.1 _).mpr ⟨[(["a"], "1")], _, _, rfl, rfl, haccepted⟩,
    t, t', ht, ht', (hvalued _).mpr ⟨"1", by simp [entries]⟩, ?_,
    hlast _ _ ⟨[(["a", "b"], "1"), (["a"], "x1")], [], rfl, by simp⟩,
    hequal 0 entries' t' ht' hfits' hfree' hagree⟩
  rw [hvalued]
  simp [entries]

end Tree

end ConfigTree
