import ConfigTree.Proofs.TextValues
import ConfigTree.Proofs.BinaryForms
/-!
# Trees of JSON values

An insertion keeps the value at its path where that value has the bytes of the new one. The JSON text
of a value without floating-point numbers is that of no other value, so that the value is always
found after it was inserted. The binary form may be that of a value of another kind, which then
stays; among values that are alike it is the form of one.
-/

namespace ConfigTree

namespace Encoding

theorem json_ofJson (v : Json) : json Datum.ofJson v = .ok (Bytes.ofString v.compact) := by
  rw [json, Json.json_ofJson]

theorem binary_ofJson (v : Json) : binary Datum.ofJson v = .ok v.binaryForm := by
  rw [binary, Json.binary_ofJson]

theorem json_ofJson_inj {v w : Json} (hv : ∀ n ∈ v.numbers, n.IsInteger)
    (hw : ∀ n ∈ w.numbers, n.HasNumeral) (h : json Datum.ofJson w = json Datum.ofJson v) :
    w = v := by
  rw [json_ofJson, json_ofJson] at h
  exact (Json.compact_inj hv hw (Bytes.ofString_inj (Except.ok.inj h)).symm).symm

theorem binary_ofJson_inj {v w : Json} (hk : v.Alike w) (hv : Json.Fit v.numbers v.lengths)
    (hw : Json.Fit w.numbers w.lengths) (h : binary Datum.ofJson w = binary Datum.ofJson v) :
    w = v := by
  rw [binary_ofJson, binary_ofJson] at h
  have hform : v.binaryForm ++ [] = w.binaryForm ++ [] := by rw [Except.ok.inj h]
  exact (Json.binaryForm_inj v w [] [] hk hv hw hform).1.symm

end Encoding

namespace Tree

/-- In a tree of JSON values, with the JSON or the binary encoding, an insertion below the root
succeeds. It changes nothing if the value at the path has the bytes of the new one; otherwise the
new value is found, and the root has another hash. With the JSON encoding, and with the binary one
if the value at the path is alike, only the new value has its bytes. -/
theorem Reachable.insert_keeps_json {t : Tree Json} (ht : t.Reachable)
    (hs : t.scheme.encode ∈ [Encoding.json Datum.ofJson, Encoding.binary Datum.ofJson])
    {path : Path} (hpath : path ≠ []) {v : Json} (hv : ∀ n ∈ v.numbers, n.IsInteger)
    (hlengths : ∀ n ∈ v.lengths, n < 2 ^ 64)
    (hheld : ∀ w, t.get? path = some w → Json.Fit w.numbers w.lengths) (edit : Nat)
    (hfree : CollisionFree (t.hashings ++ t.algorithm.hashings (t.insertHashed edit path v)))
    (hfits : t.LabelsFit) (hlabels : ∀ label ∈ path, (Bytes.ofString label).length < 2 ^ 64) :
    ∃ u, t.insert edit path v = .ok u ∧
      (∀ w, t.get? path = some w → t.scheme.encode w = t.scheme.encode v →
        u.get? path = some w ∧ u.hash = t.hash) ∧
      ((∀ w, t.get? path = some w → t.scheme.encode w ≠ t.scheme.encode v) →
        u.get? path = some v ∧ u.hash ≠ t.hash) ∧
      (t.scheme.encode = Encoding.json Datum.ofJson ∨ (∀ w, t.get? path = some w → v.Alike w) →
        u.get? path = some v ∧ (u.hash = t.hash ↔ t.get? path = some v)) := by
  have hfit : Json.Fit v.numbers v.lengths := ⟨fun n hn => (hv n hn).hasNumeral, hlengths⟩
  simp only [List.mem_cons, List.not_mem_nil, or_false] at hs
  have hbytes : ∃ bytes, t.scheme.encode v = .ok bytes := by
    rcases hs with hs | hs
    · exact ⟨_, hs ▸ Encoding.json_ofJson v⟩
    · exact ⟨_, hs ▸ Encoding.binary_ofJson v⟩
  obtain ⟨bytes, hb⟩ := hbytes
  have haccepted : ∃ hash, t.scheme.hashValue v = .ok hash :=
    ⟨_, Scheme.hashValue_eq_ok_iff.mpr ⟨bytes, hb, rfl⟩⟩
  obtain ⟨u, hu, -⟩ := exists_insert_eq_ok hpath haccepted edit
  obtain ⟨hkept, hset⟩ := ht.sound.get?_insert_cases hfree hfits hlabels hu
  refine ⟨u, hu, hkept, hset, fun hcase => ?_⟩
  refine ht.sound.get?_insert_of_told (fun w hw he => ?_) hfree hfits hlabels hu
  rcases hs with hs | hs
  · rw [hs] at he
    exact Encoding.json_ofJson_inj hv (hheld w hw).1 he
  · rcases hcase with hjson | halike
    · rw [hjson] at he
      exact Encoding.json_ofJson_inj hv (hheld w hw).1 he
    · rw [hs] at he
      exact Encoding.binary_ofJson_inj (halike w hw) hfit (hheld w hw) he

/-- With JSON text the empty array replaces a zero. With the binary form an array replaces one whose
items are of the same kinds. -/
theorem insert_keeps_json_of_other_kind :
    let s : Scheme Json := ⟨.blake3, Encoding.json Datum.ofJson⟩
    let t := (empty s 0).replay 1 [.insert ["a"] (.int 0)]
    let s' : Scheme Json := ⟨.blake3, Encoding.binary Datum.ofJson⟩
    let t' := (empty s' 0).replay 1 [.insert ["a"] (.array [.int 0, .string "x"])]
    (∃ u, t.insert 2 ["a"] (.array []) = .ok u ∧ u.get? ["a"] = some (.array []) ∧
      u.hash ≠ t.hash) ∧
    ∃ u, t'.insert 2 ["a"] (.array [.int 7, .string "x"]) = .ok u ∧
      u.get? ["a"] = some (.array [.int 7, .string "x"]) ∧ u.hash ≠ t'.hash := by
  intro s t s' t'
  have ha : t.get? ["a"] = some (.int 0) := rfl
  have ha' : t'.get? ["a"] = some (.array [.int 0, .string "x"]) := rfl
  have hall : t.LabelsFit ∧ t'.LabelsFit ∧
      CollisionFree (t.hashings ++ t.algorithm.hashings (t.insertHashed 2 ["a"] (.array []))) ∧
      CollisionFree (t'.hashings ++
        t'.algorithm.hashings (t'.insertHashed 2 ["a"] (.array [.int 7, .string "x"]))) ∧
      ∀ label ∈ ["a"], (Bytes.ofString label).length < 2 ^ 64 := by decide +kernel +zetaReduce
  obtain ⟨hfits, hfits', hfree, hfree', hlabels⟩ := hall
  constructor
  · obtain ⟨u, hu, -, -, hkeeps⟩ := Reachable.insert_keeps_json (.replay (.empty s 0) 1 _)
      (.head _) (List.cons_ne_nil "a" []) (by decide) (by decide)
      (fun w hw => by cases ha.symm.trans hw; decide) 2 hfree hfits hlabels
    obtain ⟨hget, hhash⟩ := hkeeps (.inl rfl)
    refine ⟨u, hu, hget, fun he => ?_⟩
    cases ha.symm.trans (hhash.mp he)
  · obtain ⟨u, hu, -, -, hkeeps⟩ := Reachable.insert_keeps_json (.replay (.empty s' 0) 1 _)
      (.tail _ (.head _)) (List.cons_ne_nil "a" []) (by decide) (by decide)
      (fun w hw => by cases ha'.symm.trans hw; decide) 2 hfree' hfits' hlabels
    obtain ⟨hget, hhash⟩ := hkeeps (.inr fun w hw => by
      cases ha'.symm.trans hw
      have hsign : (7 : Int) < 0 ↔ (0 : Int) < 0 := by decide
      exact ⟨hsign, trivial, trivial⟩)
    refine ⟨u, hu, hget, fun he => ?_⟩
    cases ha'.symm.trans (hhash.mp he)

/-- The binary form of zero is that of the empty array. The array is inserted without an error, but
the zero stays, and the root does not change. -/
theorem insert_loses_untagged_json :
    let s : Scheme Json := ⟨.blake3, Encoding.binary Datum.ofJson⟩
    let t := (empty s 0).replay 1 [.insert ["a"] (.int 0)]
    t.LabelsFit ∧
    CollisionFree (t.hashings ++ t.algorithm.hashings (t.insertHashed 2 ["a"] (.array []))) ∧
    ∃ u, t.insert 2 ["a"] (.array []) = .ok u ∧ u.get? ["a"] = some (.int 0) ∧
      u.get? ["a"] ≠ some (.array []) ∧ u.hash = t.hash ∧ t.get? ["a"] ≠ some (.array []) := by
  intro s t
  have ht : t.Reachable := .replay (.empty s 0) 1 _
  have ha : t.get? ["a"] = some (.int 0) := rfl
  have hall : t.LabelsFit ∧
      CollisionFree (t.hashings ++ t.algorithm.hashings (t.insertHashed 2 ["a"] (.array []))) ∧
      ∀ label ∈ ["a"], (Bytes.ofString label).length < 2 ^ 64 := by decide +kernel +zetaReduce
  obtain ⟨hfits, hfree, hlabels⟩ := hall
  have hform : t.scheme.encode (.int 0) = t.scheme.encode (.array []) := rfl
  have haccepted : ∃ hash, t.scheme.hashValue (.array []) = .ok hash := ⟨_, rfl⟩
  obtain ⟨u, hu, -⟩ := exists_insert_eq_ok (List.cons_ne_nil "a" []) haccepted 2
  obtain ⟨hget, hhash⟩ := (ht.sound.get?_insert_cases hfree hfits hlabels hu).1 _ ha hform
  refine ⟨hfits, hfree, u, hu, hget, ?_, hhash, ?_⟩
  · rw [hget]
    exact fun he => nomatch he
  · rw [ha]
    exact fun he => nomatch he

end Tree

end ConfigTree
