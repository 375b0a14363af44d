import ConfigTree.Proofs.Sharing
import ConfigTree.Proofs.StringLiterals
/-!
# Values that their bytes tell

An insertion keeps the value at its path where that value has the hash of the new one. Where the
encoding gives the bytes of the new value to no other one, this is the new value itself. Then what
was inserted is found, and the root shows every change. The three encodings of text are of this
kind, for all texts: the bytes of a text stand alone, behind their number, or between quotation
marks and with escapes.
-/

namespace ConfigTree

namespace Encoding

variable {V : Type}

/-- The bytes of the value are those of no other value. -/
def Tells (encode : Encoding V) (v : V) : Prop :=
  ∀ w bytes, encode v = .ok bytes → encode w = .ok bytes → w = v

theorem tells_utf8 (v : String) : utf8.Tells v := by
  intro w bytes hv hw
  exact Bytes.ofString_inj (Except.ok.inj (hw.trans hv.symm))

/-- The number in front has a fixed length, so that the text is what stands behind it. -/
theorem tells_binary_text (v : String) : (binary Datum.text).Tells v := by
  intro w bytes hv hw
  have hbytes : Datum.binaryLength (Bytes.ofString w).length ++ Bytes.ofString w =
      Datum.binaryLength (Bytes.ofString v).length ++ Bytes.ofString v :=
    Except.ok.inj (hw.trans hv.symm)
  have hlen : (Datum.binaryLength (Bytes.ofString w).length).length =
      (Datum.binaryLength (Bytes.ofString v).length).length := by
    rw [Datum.binaryLength, Datum.binaryLength, Bytes.length_littleEndian,
      Bytes.length_littleEndian]
  exact Bytes.ofString_inj (List.append_inj hbytes hlen).2

theorem tells_json_text (v : String) : (json Datum.text).Tells v := by
  intro w bytes hv hw
  have hbytes : Bytes.ofString (Json.compact (.string w)) =
      Bytes.ofString (Json.compact (.string v)) := Except.ok.inj (hw.trans hv.symm)
  have hquoted : Json.quoteChars w [] = Json.quoteChars v [] :=
    String.ofList_injective (Bytes.ofString_inj hbytes)
  exact (Json.quoteChars_inj hquoted).1

/-- The three encodings have bytes for every text, which tell it. -/
theorem text_encodes {encode : Encoding String}
    (h : encode ∈ [utf8, binary Datum.text, json Datum.text]) (v : String) :
    (∃ bytes, encode v = .ok bytes) ∧ encode.Tells v := by
  simp only [List.mem_cons, List.not_mem_nil, or_false] at h
  rcases h with rfl | rfl | rfl
  · exact ⟨⟨_, rfl⟩, tells_utf8 v⟩
  · exact ⟨⟨_, rfl⟩, tells_binary_text v⟩
  · exact ⟨⟨_, rfl⟩, tells_json_text v⟩

end Encoding

namespace Tree

variable {V : Type}

/-- The bytes of every value in the tree are hashed for it. -/
theorem mem_hashings_of_get? {t : Tree V} {path : Path} {v : V} (hv : t.get? path = some v)
    {bytes : Bytes} (hb : t.scheme.encode v = .ok bytes) :
    (bytes, t.algorithm.digest bytes) ∈ t.hashings := by
  obtain ⟨n, hn, hvalue⟩ := Option.bind_eq_some_iff.mp hv
  obtain ⟨stored, hstored, rfl⟩ := Option.map_eq_some_iff.mp hvalue
  exact List.mem_map.mpr ⟨bytes, Node.value_mem_hashed hn hstored hb, rfl⟩

section Bytes

variable {t u : Tree V} {edit : Nat} {path : Path} {v : V}

/-- The hash of a value is where a value of the same bytes is. -/
theorem Sound.valueHash?_eq_iff_encode (ht : t.Sound)
    (hfree : CollisionFree (t.hashings ++ t.algorithm.hashings (t.insertHashed edit path v)))
    {hash : Hash} (hv : t.scheme.hashValue v = .ok hash) (q : Path) :
    t.valueHash? q = some hash ↔
      ∃ w, t.get? q = some w ∧ t.scheme.encode w = t.scheme.encode v := by
  obtain ⟨bytes, hb, rfl⟩ := Scheme.hashValue_eq_ok_iff.mp hv
  rw [ht.valueHash?_eq_some_iff]
  refine exists_congr fun w => and_congr_right fun hw => ?_
  constructor
  · intro hwhash
    obtain ⟨bytes', hb', hdigest⟩ := Scheme.hashValue_eq_ok_iff.mp hwhash
    have hnew : bytes ∈ t.insertHashed edit path v := by
      rw [insertHashed, hb]
      exact List.mem_cons_self
    -- both byte strings are hashed, the one for the tree and the other on the way
    have hbytes : bytes' = bytes :=
      hfree _ (List.mem_append_left _ (mem_hashings_of_get? hw hb')) _
        (List.mem_append_right _ (List.mem_map.mpr ⟨bytes, hnew, rfl⟩)) hdigest
    rw [hb', hb, hbytes]
  · exact fun he => Scheme.hashValue_eq_ok_iff.mpr ⟨bytes, he.trans hb, rfl⟩

/-- An insertion changes nothing if the value at its path has the bytes of the new one. Otherwise
the new value is found, and the root has another hash. -/
theorem Sound.get?_insert_cases (ht : t.Sound)
    (hfree : CollisionFree (t.hashings ++ t.algorithm.hashings (t.insertHashed edit path v)))
    (hfits : t.LabelsFit) (hlabels : ∀ label ∈ path, (Bytes.ofString label).length < 2 ^ 64)
    (h : t.insert edit path v = .ok u) :
    (∀ w, t.get? path = some w → t.scheme.encode w = t.scheme.encode v →
      u.get? path = some w ∧ u.hash = t.hash) ∧
    ((∀ w, t.get? path = some w → t.scheme.encode w ≠ t.scheme.encode v) →
      u.get? path = some v ∧ u.hash ≠ t.hash) := by
  obtain ⟨strings, hi⟩ := ht.exists_inserted hfree hfits hlabels h
  obtain ⟨hash, hv, -, -⟩ := insert_eq_ok h
  have hsame : t.valueHash? path = (t.scheme.hashValue v).toOption ↔
      ∃ w, t.get? path = some w ∧ t.scheme.encode w = t.scheme.encode v := by
    rw [hv]
    exact ht.valueHash?_eq_iff_encode hfree hv path
  constructor
  · intro w hw he
    have hkept := hsame.mpr ⟨w, hw, he⟩
    rw [hi.get?_eq, if_neg fun hnew => hnew.2 hkept]
    exact ⟨hw, hi.hash_eq_iff.mpr hkept⟩
  · intro hother
    have hnew : t.valueHash? path ≠ (t.scheme.hashValue v).toOption := fun hkept => by
      obtain ⟨w, hw, he⟩ := hsame.mp hkept
      exact hother w hw he
    rw [hi.get?_eq, if_pos ⟨rfl, hnew⟩]
    exact ⟨rfl, fun hhash => hnew (hi.hash_eq_iff.mp hhash)⟩

/-- If no other value with the bytes of the new one is at its path, the new value is found after the
insertion, and the root has its old hash exactly if the value was there before. -/
theorem Sound.get?_insert_of_told (ht : t.Sound)
    (htold : ∀ w, t.get? path = some w → t.scheme.encode w = t.scheme.encode v → w = v)
    (hfree : CollisionFree (t.hashings ++ t.algorithm.hashings (t.insertHashed edit path v)))
    (hfits : t.LabelsFit) (hlabels : ∀ label ∈ path, (Bytes.ofString label).length < 2 ^ 64)
    (h : t.insert edit path v = .ok u) :
    u.get? path = some v ∧ (u.hash = t.hash ↔ t.get? path = some v) := by
  obtain ⟨hkept, hset⟩ := ht.get?_insert_cases hfree hfits hlabels h
  by_cases hv : t.get? path = some v
  · obtain ⟨hget, hhash⟩ := hkept v hv rfl
    exact ⟨hget, fun _ => hv, fun _ => hhash⟩
  · obtain ⟨hget, hhash⟩ := hset fun w hw he => hv (htold w hw he ▸ hw)
    exact ⟨hget, fun he => absurd he hhash, fun he => absurd he hv⟩

end Bytes

/-- In a tree of texts with one of the three encodings, an insertion below the root succeeds, its
text is found afterwards, and the root has its old hash exactly if the text was there before. -/
theorem Reachable.insert_keeps_text {t : Tree String} (ht : t.Reachable)
    (hs : t.scheme.encode ∈
      [Encoding.utf8, Encoding.binary Datum.text, Encoding.json Datum.text])
    {path : Path} (hpath : path ≠ []) (v : String) (edit : Nat)
    (hfree : CollisionFree (t.hashings ++ t.algorithm.hashings (t.insertHashed edit path v)))
    (hfits : t.LabelsFit) (hlabels : ∀ label ∈ path, (Bytes.ofString label).length < 2 ^ 64) :
    ∃ u, t.insert edit path v = .ok u ∧ u.get? path = some v ∧
      (u.hash = t.hash ↔ t.get? path = some v) := by
  obtain ⟨⟨bytes, hb⟩, htells⟩ := Encoding.text_encodes hs v
  have hv : ∃ hash, t.scheme.hashValue v = .ok hash :=
    ⟨_, Scheme.hashValue_eq_ok_iff.mpr ⟨bytes, hb, rfl⟩⟩
  obtain ⟨u, hu, -⟩ := exists_insert_eq_ok hpath hv edit
  have htold : ∀ w, t.get? path = some w → t.scheme.encode w = t.scheme.encode v → w = v :=
    fun w _ he => htells w bytes hb (he.trans hb)
  exact ⟨u, hu, ht.sound.get?_insert_of_told htold hfree hfits hlabels hu⟩

/-- JSON text. The value that is there is how a quotation mark looks when it is escaped, and is
itself written with other escapes: the mark replaces it, and the value itself changes nothing. -/
theorem insert_keeps_text_like_an_escape :
    let s : Scheme String := ⟨.blake3, Encoding.json Datum.text⟩
    let t := (empty s 0).replay 1 [.insert ["a"] "\\\"", .insert ["a", "b"] "\x07"]
    (∃ u, t.insert 3 ["a"] "\"" = .ok u ∧ u.get? ["a"] = some "\"" ∧ u.hash ≠ t.hash) ∧
    ∃ u, t.insert 3 ["a"] "\\\"" = .ok u ∧ u.get? ["a"] = some "\\\"" ∧ u.hash = t.hash := by
  intro s t
  have ht : t.Reachable := .replay (.empty s 0) 1 _
  have hs : t.scheme.encode ∈
      [Encoding.utf8, Encoding.binary Datum.text, Encoding.json Datum.text] :=
    .tail _ (.tail _ (.head _))
  have hall : t.LabelsFit ∧ t.get? ["a"] = some "\\\"" ∧
      (∀ label ∈ ["a"], (Bytes.ofString label).length < 2 ^ 64) ∧
      ∀ v ∈ ["\"", "\\\""],
        CollisionFree (t.hashings ++ t.algorithm.hashings (t.insertHashed 3 ["a"] v)) := by
    decide +kernel +zetaReduce
  obtain ⟨hfits, ha, hlabels, hfree⟩ := hall
  have hkeeps := fun v hv =>
    ht.insert_keeps_text hs (List.cons_ne_nil "a" []) v 3 (hfree v hv) hfits hlabels
  constructor
  · obtain ⟨u, hu, hget, hhash⟩ := hkeeps "\"" (by decide)
    exact ⟨u, hu, hget, fun he => absurd (ha.symm.trans (hhash.mp he)) (by decide)⟩
  · obtain ⟨u, hu, hget, hhash⟩ := hkeeps "\\\"" (by decide)
    exact ⟨u, hu, hget, hhash.mpr ha⟩

end Tree

end ConfigTree
