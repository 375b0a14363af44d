import ConfigTree.Proofs.Assignments
/-!
# Dotted paths, read and printed

A dot between two texts joins the paths that they are read as, and this is all that a dot does: empty
labels are dropped, so only dots are read as the root. Every path whose labels are neither empty nor
hold a dot is read back from what is printed for it. The root is left out, since what is printed for
it is a label like any other (`Path.display_root`).
-/

namespace ConfigTree.Path

open Command (Separable dottedLabels separable_dottedLabels dottedLabels_display ofDotted_eq)

theorem separable_ofDotted (s : String) : Separable (ofDotted s) := by
  rw [ofDotted_eq]
  exact separable_dottedLabels s

/-- A dot separates. -/
theorem ofDotted_append (s t : String) : ofDotted (s ++ "." ++ t) = ofDotted s ++ ofDotted t := by
  have hlist : (s ++ "." ++ t).toList = s.toList ++ '.' :: t.toList := by
    simp [String.toList_append]
  rw [ofDotted_eq, ofDotted_eq, ofDotted_eq, dottedLabels, hlist, List.splitOn_eq_splitOnP,
    List.splitOnP_append_cons _ _ (by rfl), List.filter_append, List.map_append,
    ← List.splitOn_eq_splitOnP, ← List.splitOn_eq_splitOnP]
  rfl

/-- All parts between the dots are empty exactly if there is nothing but dots. -/
theorem forall_splitDots_eq_nil_iff {cs : List Char} :
    (∀ part ∈ splitDots cs, part = []) ↔ ∀ c ∈ cs, c = '.' := by
  induction cs with
  | nil => simp [splitDots]
  | cons c cs ih =>
    rw [splitDots, List.forall_mem_cons (p := fun c => c = '.')]
    split
    · next hc =>
      rw [List.forall_mem_cons, ih]
      exact and_congr_left' (iff_of_true rfl hc)
    · next hc =>
      refine iff_of_false (fun h => ?_) fun h => hc h.1
      cases hs : splitDots cs with
      | nil =>
        rw [hs] at h
        exact absurd (h _ List.mem_cons_self) (List.cons_ne_nil c [])
      | cons part parts =>
        rw [hs] at h
        exact absurd (h _ List.mem_cons_self) (List.cons_ne_nil c part)

/-- Nothing but dots is read as the root. -/
theorem ofDotted_eq_nil_iff {s : String} : ofDotted s = [] ↔ ∀ c ∈ s.toList, c = '.' := by
  rw [← forall_splitDots_eq_nil_iff, ofDotted, List.map_eq_nil_iff, List.filter_eq_nil_iff]
  simp

theorem ofDotted_display {p : Path} (h : Separable p) (hp : p ≠ []) : ofDotted p.display = p := by
  rw [ofDotted_eq]
  exact dottedLabels_display h hp

/-- What is printed for the root is printed for another path too. -/
theorem display_root : display [] = display ["<root>"] := rfl

/-- What is read has labels that are neither empty nor hold a dot, the paths of two texts are joined
by a dot between the texts, and only dots are read as the root. Paths with such labels, other than
the root, are read back from what is printed for them, so no two of them are printed alike. -/
theorem ofDotted_reads_display :
    (∀ s, ∀ label ∈ ofDotted s, label ≠ "" ∧ '.' ∉ label.toList) ∧
    (∀ s t, ofDotted (s ++ "." ++ t) = ofDotted s ++ ofDotted t) ∧
    (∀ s, ofDotted s = [] ↔ ∀ c ∈ s.toList, c = '.') ∧
    (∀ p : Path, p ≠ [] → (∀ label ∈ p, label ≠ "" ∧ '.' ∉ label.toList) →
      ofDotted p.display = p) ∧
    (∀ p q : Path, p ≠ [] → (∀ label ∈ p, label ≠ "" ∧ '.' ∉ label.toList) →
      q ≠ [] → (∀ label ∈ q, label ≠ "" ∧ '.' ∉ label.toList) → p.display = q.display → p = q) ∧
    ∀ s, ofDotted s ≠ [] → ofDotted (ofDotted s).display = ofDotted s := by
  refine ⟨separable_ofDotted, ofDotted_append, fun s => ofDotted_eq_nil_iff,
    fun p hp h => ofDotted_display h hp, fun p q hp h hq h' he => ?_,
    fun s hs => ofDotted_display (separable_ofDotted s) hs⟩
  rw [← ofDotted_display h hp, he, ofDotted_display h' hq]

/-- Dots in front, in a row and at the end, a label beyond ASCII, and one like the name of the
root. -/
theorem ofDotted_reads_display_of_odd_texts :
    ofDotted ("..é" ++ "." ++ ".<root>.") = ["é"] ++ ["<root>"] ∧
      ofDotted (ofDotted "..é..<root>.").display = ["é", "<root>"] ∧
      ofDotted (display ["<root>"]) = ["<root>"] ∧ ofDotted "..." = [] ∧
      ∀ q : Path, q ≠ [] → (∀ label ∈ q, label ≠ "" ∧ '.' ∉ label.toList) →
        q.display = "é.<root>" → q = ["é", "<root>"] := by
  obtain ⟨-, happend, hroot, hback, hinj, hread⟩ := ofDotted_reads_display
  have hleft : ofDotted "..é" = ["é"] := by decide
  have hright : ofDotted ".<root>." = ["<root>"] := by decide
  have hboth : ofDotted "..é..<root>." = ["é", "<root>"] := by decide
  have hlabels : ∀ label ∈ ["é", "<root>"], label ≠ "" ∧ '.' ∉ label.toList := by decide
  have hdots : ∀ c ∈ "...".toList, c = '.' := by simp
  refine ⟨?_, ?_, hback _ (by decide) (by decide), (hroot "...").mpr hdots, fun q hq h he => ?_⟩
  · rw [happend, hleft, hright]
  · rw [hread _ (by rw [hboth]; exact List.cons_ne_nil _ _), hboth]
  · exact hinj _ _ hq h (List.cons_ne_nil _ _) hlabels he

end ConfigTree.Path
