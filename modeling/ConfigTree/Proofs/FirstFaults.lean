/-!
# The first fault in a list

A list that is worked through from the left stops at the first element with a fault, and what lies
behind it does not count. Which faults an element has is left open; it may have several.
-/

namespace ConfigTree

variable {α ε : Type} {Fault : α → ε → Prop}

/-- One of the elements has this fault, and none before it has any. -/
def FirstFault (Fault : α → ε → Prop) (xs : List α) (e : ε) : Prop :=
  ∃ before x after, xs = before ++ x :: after ∧ Fault x e ∧ ∀ d ∈ before, ∀ e', ¬ Fault d e'

theorem not_firstFault_nil (e : ε) : ¬ FirstFault Fault [] e := by
  rintro ⟨before, x, after, hcut, -⟩
  simp at hcut

theorem firstFault_cons_iff {x : α} {rest : List α} {e : ε} :
    FirstFault Fault (x :: rest) e ↔
      Fault x e ∨ (∀ e', ¬ Fault x e') ∧ FirstFault Fault rest e := by
  constructor
  · rintro ⟨before, d, after, hcut, hd, hbefore⟩
    cases before with
    | nil =>
      obtain ⟨rfl, -⟩ := List.cons.inj hcut
      exact .inl hd
    | cons b before =>
      obtain ⟨rfl, rfl⟩ := List.cons.inj hcut
      obtain ⟨hb, hbefore⟩ := List.forall_mem_cons.mp hbefore
      exact .inr ⟨hb, before, d, after, rfl, hd, hbefore⟩
  · rintro (hx | ⟨hx, before, d, after, rfl, hd, hbefore⟩)
    · exact ⟨[], x, rest, rfl, hx, nofun⟩
    · exact ⟨x :: before, d, after, rfl, hd, List.forall_mem_cons.mpr ⟨hx, hbefore⟩⟩

/-- The faults of the left list come first. -/
theorem firstFault_append_iff {xs ys : List α} {e : ε} :
    FirstFault Fault (xs ++ ys) e ↔
      FirstFault Fault xs e ∨ (∀ x ∈ xs, ∀ e', ¬ Fault x e') ∧ FirstFault Fault ys e := by
  induction xs with
  | nil => simp [not_firstFault_nil]
  | cons x xs ih =>
    rw [List.cons_append, firstFault_cons_iff, firstFault_cons_iff, ih, List.forall_mem_cons,
      and_or_left, or_assoc, and_assoc]

theorem exists_firstFault_iff {xs : List α} :
    (∃ e, FirstFault Fault xs e) ↔ ∃ x ∈ xs, ∃ e, Fault x e := by
  constructor
  · rintro ⟨e, before, x, after, rfl, hx, -⟩
    exact ⟨x, by simp, e, hx⟩
  · rintro ⟨x, hx, e, hfault⟩
    induction xs with
    | nil => cases hx
    | cons y rest ih =>
      simp only [firstFault_cons_iff]
      by_cases hy : ∃ e', Fault y e'
      · obtain ⟨e', he'⟩ := hy
        exact ⟨e', .inl he'⟩
      · rcases List.mem_cons.mp hx with rfl | hx
        · exact absurd ⟨e, hfault⟩ hy
        · obtain ⟨e', he'⟩ := ih hx
          exact ⟨e', .inr ⟨not_exists.mp hy, he'⟩⟩

end ConfigTree
