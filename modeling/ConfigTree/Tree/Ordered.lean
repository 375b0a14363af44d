import ConfigTree.Tree.Edit
/-!
# The order of labels

`Node.Ordered` says that the labels of the children ascend at every node. Every edit keeps it, so
that a node lists its children in label order and is determined by what is found under its labels.
-/

namespace ConfigTree.Node

variable {V : Type}

mutual
/-- The labels of the children ascend, at the node and below it. -/
def Ordered : Node V → Prop
  | ⟨_, _, children, _⟩ => Table.Ascending children ∧ ChildrenOrdered children
termination_by structural n => n

def ChildrenOrdered : List (String × Node V) → Prop
  | [] => True
  | (_, n) :: rest => n.Ordered ∧ ChildrenOrdered rest
end

theorem childrenOrdered_iff {children : List (String × Node V)} :
    ChildrenOrdered children ↔ ∀ c ∈ children, c.2.Ordered := by
  induction children with
  | nil => simp [ChildrenOrdered]
  | cons c rest ih => simp [ChildrenOrdered, ih]

theorem ordered_iff {n : Node V} :
    n.Ordered ↔ Table.Ascending n.children ∧ ∀ c ∈ n.children, c.2.Ordered := by
  cases n with
  | mk stamp value children hash => rw [Ordered, childrenOrdered_iff]

theorem Ordered.ascending {n : Node V} (h : n.Ordered) : Table.Ascending n.children :=
  (ordered_iff.mp h).1

theorem Ordered.child {n c : Node V} {label : String} (h : n.Ordered)
    (hc : n.child? label = some c) : c.Ordered :=
  (ordered_iff.mp h).2 _ (Table.mem_of_get? hc)

theorem Ordered.find? {path : Path} {n m : Node V} (h : n.Ordered)
    (hm : n.find? path = some m) : m.Ordered := by
  induction path generalizing n with
  | nil => cases hm; exact h
  | cons label rest ih =>
    obtain ⟨c, hc, hm⟩ := Option.bind_eq_some_iff.mp hm
    exact ih (h.child hc) hm

theorem ordered_build {algorithm : Algorithm} {stamp : Stamp} {value : Option (Stored V)}
    {children : List (String × Node V)} (h : Table.Ascending children)
    (hc : ∀ c ∈ children, c.2.Ordered) : (build algorithm stamp value children).Ordered :=
  ordered_iff.mpr ⟨h, hc⟩

theorem ordered_empty (algorithm : Algorithm) (stamp : Stamp) :
    (empty algorithm stamp : Node V).Ordered :=
  ordered_build .nil fun _ h => nomatch h

theorem Ordered.insertChild {n c : Node V} (h : n.Ordered) (hc : c.Ordered)
    (algorithm : Algorithm) (stamp : Stamp) (label : String) :
    (n.insertChild algorithm stamp label c).Ordered := by
  obtain ⟨hn, hall⟩ := ordered_iff.mp h
  rw [Node.insertChild]
  split
  · exact h
  · refine ordered_build (Table.ascending_insert hn) fun e he => ?_
    rcases Table.mem_insert he with rfl | he
    · exact hc
    · exact hall e he

theorem Ordered.eraseChild {n : Node V} (h : n.Ordered) (algorithm : Algorithm) (stamp : Stamp)
    (label : String) : (n.eraseChild algorithm stamp label).Ordered := by
  obtain ⟨hn, hall⟩ := ordered_iff.mp h
  rw [Node.eraseChild]
  split
  · exact h
  · exact ordered_build (Table.ascending_erase hn) fun e he =>
      hall e ((Table.erase_sublist label n.children).subset he)

theorem Ordered.setValue {n : Node V} (h : n.Ordered) (algorithm : Algorithm) (stamp : Stamp)
    (v : Stored V) : (n.setValue algorithm stamp v).Ordered := by
  rw [Node.setValue]
  split
  · exact h
  · exact ordered_build h.ascending (ordered_iff.mp h).2

theorem Ordered.insert {n : Node V} (h : n.Ordered) (algorithm : Algorithm) (v : Stored V)
    (stamp : Stamp) (path : Path) : (n.insert algorithm v stamp path).Ordered := by
  induction path generalizing n stamp with
  | nil => exact h.setValue algorithm stamp v
  | cons label rest ih =>
    refine h.insertChild (ih ?_ stamp.below) algorithm stamp label
    cases hc : n.child? label with
    | none => exact ordered_empty algorithm stamp.below
    | some c => exact h.child hc

theorem Ordered.unlessVacant {n m : Node V} (h : n.Ordered) (hm : n.unlessVacant = some m) :
    m.Ordered := by
  rw [Node.unlessVacant] at hm
  split at hm
  · cases hm
  · cases hm; exact h

theorem Ordered.erase {n m : Node V} (h : n.Ordered) {algorithm : Algorithm} {stamp : Stamp}
    {path : Path} (hm : n.erase algorithm stamp path = some m) : m.Ordered := by
  induction path generalizing n m stamp with
  | nil => cases hm
  | cons label rest ih =>
    rw [Node.erase] at hm
    split at hm
    · cases hm; exact h
    · next c hc =>
      split at hm
      · next c' hc' =>
        exact (h.insertChild (ih (h.child hc) hc') algorithm stamp label).unlessVacant hm
      · exact (h.eraseChild algorithm stamp label).unlessVacant hm

end ConfigTree.Node
