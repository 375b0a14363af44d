/-!
# Tables

Finite maps as association lists. `Table.Ascending` says that the keys ascend; on ascending tables
`insert` and `erase` act on `get?` as on a map and keep the order, so that a table lists its
entries in key order and is determined by its look-ups.
-/

namespace ConfigTree.Table

variable {κ α : Type} [DecidableEq κ]

def get? (k : κ) : List (κ × α) → Option α
  | [] => none
  | (k', a) :: rest => if k = k' then some a else get? k rest

/-- Removes the entry of `k`, if there is one. -/
def erase (k : κ) : List (κ × α) → List (κ × α)
  | [] => []
  | (k', a) :: rest => if k = k' then rest else (k', a) :: erase k rest

/-- Sets the entry of `k`, in its place among ascending keys. -/
def insert [LT κ] [DecidableLT κ] (k : κ) (a : α) : List (κ × α) → List (κ × α)
  | [] => [(k, a)]
  | (k', b) :: rest =>
    if k = k' then (k, a) :: rest
    else if k < k' then (k, a) :: (k', b) :: rest
    else (k', b) :: insert k a rest

/-- The keys ascend, hence none occurs twice. -/
def Ascending [LT κ] (t : List (κ × α)) : Prop := t.Pairwise fun x y => x.1 < y.1

theorem mem_of_get? {k : κ} {a : α} {t : List (κ × α)} (h : get? k t = some a) : (k, a) ∈ t := by
  induction t with
  | nil => simp [get?] at h
  | cons e rest ih =>
    rw [get?] at h
    split at h
    · next hk => cases h; cases hk; exact List.mem_cons_self
    · exact List.mem_cons_of_mem _ (ih h)

theorem get?_eq_none {k : κ} {t : List (κ × α)} (h : ∀ e ∈ t, e.1 ≠ k) : get? k t = none := by
  induction t with
  | nil => rfl
  | cons e rest ih =>
    have hk : k ≠ e.1 := fun hk => h e List.mem_cons_self hk.symm
    rw [get?, if_neg hk, ih fun e he => h e (List.mem_cons_of_mem _ he)]

theorem erase_sublist (k : κ) (t : List (κ × α)) : (erase k t).Sublist t := by
  induction t with
  | nil => exact List.Sublist.refl _
  | cons e rest ih =>
    rw [erase]
    split
    · exact List.sublist_cons_self _ _
    · exact ih.cons_cons _

theorem mem_insert [LT κ] [DecidableLT κ] {k : κ} {a : α} {t : List (κ × α)} {e : κ × α}
    (h : e ∈ insert k a t) : e = (k, a) ∨ e ∈ t := by
  induction t with
  | nil => simpa [insert] using h
  | cons d rest ih =>
    rw [insert] at h
    split at h
    · rcases List.mem_cons.mp h with h | h
      · exact .inl h
      · exact .inr (List.mem_cons_of_mem _ h)
    · split at h
      · exact List.mem_cons.mp h
      · rcases List.mem_cons.mp h with h | h
        · exact .inr (h ▸ List.mem_cons_self)
        · exact (ih h).imp id (List.mem_cons_of_mem _)

theorem get?_insert [LT κ] [DecidableLT κ] (k k' : κ) (a : α) (t : List (κ × α)) :
    get? k' (insert k a t) = if k' = k then some a else get? k' t := by
  induction t with
  | nil => rfl
  | cons e rest ih =>
    rw [insert]
    split
    · next hk => cases hk; simp only [get?]; split <;> rfl
    · next hk =>
      split
      · rfl
      · simp only [get?, ih]
        by_cases h : k' = e.1
        · simp [h, Ne.symm hk]
        · simp [h]

theorem get?_erase_ne {k k' : κ} (h : k' ≠ k) (t : List (κ × α)) :
    get? k' (erase k t) = get? k' t := by
  induction t with
  | nil => rfl
  | cons e rest ih =>
    rw [erase]
    split
    · next hk => rw [get?, if_neg (hk ▸ h)]
    · simp only [get?, ih]

theorem ascending_erase [LT κ] {k : κ} {t : List (κ × α)} (h : Ascending t) :
    Ascending (erase k t) :=
  List.Pairwise.sublist (erase_sublist k t) h

section Ascending

variable [LE κ] [LT κ] [Std.IsLinearOrder κ] [Std.LawfulOrderLT κ]

theorem ascending_insert [DecidableLT κ] {k : κ} {a : α} {t : List (κ × α)} (h : Ascending t) :
    Ascending (insert k a t) := by
  induction t with
  | nil => exact List.pairwise_singleton _ _
  | cons e rest ih =>
    obtain ⟨he, hrest⟩ := List.pairwise_cons.mp h
    rw [insert]
    split
    · next hk => cases hk; exact List.pairwise_cons.mpr ⟨he, hrest⟩
    · next hk =>
      split
      · next hlt =>
        refine List.pairwise_cons.mpr ⟨fun d hd => ?_, h⟩
        rcases List.mem_cons.mp hd with rfl | hd
        · exact hlt
        · exact Std.lt_trans hlt (he d hd)
      · next hlt =>
        refine List.pairwise_cons.mpr ⟨fun d hd => ?_, ih hrest⟩
        rcases mem_insert hd with rfl | hd
        · exact Std.lt_of_le_of_ne (Std.not_lt.mp hlt) (Ne.symm hk)
        · exact he d hd

omit [Std.IsLinearOrder κ] in
theorem get?_of_mem {k : κ} {a : α} {t : List (κ × α)} (h : Ascending t) (hm : (k, a) ∈ t) :
    get? k t = some a := by
  induction t with
  | nil => cases hm
  | cons e rest ih =>
    obtain ⟨he, hrest⟩ := List.pairwise_cons.mp h
    rcases List.mem_cons.mp hm with rfl | hm
    · simp [get?]
    · have hk : k ≠ e.1 := fun hk => Std.lt_irrefl (hk ▸ he _ hm)
      rw [get?, if_neg hk, ih hrest hm]

omit [Std.IsLinearOrder κ] in
theorem get?_erase_self {k : κ} {t : List (κ × α)} (h : Ascending t) :
    get? k (erase k t) = none := by
  induction t with
  | nil => rfl
  | cons e rest ih =>
    obtain ⟨he, hrest⟩ := List.pairwise_cons.mp h
    rw [erase]
    split
    · next hk => exact get?_eq_none fun d hd hkd => Std.lt_irrefl ((hkd.trans hk) ▸ he d hd)
    · next hk => rw [get?, if_neg hk, ih hrest]

/-- Look-ups determine an ascending table. -/
theorem eq_of_get? {t u : List (κ × α)} (ht : Ascending t) (hu : Ascending u)
    (h : ∀ k, get? k t = get? k u) : t = u := by
  induction t generalizing u with
  | nil =>
    cases u with
    | nil => rfl
    | cons e _ => simpa [get?] using h e.1
  | cons e rest ih =>
    cases u with
    | nil => simpa [get?] using h e.1
    | cons d rest' =>
      obtain ⟨he, hrest⟩ := List.pairwise_cons.mp ht
      obtain ⟨hd, hrest'⟩ := List.pairwise_cons.mp hu
      have hkey : e.1 = d.1 := by
        have h₁ : e ∈ d :: rest' := mem_of_get? ((h e.1).symm.trans (by simp [get?]))
        have h₂ : d ∈ e :: rest := mem_of_get? ((h d.1).trans (by simp [get?]))
        rcases List.mem_cons.mp h₁ with rfl | h₁
        · rfl
        rcases List.mem_cons.mp h₂ with rfl | h₂
        · rfl
        exact absurd (Std.lt_trans (hd e h₁) (he d h₂)) Std.lt_irrefl
      have hval : e.2 = d.2 := by simpa [get?, hkey] using h e.1
      have htail : ∀ k, get? k rest = get? k rest' := by
        intro k
        by_cases hk : k = e.1
        · rw [get?_eq_none fun x hx hkx => Std.lt_irrefl ((hkx.trans hk) ▸ he x hx),
            get?_eq_none fun x hx hkx => Std.lt_irrefl ((hkx.trans (hk.trans hkey)) ▸ hd x hx)]
        · have hk' : k ≠ d.1 := hkey ▸ hk
          simpa [get?, hk, hk'] using h k
      rw [ih hrest hrest' htail, show e = d from Prod.ext hkey hval]

end Ascending

end ConfigTree.Table
