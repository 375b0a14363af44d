import ConfigTree.Table
/-!
# More about tables

Look-ups in tables that are mapped, joined end to end, or searched below their least key. An
ascending table has one entry a key at most, so that what is gathered from the entries of one key
comes from one entry. The join of two ascending tables holds under each key what either of them has
there.
-/

namespace ConfigTree.Table

variable {κ α β : Type} [DecidableEq κ]

instance [LT κ] [DecidableLT κ] (t : List (κ × α)) : Decidable (Ascending t) :=
  inferInstanceAs (Decidable (t.Pairwise fun x y => x.1 < y.1))

theorem get?_map (f : α → β) (k : κ) (t : List (κ × α)) :
    get? k (t.map fun (k, a) => (k, f a)) = (get? k t).map f := by
  induction t with
  | nil => rfl
  | cons e rest ih =>
    simp only [List.map_cons, get?, ih]
    split <;> rfl

theorem get?_append (k : κ) (t u : List (κ × α)) :
    get? k (t ++ u) = (get? k t).or (get? k u) := by
  induction t with
  | nil => rfl
  | cons e rest ih =>
    simp only [List.cons_append, get?, ih]
    split <;> rfl

theorem get?_eq_none_iff {k : κ} {t : List (κ × α)} : get? k t = none ↔ ∀ e ∈ t, e.1 ≠ k := by
  refine ⟨fun h => ?_, get?_eq_none⟩
  induction t with
  | nil => exact fun _ he => nomatch he
  | cons e rest ih =>
    rw [get?] at h
    split at h
    · cases h
    · next hk => exact List.forall_mem_cons.mpr ⟨Ne.symm hk, ih h⟩

theorem erase_eq_self {k : κ} {t : List (κ × α)} (h : get? k t = none) : erase k t = t := by
  induction t with
  | nil => rfl
  | cons e rest ih =>
    rw [get?] at h
    split at h
    · cases h
    · next hk => rw [erase, if_neg hk, ih h]

/-- From the end, an entry of a key is found if it is the last one of that key. -/
theorem get?_reverse_eq_some_iff {k : κ} {a : α} {t : List (κ × α)} :
    get? k t.reverse = some a ↔
      ∃ before after, t = before ++ (k, a) :: after ∧ ∀ e ∈ after, e.1 ≠ k := by
  constructor
  · intro h
    induction t with
    | nil => cases h
    | cons e rest ih =>
      rw [List.reverse_cons, get?_append, Option.or_eq_some_iff] at h
      rcases h with h | ⟨hnone, he⟩
      · obtain ⟨before, after, rfl, hafter⟩ := ih h
        exact ⟨e :: before, after, rfl, hafter⟩
      · have hmem := mem_of_get? he
        rw [List.mem_singleton] at hmem
        refine ⟨[], rest, hmem ▸ rfl, fun d hd => ?_⟩
        exact get?_eq_none_iff.mp hnone d (List.mem_reverse.mpr hd)
  · rintro ⟨before, after, rfl, hafter⟩
    have hnone : get? k after.reverse = none :=
      get?_eq_none fun e he => hafter e (List.mem_reverse.mp he)
    simp [get?_append, get?, hnone]

omit [DecidableEq κ] in
theorem ascending_map [LT κ] (f : α → β) {t : List (κ × α)} (h : Ascending t) :
    Ascending (t.map fun (k, a) => (k, f a)) :=
  List.pairwise_map.mpr h

variable [LE κ] [LT κ] [Std.LawfulOrderLT κ]

theorem get?_eq_none_of_lt {k : κ} {t : List (κ × α)} (h : ∀ e ∈ t, k < e.1) : get? k t = none :=
  get?_eq_none fun e he hk => Std.lt_irrefl (hk ▸ h e he)

theorem get?_of_erase {k k' : κ} {a : α} {t : List (κ × α)} (h : Ascending t)
    (hg : get? k' (erase k t) = some a) : get? k' t = some a := by
  by_cases hk : k' = k
  · rw [hk, get?_erase_self h] at hg
    cases hg
  · rwa [get?_erase_ne hk] at hg

theorem get?_eq_none_of_gt {k : κ} {t : List (κ × α)} (h : ∀ e ∈ t, e.1 < k) : get? k t = none :=
  get?_eq_none fun e he hk => Std.lt_irrefl (hk ▸ h e he)

theorem get?_eq_some_iff {k : κ} {a : α} {t : List (κ × α)} (h : Ascending t) :
    get? k t = some a ↔ (k, a) ∈ t :=
  ⟨mem_of_get?, get?_of_mem h⟩

theorem erase_eq_filter {k : κ} {t : List (κ × α)} (h : Ascending t) :
    erase k t = t.filter fun e => e.1 ≠ k := by
  induction t with
  | nil => rfl
  | cons e rest ih =>
    obtain ⟨he, hrest⟩ := List.pairwise_cons.mp h
    rw [erase]
    split
    · next hk =>
      have hall : ∀ d ∈ rest, decide (d.1 ≠ k) = true := fun d hd =>
        decide_eq_true fun hdk => Std.lt_irrefl ((hdk.trans hk) ▸ he d hd)
      rw [List.filter_cons_of_neg (by simp [hk]), List.filter_eq_self.mpr hall]
    · next hk => simp [Ne.symm hk, ih hrest]

theorem insert_eq_self [Std.IsLinearOrder κ] [DecidableLT κ] {k : κ} {a : α} {t : List (κ × α)}
    (h : Ascending t) (hk : get? k t = some a) : insert k a t = t := by
  refine eq_of_get? (ascending_insert h) h fun k' => ?_
  rw [get?_insert]
  split
  · next hkk => rw [hkk, hk]
  · rfl

/-- An ascending table is determined by its entries. -/
theorem eq_of_mem_iff [Std.IsLinearOrder κ] {t u : List (κ × α)} (ht : Ascending t)
    (hu : Ascending u) (h : ∀ k a, (k, a) ∈ t ↔ (k, a) ∈ u) : t = u := by
  refine eq_of_get? ht hu fun k => Option.ext fun a => ?_
  rw [get?_eq_some_iff ht, get?_eq_some_iff hu, h]

/-- Where no key occurs twice it does not matter from which end a table is searched. -/
theorem get?_reverse [Std.IsPreorder κ] {t : List (κ × α)} (h : Ascending t) (k : κ) :
    get? k t.reverse = get? k t := by
  refine Option.ext fun a => ?_
  constructor
  · intro hget
    exact get?_of_mem h (List.mem_reverse.mp (mem_of_get? hget))
  · intro hget
    obtain ⟨before, after, rfl⟩ := List.append_of_mem (mem_of_get? hget)
    obtain ⟨-, hrest, -⟩ := List.pairwise_append.mp h
    have hafter := (List.pairwise_cons.mp hrest).1
    refine get?_reverse_eq_some_iff.mpr ⟨before, after, rfl, fun e he => ?_⟩
    exact Ne.symm (Std.ne_of_lt (hafter e he))

omit [DecidableEq κ] in
theorem nodup_keys {t : List (κ × α)} (h : Ascending t) : (t.map Prod.fst).Nodup :=
  List.pairwise_map.mpr (h.imp fun hlt => Std.ne_of_lt hlt)

/-- Where two keys are. -/
theorem exists_split_pair [Std.IsPreorder κ] {k k' : κ} {a a' : α} {t : List (κ × α)}
    (h : Ascending t) (ha : get? k t = some a) (ha' : get? k' t = some a') (hlt : k < k') :
    ∃ before between after, t = before ++ (k, a) :: (between ++ (k', a') :: after) ∧
      (∀ e ∈ before ++ between ++ after, e.1 ≠ k ∧ e.1 ≠ k') ∧
      ∀ e ∈ between, k < e.1 ∧ e.1 < k' := by
  obtain ⟨before, rest, rfl⟩ := List.append_of_mem (mem_of_get? ha)
  obtain ⟨-, hrest, hbefore⟩ := List.pairwise_append.mp h
  obtain ⟨hk, hrest⟩ := List.pairwise_cons.mp hrest
  have hmem : (k', a') ∈ rest := by
    rcases List.mem_append.mp (mem_of_get? ha') with hm | hm
    · exact absurd (Std.lt_trans hlt (hbefore _ hm _ List.mem_cons_self)) Std.lt_irrefl
    rcases List.mem_cons.mp hm with he | hm
    · exact absurd ((Prod.mk.inj he).1 ▸ hlt) Std.lt_irrefl
    · exact hm
  obtain ⟨between, after, rfl⟩ := List.append_of_mem hmem
  obtain ⟨-, hafter, hbetween⟩ := List.pairwise_append.mp hrest
  have hk' := (List.pairwise_cons.mp hafter).1
  refine ⟨before, between, after, rfl, fun e he => ?_, fun e he => ?_⟩
  · rw [List.append_assoc] at he
    rcases List.mem_append.mp he with hm | he
    · have hlt' := hbefore e hm _ List.mem_cons_self
      exact ⟨Std.ne_of_lt hlt', Std.ne_of_lt (Std.lt_trans hlt' hlt)⟩
    rcases List.mem_append.mp he with hm | hm
    · exact ⟨Ne.symm (Std.ne_of_lt (hk e (List.mem_append_left _ hm))),
        Std.ne_of_lt (hbetween e hm _ List.mem_cons_self)⟩
    · have hlt' := hk' e hm
      exact ⟨Ne.symm (Std.ne_of_lt (Std.lt_trans hlt hlt')), Ne.symm (Std.ne_of_lt hlt')⟩
  · exact ⟨hk e (List.mem_append_left _ he), hbetween e he _ List.mem_cons_self⟩

/-- What only the entry of one key contributes to. -/
theorem flatMap_eq_of_get? {k : κ} {a : α} {t : List (κ × α)} {f : κ × α → List β}
    (h : Ascending t) (ha : get? k t = some a) (hf : ∀ e ∈ t, e.1 ≠ k → f e = []) :
    t.flatMap f = f (k, a) := by
  induction t with
  | nil => cases ha
  | cons e rest ih =>
    obtain ⟨he, hrest⟩ := List.pairwise_cons.mp h
    have hfrest : ∀ d ∈ rest, d.1 ≠ k → f d = [] := fun d hd => hf d (List.mem_cons_of_mem _ hd)
    rw [List.flatMap_cons]
    rw [get?] at ha
    by_cases hk : k = e.1
    · rw [if_pos hk] at ha
      have hnil : rest.flatMap f = [] :=
        List.flatMap_eq_nil_iff.mpr fun d hd =>
          hfrest d hd fun hdk => Std.lt_irrefl ((hdk.trans hk) ▸ he d hd)
      rw [hnil, List.append_nil, hk, ← Option.some.inj ha]
    · rw [if_neg hk] at ha
      rw [hf e List.mem_cons_self (Ne.symm hk), List.nil_append, ih hrest ha hfrest]

/-- What either side has, if any of them has something. -/
def either? : Option α → Option β → Option (Option α × Option β)
  | none, none => none
  | x, y => some (x, y)

/-- What two tables with ascending keys have under each key. -/
def join [DecidableLT κ] :
    List (κ × α) → List (κ × β) → List (κ × Option α × Option β)
  | [], u => u.map fun (k, b) => (k, none, some b)
  | (k, a) :: rest, u =>
    ((u.takeWhile fun (k', _) => k' < k).map fun (k', b) => (k', none, some b)) ++
      match u.dropWhile fun (k', _) => k' < k with
      | [] => (k, some a, none) :: join rest []
      | (k', b) :: after =>
        if k' = k then (k, some a, some b) :: join rest after
        else (k, some a, none) :: join rest ((k', b) :: after)

variable [Std.IsLinearOrder κ] [DecidableLT κ]

omit [DecidableEq κ] in
theorem le_of_mem_dropWhile {k : κ} {t : List (κ × α)} (h : Ascending t) {e : κ × α}
    (he : e ∈ t.dropWhile fun (k', _) => k' < k) : k ≤ e.1 := by
  induction t with
  | nil => cases he
  | cons d rest ih =>
    obtain ⟨hd, hrest⟩ := List.pairwise_cons.mp h
    rw [List.dropWhile_cons] at he
    by_cases hlt : d.1 < k
    · rw [if_pos (decide_eq_true hlt)] at he
      exact ih hrest he
    · rw [if_neg fun hd => hlt (of_decide_eq_true hd)] at he
      have hkd : k ≤ d.1 := Std.not_lt.mp hlt
      rcases List.mem_cons.mp he with rfl | he
      · exact hkd
      · exact Std.le_trans hkd (Std.le_of_lt (hd e he))

/-- One step of a join: the second table is cut at the first key of the first one. -/
theorem join_cons (k : κ) (a : α) (rest : List (κ × α)) {u : List (κ × β)} (h : Ascending u) :
    ∃ before at? after, u = before ++ ((at?.toList.map fun b => (k, b)) ++ after) ∧
      Ascending after ∧ (∀ e ∈ before, e.1 < k) ∧ (∀ e ∈ after, k < e.1) ∧
      join ((k, a) :: rest) u = (before.map fun (k', b) => (k', none, some b)) ++
        (k, some a, at?) :: join rest after := by
  have hbefore : ∀ e ∈ u.takeWhile fun (k', _) => k' < k, e.1 < k := fun e he =>
    of_decide_eq_true (List.all_eq_true.mp List.all_takeWhile e he)
  have hge : ∀ e ∈ u.dropWhile fun (k', _) => k' < k, k ≤ e.1 := fun e he =>
    le_of_mem_dropWhile h he
  have hcut := (List.takeWhile_append_dropWhile (p := fun (k', _) => k' < k) (l := u)).symm
  have hasc : Ascending (u.dropWhile fun (k', _) => k' < k) :=
    List.Pairwise.sublist (List.dropWhile_sublist _) h
  -- whether the cut is in front of `k` itself, of a greater key, or at the end
  rw [join]
  split
  · next hd =>
    rw [hd] at hcut
    exact ⟨_, none, [], hcut, .nil, hbefore, (fun _ h => nomatch h), rfl⟩
  · next k' b after hd =>
    rw [hd] at hcut hge hasc
    obtain ⟨hafter, hasc'⟩ := List.pairwise_cons.mp hasc
    split
    · next hk =>
      cases hk
      exact ⟨_, some b, after, hcut, hasc', hbefore, hafter, rfl⟩
    · next hk =>
      have hlt : k < k' := Std.lt_of_le_of_ne (hge _ List.mem_cons_self) (Ne.symm hk)
      refine ⟨_, none, (k', b) :: after, hcut, hasc, hbefore, fun e he => ?_, rfl⟩
      rcases List.mem_cons.mp he with rfl | he
      · exact hlt
      · exact Std.lt_trans hlt (hafter e he)

theorem get?_join {t : List (κ × α)} {u : List (κ × β)} (ht : Ascending t) (hu : Ascending u)
    (k : κ) : get? k (join t u) = either? (get? k t) (get? k u) := by
  induction t generalizing u with
  | nil =>
    rw [join, get?_map (fun b => (none, some b))]
    cases get? k u <;> rfl
  | cons e rest ih =>
    obtain ⟨he, hrest⟩ := List.pairwise_cons.mp ht
    obtain ⟨before, at?, after, hcut, hasc, hbefore, hafter, hjoin⟩ := join_cons e.1 e.2 rest hu
    have hat : get? k (at?.toList.map fun b => (e.1, b)) = if k = e.1 then at? else none := by
      cases at? <;> simp [get?]
    rw [hjoin, hcut, get?_append, get?_append, get?_append, hat,
      get?_map (fun b => (none, some b)), get?, get?, ih hrest hasc]
    by_cases hk : k = e.1
    · rw [hk, get?_eq_none_of_gt hbefore, get?_eq_none_of_lt hafter]
      cases at? <;> simp [either?]
    · rw [if_neg hk, if_neg hk, if_neg hk, Option.none_or]
      by_cases hlt : k < e.1
      · have hrest : get? k rest = none :=
          get?_eq_none_of_lt fun d hd => Std.lt_trans hlt (he d hd)
        have hafter : get? k after = none :=
          get?_eq_none_of_lt fun d hd => Std.lt_trans hlt (hafter d hd)
        rw [hrest, hafter]
        cases get? k before <;> rfl
      · have hgt : e.1 < k := Std.lt_of_le_of_ne (Std.not_lt.mp hlt) (Ne.symm hk)
        have hbefore : get? k before = none :=
          get?_eq_none fun d hd hdk => Std.lt_irrefl (Std.lt_trans hgt (hdk ▸ hbefore d hd))
        rw [hbefore]
        rfl

theorem forall_mem_join {P : κ → Prop} {t : List (κ × α)} {u : List (κ × β)} (hu : Ascending u)
    (hpt : ∀ e ∈ t, P e.1) (hpu : ∀ e ∈ u, P e.1) : ∀ e ∈ join t u, P e.1 := by
  induction t generalizing u with
  | nil =>
    intro e he
    obtain ⟨d, hd, rfl⟩ := List.mem_map.mp he
    exact hpu d hd
  | cons a rest ih =>
    obtain ⟨ha, hrest⟩ := List.forall_mem_cons.mp hpt
    obtain ⟨before, at?, after, hcut, hasc, -, -, hjoin⟩ := join_cons a.1 a.2 rest hu
    rw [hcut] at hpu
    intro e he
    rw [hjoin] at he
    rcases List.mem_append.mp he with he | he
    · obtain ⟨d, hd, rfl⟩ := List.mem_map.mp he
      exact hpu d (List.mem_append_left _ hd)
    rcases List.mem_cons.mp he with rfl | he
    · exact ha
    · exact ih hasc hrest (fun d hd => hpu d (List.mem_append_right _ (List.mem_append_right _ hd)))
        e he

theorem ascending_join {t : List (κ × α)} {u : List (κ × β)} (ht : Ascending t)
    (hu : Ascending u) : Ascending (join t u) := by
  induction t generalizing u with
  | nil => exact ascending_map (fun b => (none, some b)) hu
  | cons a rest ih =>
    obtain ⟨ha, hrest⟩ := List.pairwise_cons.mp ht
    obtain ⟨before, at?, after, hcut, hasc, hbefore, hafter, hjoin⟩ := join_cons a.1 a.2 rest hu
    rw [hcut] at hu
    have hasc' : Ascending before := (List.pairwise_append.mp hu).1
    have htail : ∀ e ∈ join rest after, a.1 < e.1 := forall_mem_join hasc ha hafter
    rw [hjoin]
    refine List.pairwise_append.mpr ⟨ascending_map (fun b => (none, some b)) hasc',
      List.pairwise_cons.mpr ⟨htail, ih hrest hasc⟩, fun d hd e he => ?_⟩
    obtain ⟨b, hb, rfl⟩ := List.mem_map.mp hd
    rcases List.mem_cons.mp he with rfl | he
    · exact hbefore b hb
    · exact Std.lt_trans (hbefore b hb) (htail e he)

theorem get?_of_mem_join {t : List (κ × α)} {u : List (κ × β)} (ht : Ascending t)
    (hu : Ascending u) {k : κ} {x : Option α} {y : Option β} (h : (k, x, y) ∈ join t u) :
    get? k t = x ∧ get? k u = y := by
  have hget := get?_of_mem (ascending_join ht hu) h
  rw [get?_join ht hu] at hget
  cases ha : get? k t <;> cases hb : get? k u <;> simp_all [either?]

end ConfigTree.Table
