import ConfigTree.Proofs.Steps
import ConfigTree.Proofs.Tables
/-!
# Registries and the journal

A registry is what the journal says (`Registry.Reflects`): its snapshot is the last one applied to
it, and registered are those that were registered and not cancelled since. Numbers are issued once,
so that a registration is told by registry and number. All of it is kept by every step.
-/

namespace ConfigTree

namespace Entry

variable {V N : Type}

/-- The snapshot that the entry applies to a registry. -/
def snapshot? (r : RegistryId) : Entry V N → Option (Tree V)
  | applied u tree _ => if u.registry = r then some tree else none
  | _ => none

/-- The registration that the entry makes or ends. -/
def names? : Entry V N → Option (RegistryId × ListenerId)
  | registered r _ id => some (r, id)
  | cancelled r _ id => some (r, id)
  | _ => none

/-- The registry that the entry changes. -/
def alters? : Entry V N → Option RegistryId
  | registered r _ _ => some r
  | cancelled r _ _ => some r
  | applied u _ _ => some u.registry
  | _ => none

theorem alters?_of_names? {e : Entry V N} {r : RegistryId} {id : ListenerId}
    (h : e.names? = some (r, id)) : e.alters? = some r := by
  cases e with
  | registered r' path id' => cases h; rfl
  | cancelled r' path id' => cases h; rfl
  | _ => cases h

theorem snapshot?_eq_none {e : Entry V N} {r : RegistryId} (h : e.alters? ≠ some r) :
    e.snapshot? r = none := by
  cases e with
  | applied u tree changed => exact if_neg fun hu => h (congrArg some hu)
  | _ => rfl

end Entry

section Journal

variable {V N : Type}

/-- The snapshots applied to a registry. -/
def snapshots (r : RegistryId) (h : List (Entry V N)) : List (Tree V) :=
  h.filterMap (Entry.snapshot? r)

/-- The snapshot that was applied last. -/
def current? (r : RegistryId) (h : List (Entry V N)) : Option (Tree V) := (snapshots r h).getLast?

theorem snapshots_append (r : RegistryId) (h h' : List (Entry V N)) :
    snapshots r (h ++ h') = snapshots r h ++ snapshots r h' := List.filterMap_append

theorem snapshots_concat {r : RegistryId} {e : Entry V N} (he : e.snapshot? r = none)
    (h : List (Entry V N)) : snapshots r (h ++ [e]) = snapshots r h := by
  simp [snapshots, he]

theorem snapshots_concat_applied {r : RegistryId} {u : Update} (hu : u.registry = r)
    (tree : Tree V) (changed : Nat) (h : List (Entry V N)) :
    snapshots r (h ++ [.applied u tree changed]) = snapshots r h ++ [tree] := by
  simp [snapshots, Entry.snapshot?, hu]

theorem snapshots_eq_nil {r : RegistryId} {h : List (Entry V N)}
    (hr : ∀ e ∈ h, e.alters? ≠ some r) : snapshots r h = [] :=
  List.filterMap_eq_nil_iff.mpr fun e he => Entry.snapshot?_eq_none (hr e he)

theorem mem_append_iff_of_alters? {r : RegistryId} {h : List (Entry V N)} {e x : Entry V N}
    (he : e.alters? ≠ some r) (hx : x.alters? = some r) : x ∈ h ++ [e] ↔ x ∈ h := by
  rw [List.mem_append, List.mem_singleton]
  constructor
  · rintro (hm | rfl)
    · exact hm
    · exact absurd hx he
  · exact .inl

/-- The registration was made and not cancelled. -/
def Listed (r : RegistryId) (path : Path) (id : ListenerId) (h : List (Entry V N)) : Prop :=
  .registered r path id ∈ h ∧ .cancelled r path id ∉ h

/-- No registration is made under a number that is known already. -/
def IssuedOnce (h : List (Entry V N)) : Prop :=
  h.Pairwise fun e e' => ∀ r path id, e' = .registered r path id → e.names? ≠ some (r, id)

theorem listed_concat_iff {r : RegistryId} {path : Path} {id : ListenerId}
    {h : List (Entry V N)} {e : Entry V N} (he : e.alters? ≠ some r) :
    Listed r path id (h ++ [e]) ↔ Listed r path id h := by
  rw [Listed, Listed, mem_append_iff_of_alters? he rfl, mem_append_iff_of_alters? he rfl]

theorem listed_concat_applied {r : RegistryId} {path : Path} {id : ListenerId}
    {h : List (Entry V N)} {u : Update} {tree : Tree V} {changed : Nat} :
    Listed r path id (h ++ [.applied u tree changed]) ↔ Listed r path id h := by
  simp [Listed]

theorem listed_concat_registered {r : RegistryId} {path path' : Path} {id id' : ListenerId}
    {h : List (Entry V N)} (hnew : .cancelled r path id ∉ h) :
    Listed r path' id' (h ++ [.registered r path id]) ↔
      Listed r path' id' h ∨ path' = path ∧ id' = id := by
  simp only [Listed, List.mem_append, List.mem_singleton, Entry.registered.injEq, reduceCtorEq,
    or_false, true_and]
  constructor
  · rintro ⟨hm | hm, hc⟩
    · exact .inl ⟨hm, hc⟩
    · exact .inr hm
  · rintro (⟨hm, hc⟩ | ⟨rfl, rfl⟩)
    · exact ⟨.inl hm, hc⟩
    · exact ⟨.inr ⟨rfl, rfl⟩, hnew⟩

theorem listed_concat_cancelled {r : RegistryId} {path path' : Path} {id id' : ListenerId}
    {h : List (Entry V N)} :
    Listed r path' id' (h ++ [.cancelled r path id]) ↔
      Listed r path' id' h ∧ ¬ (path' = path ∧ id' = id) := by
  simp only [Listed, List.mem_append, List.mem_singleton, Entry.cancelled.injEq, reduceCtorEq,
    or_false, true_and, not_or, and_assoc]

theorem IssuedOnce.concat {h : List (Entry V N)} {e : Entry V N} (ho : IssuedOnce h)
    (he : ∀ r path id, e = .registered r path id → ∀ x ∈ h, x.names? ≠ some (r, id)) :
    IssuedOnce (h ++ [e]) := by
  refine List.pairwise_append.mpr ⟨ho, List.pairwise_singleton _ _, fun x hx y hy => ?_⟩
  rw [List.mem_singleton.mp hy]
  exact fun r path id heq => he r path id heq x hx

theorem IssuedOnce.before {h before after : List (Entry V N)} {r : RegistryId} {path : Path}
    {id : ListenerId} (ho : IssuedOnce h) (hs : h = before ++ .registered r path id :: after) :
    ∀ e ∈ before, e.names? ≠ some (r, id) := by
  intro e he
  rw [hs] at ho
  exact (List.pairwise_append.mp ho).2.2 e he _ List.mem_cons_self r path id rfl

/-- Cancellations come after the registration. -/
theorem IssuedOnce.cancelled_mem_iff {h before after : List (Entry V N)} {r : RegistryId}
    {path : Path} {id : ListenerId} (ho : IssuedOnce h)
    (hs : h = before ++ .registered r path id :: after) :
    .cancelled r path id ∈ h ↔ .cancelled r path id ∈ after := by
  rw [hs]
  constructor
  · intro hm
    rcases List.mem_append.mp hm with hb | ha
    · exact absurd rfl (ho.before hs _ hb)
    rcases List.mem_cons.mp ha with he | ha
    · cases he
    · exact ha
  · exact fun hm => List.mem_append_right _ (List.mem_cons_of_mem _ hm)

/-- A number is registered at one path. -/
theorem IssuedOnce.path_eq {h : List (Entry V N)} {r : RegistryId} {path path' : Path}
    {id : ListenerId} (ho : IssuedOnce h) (hm : .registered r path id ∈ h)
    (hm' : .registered r path' id ∈ h) : path = path' := by
  obtain ⟨before, after, hs⟩ := List.append_of_mem hm
  rw [hs] at hm'
  rcases List.mem_append.mp hm' with hb | ha
  · exact absurd rfl (ho.before hs _ hb)
  rcases List.mem_cons.mp ha with he | ha
  · cases he
    rfl
  · rw [hs] at ho
    have hafter := (List.pairwise_cons.mp (List.pairwise_append.mp ho).2.1).1
    exact absurd rfl (hafter _ ha r path' id rfl)

end Journal

namespace Registry

variable {V C N : Type}

/-- The registry of a number is what the journal says. -/
structure Reflects (registry : Registry V C) (r : RegistryId) (h : List (Entry V N)) : Prop where
  current : registry.current = current? r h
  issued : ∀ e ∈ h, ∀ id, e.names? = some (r, id) → id < registry.nextId
  ascending : Table.Ascending registry.watched
  groups : ∀ e ∈ registry.watched, e.2 ≠ [] ∧ Table.Ascending e.2
  listed : ∀ path id, (Table.get? id (registry.group path)).isSome ↔ Listed r path id h

variable {registry : Registry V C} {r : RegistryId} {h : List (Entry V N)}

theorem Reflects.group_ascending (hr : registry.Reflects r h) (path : Path) :
    Table.Ascending (registry.group path) := by
  rw [group]
  cases hg : Table.get? path registry.watched with
  | none => exact .nil
  | some g => exact (hr.groups _ (Table.mem_of_get? hg)).2

theorem Reflects.group_eq (hr : registry.Reflects r h) {e : Path × Group C}
    (he : e ∈ registry.watched) : registry.group e.1 = e.2 := by
  rw [group, Table.get?_of_mem hr.ascending he]
  rfl

theorem Reflects.listed_of_mem (hr : registry.Reflects r h) {e : Path × Group C}
    (he : e ∈ registry.watched) {entry : ListenerId × Listener C} (hm : entry ∈ e.2) :
    Listed r e.1 entry.1 h := by
  refine (hr.listed e.1 entry.1).mp ?_
  rw [hr.group_eq he, Table.get?_of_mem (hr.groups e he).2 hm]
  rfl

theorem Reflects.lt_nextId (hr : registry.Reflects r h) {path : Path} {id : ListenerId}
    {l : Listener C} (hm : (id, l) ∈ registry.group path) : id < registry.nextId := by
  have hsome : (Table.get? id (registry.group path)).isSome := by
    rw [Table.get?_of_mem (hr.group_ascending path) hm]
    rfl
  exact hr.issued _ ((hr.listed path id).mp hsome).1 id rfl

theorem reflects_new (settings : Settings) (hr : ∀ e ∈ h, e.alters? ≠ some r) :
    (new settings : Registry V C).Reflects r h where
  current := by rw [current?, snapshots_eq_nil hr]; rfl
  issued e he id hn := absurd (Entry.alters?_of_names? hn) (hr e he)
  ascending := .nil
  groups _ he := nomatch he
  listed path id := by
    constructor
    · intro hs
      cases hs
    · rintro ⟨hm, -⟩
      exact absurd rfl (hr _ hm)

/-- An entry about something else changes nothing. -/
theorem Reflects.frame (hr : registry.Reflects r h) {e : Entry V N} (he : e.alters? ≠ some r) :
    registry.Reflects r (h ++ [e]) where
  current := by
    rw [hr.current, current?, current?, snapshots_concat (Entry.snapshot?_eq_none he)]
  issued x hx id hn := by
    have hx' := (mem_append_iff_of_alters? he (Entry.alters?_of_names? hn)).mp hx
    exact hr.issued x hx' id hn
  ascending := hr.ascending
  groups := hr.groups
  listed path id := by
    rw [listed_concat_iff he]
    exact hr.listed path id

/-- The number of handles is not in the journal. -/
theorem Reflects.handles (hr : registry.Reflects r h) (handles : Nat) :
    { registry with handles }.Reflects r h :=
  ⟨hr.current, hr.issued, hr.ascending, hr.groups, hr.listed⟩

theorem Reflects.apply (hr : registry.Reflects r h) {u : Update} (hu : u.registry = r)
    (tree : Tree V) (changed : Nat) :
    { registry with current := some tree }.Reflects r (h ++ [Entry.applied u tree changed]) where
  current := by rw [current?, snapshots_concat_applied hu, List.getLast?_concat]
  issued e he id hn := by
    rcases List.mem_append.mp he with he | he
    · exact hr.issued e he id hn
    · rw [List.mem_singleton.mp he] at hn
      cases hn
  ascending := hr.ascending
  groups := hr.groups
  listed path id := by
    rw [listed_concat_applied]
    exact hr.listed path id

theorem group_listen (registry : Registry V C) (path path' : Path) (l : Listener C) :
    (registry.listen path l).group path' =
      if path' = path then registry.group path ++ [(registry.nextId, l)]
      else registry.group path' := by
  rw [group, listen, Table.get?_insert]
  split
  · rfl
  · rfl

theorem Reflects.listen (hr : registry.Reflects r h) (path : Path) (l : Listener C) :
    (registry.listen path l).Reflects r (h ++ [.registered r path registry.nextId]) where
  current := by
    rw [current?, snapshots_concat rfl]
    exact hr.current
  issued e he id hn := by
    rcases List.mem_append.mp he with he | he
    · exact Nat.lt_succ_of_lt (hr.issued e he id hn)
    · rw [List.mem_singleton.mp he] at hn
      cases hn
      exact Nat.lt_succ_self _
  ascending := Table.ascending_insert hr.ascending
  groups e he := by
    rcases Table.mem_insert he with rfl | he
    · refine ⟨List.append_ne_nil_of_right_ne_nil _ (List.cons_ne_nil _ _), ?_⟩
      refine List.pairwise_append.mpr
        ⟨hr.group_ascending path, List.pairwise_singleton _ _, fun x hx y hy => ?_⟩
      rw [List.mem_singleton.mp hy]
      exact hr.lt_nextId hx
    · exact hr.groups e he
  listed path' id := by
    have hnew : .cancelled r path registry.nextId ∉ h := fun hm =>
      absurd (hr.issued _ hm _ rfl) (Nat.lt_irrefl _)
    rw [group_listen, listed_concat_registered hnew, ← hr.listed path' id]
    by_cases hpath : path' = path
    · cases hpath
      rw [if_pos rfl, Table.get?_append]
      by_cases hid : id = registry.nextId
      · simp [Table.get?, hid]
      · simp [Table.get?, hid]
    · simp [hpath]

theorem group_cancel {registry left : Registry V C} {path : Path} {id : ListenerId}
    {l : Listener C} (ha : Table.Ascending registry.watched)
    (hc : registry.cancel path id = (some l, left)) (path' : Path) :
    left.group path' =
      if path' = path then Table.erase id (registry.group path) else registry.group path' := by
  rw [cancel] at hc
  obtain ⟨-, rfl⟩ := Prod.mk.inj hc
  rw [group]
  dsimp only
  split
  · next hempty =>
    split
    · next hpath =>
      rw [hpath, Table.get?_erase_self ha, List.isEmpty_iff.mp hempty]
      rfl
    · next hpath => rw [Table.get?_erase_ne hpath, ← group]
  · next hempty =>
    rw [Table.get?_insert]
    split
    · rfl
    · rfl

theorem Reflects.cancel (hr : registry.Reflects r h) {left : Registry V C} {path : Path}
    {id : ListenerId} {l : Listener C} (hc : registry.cancel path id = (some l, left)) :
    left.Reflects r (h ++ [.cancelled r path id]) := by
  have hgroup := group_cancel hr.ascending hc
  rw [Registry.cancel] at hc
  obtain ⟨hl, rfl⟩ := Prod.mk.inj hc
  have hknown := (hr.listed path id).mp (Option.isSome_of_eq_some hl)
  refine ⟨?_, ?_, ?_, ?_, ?_⟩
  · rw [current?, snapshots_concat rfl]
    exact hr.current
  · intro e he id' hn
    rcases List.mem_append.mp he with he | he
    · exact hr.issued e he id' hn
    · rw [List.mem_singleton.mp he] at hn
      cases hn
      exact hr.issued _ hknown.1 id rfl
  · dsimp only
    split
    · exact Table.ascending_erase hr.ascending
    · exact Table.ascending_insert hr.ascending
  · dsimp only
    intro e he
    split at he
    · exact hr.groups e ((Table.erase_sublist _ _).subset he)
    · next hempty =>
      rcases Table.mem_insert he with rfl | he
      · exact ⟨fun hnil => hempty (List.isEmpty_iff.mpr hnil),
          Table.ascending_erase (hr.group_ascending path)⟩
      · exact hr.groups e he
  · intro path' id'
    rw [hgroup, listed_concat_cancelled, ← hr.listed path' id']
    by_cases hpath : path' = path
    · cases hpath
      rw [if_pos rfl]
      by_cases hid : id' = id
      · cases hid
        rw [Table.get?_erase_self (hr.group_ascending path)]
        simp
      · rw [Table.get?_erase_ne hid]
        simp [hid]
    · simp [hpath]

end Registry

namespace Hub

variable {V C S N : Type}

/-- What happened, the earliest first. -/
def history (s : Hub V C S N) : List (Entry V N) := s.journal.reverse

theorem history_record (s : Hub V C S N) (e : Entry V N) :
    (s.record e).history = s.history ++ [e] := List.reverse_cons

/-- The registries are what the journal says. -/
structure Consistent (s : Hub V C S N) : Prop where
  ascending : Table.Ascending s.registries
  numbered : ∀ r registry, s.registry? r = some registry → r < s.nextRegistry
  opened : ∀ e ∈ s.history, ∀ r, e.alters? = some r → r < s.nextRegistry
  issuedOnce : IssuedOnce s.history
  reflects : ∀ r registry, s.registry? r = some registry → registry.Reflects r s.history

theorem consistent_new (ambient : S) : (new ambient : Hub V C S N).Consistent where
  ascending := .nil
  numbered _ _ h := nomatch h
  opened _ h := nomatch h
  issuedOnce := .nil
  reflects _ _ h := nomatch h

variable {s s' : Hub V C S N}

/-- Only registries and journal matter. -/
theorem Consistent.congr (h : s.Consistent) (hr : s'.registries = s.registries)
    (hn : s'.nextRegistry = s.nextRegistry) (hj : s'.history = s.history) : s'.Consistent where
  ascending := hr ▸ h.ascending
  numbered r registry hreg := by
    have hold : s.registry? r = some registry := (congrArg (Table.get? r) hr).symm.trans hreg
    exact hn ▸ h.numbered r registry hold
  opened := by
    rw [hn, hj]
    exact h.opened
  issuedOnce := hj ▸ h.issuedOnce
  reflects r registry hreg := by
    have hold : s.registry? r = some registry := (congrArg (Table.get? r) hr).symm.trans hreg
    exact hj ▸ h.reflects r registry hold

theorem registry?_setRegistry (s : Hub V C S N) (r r' : RegistryId) (registry : Registry V C) :
    registry? (s.setRegistry r registry) r' = if r' = r then some registry else s.registry? r' :=
  Table.get?_insert r r' registry s.registries

theorem registry?_record (s : Hub V C S N) (e : Entry V N) (r : RegistryId) :
    registry? (s.record e) r = s.registry? r := rfl

/-- One registry changes, and the journal tells how. -/
theorem Consistent.alter (h : s.Consistent) {r : RegistryId} {registry registry' : Registry V C}
    {e : Entry V N} (hreg : s.registry? r = some registry) (he : e.alters? = some r)
    (hnew : registry'.Reflects r (s.history ++ [e]))
    (hfresh : ∀ path id, e = .registered r path id → ∀ x ∈ s.history, x.names? ≠ some (r, id)) :
    ((s.setRegistry r registry').record e).Consistent := by
  have hlt := h.numbered r registry hreg
  refine ⟨Table.ascending_insert h.ascending, ?_, ?_, ?_, ?_⟩
  · intro r' x hx
    rw [registry?_record, registry?_setRegistry] at hx
    split at hx
    · next hr => exact hr ▸ hlt
    · exact h.numbered r' x hx
  · intro x hx r' ha
    rw [history_record] at hx
    rcases List.mem_append.mp hx with hx | hx
    · exact h.opened x hx r' ha
    · rw [List.mem_singleton.mp hx, he] at ha
      cases ha
      exact hlt
  · rw [history_record]
    refine h.issuedOnce.concat fun r' path id heq => ?_
    rw [heq] at he
    cases he
    exact hfresh path id heq
  · intro r' x hx
    rw [history_record]
    rw [registry?_record, registry?_setRegistry] at hx
    split at hx
    · next hr =>
      cases hx
      cases hr
      exact hnew
    · next hr =>
      refine (h.reflects r' x hx).frame fun ha => hr ?_
      exact Option.some.inj (ha.symm.trans he)

/-- Entries that change no registry. -/
theorem Consistent.record (h : s.Consistent) {e : Entry V N} (he : e.alters? = none) :
    (s.record e).Consistent := by
  refine ⟨h.ascending, h.numbered, ?_, ?_, ?_⟩
  · intro x hx r ha
    rw [history_record] at hx
    rcases List.mem_append.mp hx with hx | hx
    · exact h.opened x hx r ha
    · rw [List.mem_singleton.mp hx, he] at ha
      cases ha
  · rw [history_record]
    refine h.issuedOnce.concat fun r path id heq => ?_
    rw [heq] at he
    cases he
  · intro r registry hreg
    rw [history_record]
    refine (h.reflects r registry hreg).frame ?_
    rw [he]
    exact fun hn => nomatch hn

theorem Consistent.openRegistry (h : s.Consistent) (settings : Settings) :
    (s.openRegistry settings).2.Consistent := by
  have hnone : ∀ e ∈ s.history, e.alters? ≠ some s.nextRegistry := fun e he ha =>
    Nat.lt_irrefl _ (h.opened e he _ ha)
  refine ⟨Table.ascending_insert h.ascending, ?_, ?_, h.issuedOnce, ?_⟩
  · intro r registry hreg
    have hget := (registry?_setRegistry s s.nextRegistry r (.new settings)).symm.trans hreg
    split at hget
    · next hr => exact hr ▸ Nat.lt_succ_self _
    · exact Nat.lt_succ_of_lt (h.numbered r registry hget)
  · intro e he r ha
    exact Nat.lt_succ_of_lt (h.opened e he r ha)
  · intro r registry hreg
    have hget := (registry?_setRegistry s s.nextRegistry r (.new settings)).symm.trans hreg
    split at hget
    · next hr =>
      cases hget
      exact hr ▸ Registry.reflects_new settings hnone
    · exact h.reflects r registry hget

theorem Consistent.setHandles (h : s.Consistent) {r : RegistryId} {registry : Registry V C}
    (hreg : s.registry? r = some registry) (handles : Nat) :
    (s.setRegistry r { registry with handles }).Consistent := by
  refine ⟨Table.ascending_insert h.ascending, ?_, h.opened, h.issuedOnce, ?_⟩
  · intro r' x hx
    rw [registry?_setRegistry] at hx
    split at hx
    · next hr => exact hr ▸ h.numbered r registry hreg
    · exact h.numbered r' x hx
  · intro r' x hx
    rw [registry?_setRegistry] at hx
    split at hx
    · next hr =>
      cases hx
      exact hr ▸ (h.reflects r registry hreg).handles handles
    · exact h.reflects r' x hx

theorem Consistent.endRegistry (h : s.Consistent) (r : RegistryId) :
    ({ s with registries := Table.erase r s.registries } : Hub V C S N).Consistent := by
  have hkept : ∀ r' registry, Table.get? r' (Table.erase r s.registries) = some registry →
      s.registry? r' = some registry := fun _ _ => Table.get?_of_erase h.ascending
  exact ⟨Table.ascending_erase h.ascending, fun r' x hx => h.numbered r' x (hkept r' x hx),
    h.opened, h.issuedOnce, fun r' x hx => h.reflects r' x (hkept r' x hx)⟩

/-- Every step keeps registries and journal in agreement. -/
theorem Consistent.step (h : s.Consistent) (hstep : Step s s') : s'.Consistent := by
  cases hstep with
  | opened settings => exact h.openRegistry settings
  | handled hreg handles => exact h.setHandles hreg handles
  | ended r => exact h.endRegistry r
  | @registered r registry hreg path l =>
    have hr := h.reflects r registry hreg
    refine h.alter hreg rfl (hr.listen path l) fun path' id heq e he hn => ?_
    cases heq
    exact Nat.lt_irrefl _ (hr.issued e he _ hn)
  | cancelled hreg hc =>
    exact h.alter hreg rfl ((h.reflects _ _ hreg).cancel hc) fun _ _ heq => nomatch heq
  | subscribed r path id => exact h.congr rfl rfl rfl
  | closed subscription => exact h.congr rfl rfl rfl
  | @taken subscription _ d _ hsub hq =>
    exact (h.record (e := .taken subscription d) rfl).congr rfl rfl rfl
  | dispatched hd => exact h.congr rfl rfl rfl
  | detached name path id => exact h.record rfl
  | noted n => exact h.record rfl
  | ambient a => exact h.congr rfl rfl rfl

theorem Consistent.beginUpdate (h : s.Consistent) {r : RegistryId} {registry : Registry V C}
    (hreg : s.registry? r = some registry) (tree : Tree V) :
    (s.beginUpdate r registry tree).Consistent := by
  have happlied := (h.reflects r registry hreg).apply (u := s.nextUpdateOf r registry) rfl tree
    (registry.pending tree).length
  exact (h.alter hreg rfl happlied fun _ _ heq => nomatch heq).congr rfl rfl rfl

theorem Consistent.steps (h : s.Consistent) (hsteps : Steps s s') : s'.Consistent := by
  induction hsteps with
  | refl => exact h
  | tail _ hstep ih => exact ih.step hstep

end Hub

end ConfigTree
