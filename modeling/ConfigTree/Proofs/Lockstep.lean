import ConfigTree.Proofs.Queues
/-!
# Listeners that hear the same

Two listeners at one path that come and go together hear of the same changes, and an update tells
them one after the other. So in the middle of an update one of them may lag behind, by one delivery
(`Hub.InStep`). Nothing happens meanwhile if the first one feeds a queue and the other is right
behind it; otherwise what happens must not include another snapshot (`Undisturbed`), which both
would hear of before the second one hears of the first snapshot.
-/

namespace ConfigTree

variable {V C S N : Type}

/-- Whenever a snapshot is applied, both listeners are registered at the path, or neither is. -/
def Together (r : RegistryId) (path : Path) (id id' : ListenerId) (h : List (Entry V N)) : Prop :=
  ∀ before u tree changed after, h = before ++ .applied u tree changed :: after → u.registry = r →
    (Listed r path id before ↔ Listed r path id' before)

/-- Whenever a snapshot is applied, no earlier update has told the first listener and is still to
tell the second one. -/
def Undisturbed (r : RegistryId) (id id' : ListenerId) (h : List (Entry V N)) : Prop :=
  ∀ before v tree changed after, h = before ++ .applied v tree changed :: after →
    v.registry = r → ∀ u path d path' d', u.registry = r →
      .invoked u path id d ∈ before → .invoked u path' id' d' ∉ after

/-- Between telling one listener and telling the other, no snapshot is added. -/
theorem Undisturbed.snapshots_eq {r : RegistryId} {a b : ListenerId} {h h₁ h₂ H : List (Entry V N)}
    (hU : Undisturbed r a b H) {u : Update} (hu : u.registry = r) {path path' : Path}
    {d d' : Delivery V} (ha : .invoked u path a d ∈ h) (hg : h <+: h₁) (hg' : h₁ <+: h₂)
    (hb : h₂ ++ [.invoked u path' b d'] <+: H) : snapshots r h₁ = snapshots r h := by
  obtain ⟨piece, rfl⟩ := hg
  obtain ⟨piece', rfl⟩ := hg'
  obtain ⟨rest, rfl⟩ := hb
  have hnone : snapshots r piece = [] := by
    refine List.filterMap_eq_nil_iff.mpr fun e he => ?_
    cases e with
    | applied v tree changed =>
      refine if_neg fun hv => ?_
      obtain ⟨before, after, rfl⟩ := List.append_of_mem he
      have hsplit : h ++ (before ++ .applied v tree changed :: after) ++ piece' ++
          [.invoked u path' b d'] ++ rest = (h ++ before) ++ .applied v tree changed ::
            (after ++ (piece' ++ .invoked u path' b d' :: rest)) := by simp
      exact hU _ v tree changed _ hsplit hv u path d path' d' hu (List.mem_append_left _ ha)
        (by simp)
    | _ => rfl
  rw [snapshots_append, hnone, List.append_nil]

theorem Entry.delivery?_eq_none {e : Entry V N} (h : e.update? = none) (r : RegistryId)
    (id : ListenerId) : e.delivery? r id = none := by
  cases e with
  | invoked => cases h
  | _ => rfl

theorem deliveries_concat {r : RegistryId} {id : ListenerId} {e : Entry V N}
    (he : e.delivery? r id = none) (h : List (Entry V N)) :
    deliveries r id (h ++ [e]) = deliveries r id h := by
  simp [deliveries, he]

/-- What is added adds snapshots of the registry, or nothing that the listener hears. -/
structure Mute (r : RegistryId) (id : ListenerId) (h h' : List (Entry V N)) : Prop where
  grows : h <+: h'
  unheard : snapshots r h' = snapshots r h → deliveries r id h' = deliveries r id h

section Mute

variable {r : RegistryId} {id : ListenerId} {h h₁ h' : List (Entry V N)}

theorem mute_of_deliveries_eq (hg : h <+: h') (he : deliveries r id h' = deliveries r id h) :
    Mute r id h h' := ⟨hg, fun _ => he⟩

theorem Mute.trans (hm : Mute r id h h₁) (hm' : Mute r id h₁ h') : Mute r id h h' := by
  refine ⟨hm.grows.trans hm'.grows, fun he => ?_⟩
  have hle : (snapshots r h).Sublist (snapshots r h₁) := hm.grows.sublist.filterMap _
  have hle' : (snapshots r h₁).Sublist (snapshots r h') := hm'.grows.sublist.filterMap _
  have heq : snapshots r h₁ = snapshots r h := (he ▸ hle').antisymm hle
  rw [hm'.unheard (he.trans heq.symm), hm.unheard heq]

end Mute

namespace Hub

variable {s s₁ s' : Hub V C S N} {r : RegistryId} {id : ListenerId}

theorem Steps.deliveries_eq (h : Steps s s') (r : RegistryId) (id : ListenerId) :
    deliveries r id s'.history = deliveries r id s.history := by
  induction h with
  | refl => rfl
  | tail _ hstep ih =>
    rcases hstep.history_eq with he | ⟨e, he, hnone, -⟩
    · rw [he, ih]
    · rw [he, deliveries_concat (Entry.delivery?_eq_none hnone r id), ih]

theorem Steps.mute (h : Steps s s') : Mute r id s.history s'.history :=
  mute_of_deliveries_eq h.history_grows (h.deliveries_eq r id)

theorem deliveries_record (s : Hub V C S N) {e : Entry V N} (he : e.delivery? r id = none) :
    deliveries r id (s.record e).history = deliveries r id s.history := by
  rw [history_record, deliveries_concat he]

theorem mute_record (s : Hub V C S N) {e : Entry V N} (he : e.delivery? r id = none) :
    Mute r id s.history (s.record e).history :=
  mute_of_deliveries_eq (history_grows_record s e) (deliveries_record s he)

theorem deliveries_beginUpdate (s : Hub V C S N) (r' : RegistryId) (registry : Registry V C)
    (tree : Tree V) (r : RegistryId) (id : ListenerId) :
    deliveries r id (s.beginUpdate r' registry tree).history = deliveries r id s.history := by
  rw [history_beginUpdate, deliveries_concat rfl]

/-- A snapshot that is applied stays in the journal. -/
theorem snapshots_ne_of_beginUpdate {registry : Registry V C} {tree : Tree V}
    (hg : (s.beginUpdate r registry tree).history <+: s'.history) :
    snapshots r s'.history ≠ snapshots r s.history := by
  intro he
  have hle : (snapshots r (s.beginUpdate r registry tree).history).Sublist
      (snapshots r s'.history) := hg.sublist.filterMap _
  have happlied : snapshots r (s.beginUpdate r registry tree).history =
      snapshots r s.history ++ [tree] := by
    rw [history_beginUpdate]
    exact snapshots_concat_applied (u := s.nextUpdateOf r registry) rfl tree _ _
  have hlength := hle.length_le
  rw [happlied, he, List.length_append] at hlength
  exact absurd hlength (Nat.not_succ_le_self _)

/-- The task is not an update of the registry. -/
def Task.IsAside (r : RegistryId) : Task V C → Prop
  | .code => True
  | .calls u .. => u.registry ≠ r

/-- Listeners hear nothing as long as no snapshot is applied to their registry, unless an update
of it is under way. -/
theorem Runs.mute {task : Task V C} (h : Runs task s s') (ht : task.IsAside r) :
    Mute r id s.history s'.history := by
  have hother : ∀ {u : Update} (s : Hub V C S N) (path : Path) (id' : ListenerId) (d : Delivery V),
      u.registry ≠ r → Mute r id s.history (s.record (.invoked u path id' d)).history :=
    fun s path id' d hu => mute_record s (if_neg fun h => hu h.1)
  induction h with
  | stopped => exact mute_of_deliveries_eq (List.prefix_refl _) rfl
  | asked q _ ih => exact (perform_steps _ q).mute.trans (ih trivial)
  | @updated s s₁ s' r' registry tree tally _ hcalls h ihc ih =>
    have hbegun := history_grows_beginUpdate s r' registry tree
    have hcalled : s₁.history <+: s'.history :=
      (endUpdate_steps s₁).history_grows.trans h.history_grows
    by_cases hr : r' = r
    · have happlied := snapshots_ne_of_beginUpdate (hcalls.history_grows.trans hcalled)
      exact ⟨hbegun.trans (hcalls.history_grows.trans hcalled), fun he => absurd he (hr ▸ happlied)⟩
    · have hstart := mute_of_deliveries_eq hbegun (deliveries_beginUpdate s r' registry tree r id)
      exact hstart.trans ((ihc hr).trans ((endUpdate_steps s₁).mute.trans (ih trivial)))
  | finished => exact mute_of_deliveries_eq (List.prefix_refl _) rfl
  | announced _ ih => exact (mute_record (e := .reached ..) _ rfl).trans (ih ht)
  | fed _ _ ih => exact (hother _ _ _ _ ht).trans (history_push _ _ _ ▸ ih ht)
  | returned _ _ _ ihc ih => exact (hother _ _ _ _ ht).trans ((ihc trivial).trans (ih ht))
  | failed _ _ _ _ ihc ih =>
    exact (hother _ _ _ _ ht).trans ((ihc trivial).trans
      ((mute_record (e := .failed ..) _ rfl).trans (ih ht)))

/-- Every call that is ahead is made. -/
theorem Runs.invoked_of_mem {u : Update} {ahead : List (Call V C)} {tally : Tally} {path : Path}
    {d : Delivery V} {entry : ListenerId × Listener C} (h : Runs (.calls u ahead tally) s s')
    (hm : .invoke path d entry ∈ ahead) :
    ∃ h, s.history <+: h ∧ h ++ [.invoked u path entry.1 d] <+: s'.history := by
  generalize ht : Task.calls u ahead tally = task at h
  induction h generalizing ahead tally with
  | stopped => cases ht
  | asked => cases ht
  | updated => cases ht
  | finished =>
    cases ht
    cases hm
  | announced _ ih =>
    cases ht
    rcases List.mem_cons.mp hm with he | hm
    · cases he
    · obtain ⟨h, hg, hin⟩ := ih hm rfl
      exact ⟨h, (history_grows_record _ _).trans hg, hin⟩
  | @fed s s' u path d entry n ahead tally _ h ih =>
    cases ht
    rcases List.mem_cons.mp hm with he | hm
    · cases he
      refine ⟨s.history, List.prefix_refl _, ?_⟩
      rw [← history_record, ← history_push _ n d]
      exact h.history_grows
    · obtain ⟨h, hg, hin⟩ := ih hm rfl
      rw [history_push] at hg
      exact ⟨h, (history_grows_record _ _).trans hg, hin⟩
  | returned _ hc h ihc ih =>
    cases ht
    rcases List.mem_cons.mp hm with he | hm
    · cases he
      refine ⟨_, List.prefix_refl _, ?_⟩
      rw [← history_record]
      exact hc.history_grows.trans h.history_grows
    · obtain ⟨h, hg, hin⟩ := ih hm rfl
      exact ⟨h, (history_grows_record _ _).trans (hc.history_grows.trans hg), hin⟩
  | @failed s s₁ s' u path _ entry _ _ _ _ reason hc h ihc ih =>
    cases ht
    have hafter := hc.history_grows.trans
      (history_grows_record s₁ (.failed u path entry.1 reason))
    rcases List.mem_cons.mp hm with he | hm
    · cases he
      refine ⟨_, List.prefix_refl _, ?_⟩
      rw [← history_record]
      exact hafter.trans h.history_grows
    · obtain ⟨h, hg, hin⟩ := ih hm rfl
      exact ⟨h, (history_grows_record _ _).trans (hafter.trans hg), hin⟩

section Pair

variable {a b : ListenerId} {close : Prop}

/-- The calls that an update has ahead of it reach both listeners or neither, the first one first.
Between the two calls, the first listener has heard of one delivery more. If the two are close,
nothing is in between, and the first one feeds a queue. -/
inductive Coupled (r : RegistryId) (a b : ListenerId) (close : Prop) (u : Update) :
    List (Delivery V) → List (Call V C) → Prop
  | nil : Coupled r a b close u [] []
  | other {lag : List (Delivery V)} {c : Call V C} {ahead : List (Call V C)}
      (hc : ∀ path d entry, c = .invoke path d entry → u.registry = r →
        entry.1 ≠ a ∧ entry.1 ≠ b)
      (hlag : close → lag = []) (h : Coupled r a b close u lag ahead) :
      Coupled r a b close u lag (c :: ahead)
  | first {path : Path} {d : Delivery V} {entry : ListenerId × Listener C}
      {ahead : List (Call V C)} (hu : u.registry = r) (ha : entry.1 = a)
      (hfeed : close → ∃ n, entry.2.reaction = .feed n)
      (h : Coupled r a b close u [d] ahead) :
      Coupled r a b close u [] (.invoke path d entry :: ahead)
  | second {path : Path} {d : Delivery V} {entry : ListenerId × Listener C}
      {ahead : List (Call V C)} (hu : u.registry = r) (hb : entry.1 = b)
      (h : Coupled r a b close u [] ahead) :
      Coupled r a b close u [d] (.invoke path d entry :: ahead)

theorem Coupled.others {u : Update} {lag : List (Delivery V)} {group : Group C}
    (hout : ∀ e ∈ group, u.registry = r → e.1 ≠ a ∧ e.1 ≠ b)
    (hlag : group ≠ [] → close → lag = []) (path : Path) (d : Delivery V)
    {ahead : List (Call V C)} (h : Coupled r a b close u lag ahead) :
    Coupled r a b close u lag (group.map (.invoke path d) ++ ahead) := by
  induction group with
  | nil => exact h
  | cons e rest ih =>
    obtain ⟨hfirst, hrest⟩ := List.forall_mem_cons.mp hout
    have hnone := hlag (List.cons_ne_nil _ _)
    refine .other (fun path' d' entry hc => ?_) hnone (ih hrest fun _ => hnone)
    cases hc
    exact hfirst

/-- Who lags behind is still to be called. -/
theorem Coupled.mem {u : Update} {lag : List (Delivery V)} {ahead : List (Call V C)}
    (h : Coupled r a b close u lag ahead) (hlag : lag ≠ []) :
    u.registry = r ∧ ∃ path d entry, .invoke path d entry ∈ ahead ∧ entry.1 = b := by
  induction h with
  | nil => exact absurd rfl hlag
  | other _ _ _ ih =>
    obtain ⟨hu, path, d, entry, hm, hb⟩ := ih hlag
    exact ⟨hu, path, d, entry, List.mem_cons_of_mem _ hm, hb⟩
  | first => exact absurd rfl hlag
  | second hu hb => exact ⟨hu, _, _, _, List.mem_cons_self, hb⟩

/-- The calls to a group that includes both. -/
theorem Coupled.both {u : Update} (hu : u.registry = r) {before between after : Group C}
    {l l' : Listener C} (hout : ∀ e ∈ before ++ between ++ after, e.1 ≠ a ∧ e.1 ≠ b)
    (hnone : close → between = []) (hfeed : close → ∃ n, l.reaction = .feed n) (path : Path)
    (d : Delivery V) {ahead : List (Call V C)} (h : Coupled r a b close u [] ahead) :
    Coupled r a b close u []
      ((before ++ (a, l) :: (between ++ (b, l') :: after)).map (.invoke path d) ++ ahead) := by
  have hafter : Coupled r a b close u [] (after.map (.invoke path d) ++ ahead) :=
    h.others (fun e he _ => hout e (by simp [he])) (fun _ _ => rfl) path d
  have hsecond : Coupled r a b close u [d]
      (.invoke path d (b, l') :: (after.map (.invoke path d) ++ ahead)) := .second hu rfl hafter
  have hbetween : Coupled r a b close u [d] (between.map (.invoke path d) ++
      .invoke path d (b, l') :: (after.map (.invoke path d) ++ ahead)) :=
    hsecond.others (fun e he _ => hout e (by simp [he])) (fun hne hc => absurd (hnone hc) hne)
      path d
  have hfirst : Coupled r a b close u [] (.invoke path d (a, l) :: (between.map (.invoke path d) ++
      .invoke path d (b, l') :: (after.map (.invoke path d) ++ ahead))) :=
    .first hu rfl hfeed hbetween
  rw [List.map_append, List.map_cons, List.map_append, List.map_cons, List.append_assoc,
    List.cons_append, List.append_assoc, List.cons_append]
  exact hfirst.others (fun e he _ => hout e (by simp [he])) (fun _ _ => rfl) path d

/-- The calls to one group. -/
theorem Coupled.group {u : Update} {group : Group C} (hg : Table.Ascending group) (hlt : a < b)
    (hboth : u.registry = r →
      ((Table.get? a group).isSome ↔ (Table.get? b group).isSome))
    (hclose : close → u.registry = r → (Table.get? a group).isSome → ∀ e ∈ group,
      ¬ (a < e.1 ∧ e.1 < b) ∧ (e.1 = a → ∃ n, e.2.reaction = .feed n))
    (path : Path) (d : Delivery V) {ahead : List (Call V C)}
    (h : Coupled r a b close u [] ahead) :
    Coupled r a b close u [] (group.map (.invoke path d) ++ ahead) := by
  by_cases hin : u.registry = r ∧ (Table.get? a group).isSome
  · obtain ⟨hu, ha⟩ := hin
    obtain ⟨l, hl⟩ := Option.isSome_iff_exists.mp ha
    obtain ⟨l', hl'⟩ := Option.isSome_iff_exists.mp ((hboth hu).mp ha)
    obtain ⟨before, between, after, rfl, hout, hbetween⟩ :=
      Table.exists_split_pair hg hl hl' hlt
    refine .both hu hout (fun hc => ?_) (fun hc => ?_) path d h
    · refine List.eq_nil_iff_forall_not_mem.mpr fun e he => ?_
      exact (hclose hc hu ha e (by simp [he])).1 (hbetween e he)
    · exact (hclose hc hu ha (a, l) (by simp)).2 rfl
  · refine h.others (fun e he hu => ?_) (fun _ _ => rfl) path d
    have hget := Table.get?_of_mem hg he
    constructor
    · rintro rfl
      exact hin ⟨hu, Option.isSome_of_eq_some hget⟩
    · rintro rfl
      exact hin ⟨hu, (hboth hu).mpr (Option.isSome_of_eq_some hget)⟩

/-- Two listeners as they turn out to be at the end of a journal. They are close, or what happens
between calls to them includes no snapshot. -/
structure Paired (r : RegistryId) (path : Path) (a b : ListenerId) (close : Prop)
    (h : List (Entry V N)) : Prop where
  lt : a < b
  issuedOnce : IssuedOnce h
  registered : .registered r path a ∈ h
  registered' : .registered r path b ∈ h
  together : Together r path a b h
  between : close → ∀ x, .registered r path x ∈ h → ¬ (a < x ∧ x < b)
  undisturbed : ¬ close → Undisturbed r a b h

/-- Of two listeners that are close, the first one feeds a queue. -/
def FeedsFirst (r : RegistryId) (a : ListenerId) (close : Prop) (s : Hub V C S N) : Prop :=
  close → ∀ entry, s.Known r entry → entry.1 = a → ∃ n, entry.2.reaction = .feed n

theorem FeedsFirst.of_keeps (h : FeedsFirst r a close s') (hk : Keeps s s') :
    FeedsFirst r a close s := fun hc entry hknown => h hc entry (hk.2 r entry hknown)

variable {path : Path} {H : List (Entry V N)}

/-- When a snapshot is applied, the listeners at a path include both or none. -/
theorem Paired.coupled_group (hp : Paired r path a b close H) (hs : s.Streaming)
    (hf : FeedsFirst r a close s) {r' : RegistryId} {registry : Registry V C} {tree : Tree V}
    {changed : Nat} {after : List (Entry V N)} (hreg : s.registry? r' = some registry)
    (hH : H = s.history ++ .applied (s.nextUpdateOf r' registry) tree changed :: after)
    (path' : Path) (d : Delivery V) {ahead : List (Call V C)}
    (h : Coupled r a b close (s.nextUpdateOf r' registry) [] ahead) :
    Coupled r a b close (s.nextUpdateOf r' registry) []
      ((registry.group path').map (.invoke path' d) ++ ahead) := by
  have hr := hs.consistent.reflects r' registry hreg
  have hregistered : ∀ id, (Table.get? id (registry.group path')).isSome →
      .registered r' path' id ∈ H := fun id hsome =>
    hH ▸ List.mem_append_left _ ((hr.listed path' id).mp hsome).1
  refine .group (hr.group_ascending path') hp.lt (fun hu => ?_) (fun hc hu ha e he => ⟨?_, ?_⟩)
    path' d h
  · obtain rfl : r' = r := hu
    by_cases hpath : path' = path
    · rw [hpath, hr.listed, hr.listed]
      exact hp.together _ _ _ _ _ hH rfl
    · have ha : ¬ (Table.get? a (registry.group path')).isSome := fun hsome =>
        hpath (hp.issuedOnce.path_eq (hregistered a hsome) hp.registered)
      have hb : ¬ (Table.get? b (registry.group path')).isSome := fun hsome =>
        hpath (hp.issuedOnce.path_eq (hregistered b hsome) hp.registered')
      exact iff_of_false ha hb
  · obtain rfl : r' = r := hu
    have hpath : path' = path := hp.issuedOnce.path_eq (hregistered a ha) hp.registered
    refine hp.between hc e.1 (hpath ▸ hregistered e.1 ?_)
    exact Option.isSome_of_eq_some (Table.get?_of_mem (hr.group_ascending path') he)
  · obtain rfl : r' = r := hu
    exact hf hc e (hs.known r' registry path' e hreg he)

/-- Every update calls both listeners, one by one, or none of them. -/
theorem Paired.coupled (hp : Paired r path a b close H) (hs : s.Streaming)
    (hf : FeedsFirst r a close s) {r' : RegistryId} {registry : Registry V C} {tree : Tree V}
    (hreg : s.registry? r' = some registry) (hg : (s.beginUpdate r' registry tree).history <+: H) :
    Coupled r a b close (s.nextUpdateOf r' registry) [] (registry.calls tree) := by
  have hr := hs.consistent.reflects r' registry hreg
  rw [history_beginUpdate] at hg
  obtain ⟨after, hg⟩ := hg
  rw [List.append_assoc] at hg
  have hall : ∀ pending : List (Pending V C), (∀ p ∈ pending, p ∈ registry.pending tree) →
      Coupled r a b close (s.nextUpdateOf r' registry) [] (pending.flatMap Pending.calls) := by
    intro pending hpending
    induction pending with
    | nil => exact .nil
    | cons p rest ih =>
      obtain ⟨hfirst, hrest⟩ := List.forall_mem_cons.mp hpending
      rw [List.flatMap_cons, Pending.calls, hr.listeners_of_pending hfirst]
      exact .other (fun _ _ _ hc => by cases hc) (fun _ => rfl)
        (hp.coupled_group hs hf hreg hg.symm p.path p.delivery (ih hrest))
  exact hall _ fun _ hm => hm

/-- The first listener was told everything that the second one was told, and then the lag. -/
def InStep (r : RegistryId) (a b : ListenerId) (lag : List (Delivery V)) (s : Hub V C S N) : Prop :=
  deliveries r a s.history = deliveries r b s.history ++ lag

/-- While an update makes calls, who lags behind is one of those to be called. -/
structure Pacing (r : RegistryId) (a b : ListenerId) (close : Prop) (u : Update)
    (lag : List (Delivery V)) (ahead : List (Call V C)) (s : Hub V C S N) : Prop where
  coupled : Coupled r a b close u lag ahead
  inStep : InStep r a b lag s
  told : lag ≠ [] → ∃ path d, .invoked u path a d ∈ s.history

variable {u : Update} {lag : List (Delivery V)} {ahead : List (Call V C)}

theorem InStep.of_eq (h : InStep r a b lag s)
    (he : ∀ id, deliveries r id s'.history = deliveries r id s.history) :
    InStep r a b lag s' := by
  rw [InStep, he, he]
  exact h

theorem Pacing.of_eq (h : Pacing r a b close u lag ahead s) (hg : s.history <+: s'.history)
    (he : ∀ id, deliveries r id s'.history = deliveries r id s.history) :
    Pacing r a b close u lag ahead s' :=
  ⟨h.coupled, h.inStep.of_eq he, fun hlag =>
    (h.told hlag).imp fun _ ht => ht.imp fun _ hm => hg.subset hm⟩

/-- After a call the first listener may be ahead, by this call. -/
theorem Pacing.invoke {path : Path} {d : Delivery V} {entry : ListenerId × Listener C}
    (hne : a ≠ b) (h : Pacing r a b close u lag (.invoke path d entry :: ahead) s) :
    ∃ lag', Pacing r a b close u lag' ahead (s.record (.invoked u path entry.1 d)) ∧
      (lag' ≠ [] → close → ∃ n, entry.2.reaction = .feed n) := by
  have hdeliveries : ∀ id, deliveries r id (s.record (.invoked u path entry.1 d)).history =
      deliveries r id s.history ++ if u.registry = r ∧ entry.1 = id then [d] else [] := fun id => by
    rw [history_record, deliveries_concat_invoked]
  have hin := h.inStep
  rw [InStep] at hin
  cases h.coupled with
  | other hc hlag hrest =>
    have hsame : ∀ id, id = a ∨ id = b →
        deliveries r id (s.record (.invoked u path entry.1 d)).history =
          deliveries r id s.history := by
      intro id hid
      rw [hdeliveries, if_neg, List.append_nil]
      rintro ⟨hu, rfl⟩
      have hother := hc path d entry rfl hu
      exact hid.elim hother.1 hother.2
    refine ⟨lag, ⟨hrest, ?_, fun hl => ?_⟩, fun hl hc => absurd (hlag hc) hl⟩
    · rw [InStep, hsame a (.inl rfl), hsame b (.inr rfl), hin]
    · exact (h.told hl).imp fun _ ht => ht.imp fun _ hm => (history_grows_record s _).subset hm
  | first hu ha hfeed hrest =>
    refine ⟨[d], ⟨hrest, ?_, fun _ => ⟨path, d, ?_⟩⟩, fun _ => hfeed⟩
    · rw [InStep, hdeliveries, hdeliveries, if_pos ⟨hu, ha⟩,
        if_neg fun hb => hne (ha.symm.trans hb.2), hin, List.append_nil]
    · rw [history_record, ← ha]
      exact List.mem_append_right _ List.mem_cons_self
  | second hu hb hrest =>
    refine ⟨[], ⟨hrest, ?_, fun hl => absurd rfl hl⟩, fun hl => absurd rfl hl⟩
    rw [InStep, hdeliveries, hdeliveries, if_neg fun ha => hne (ha.2.symm.trans hb),
      if_pos ⟨hu, hb⟩, hin, List.append_nil]

/-- Callbacks leave the two in step, or one lagging behind by what it was before: the call to it is
still ahead, so that no snapshot can be applied before. -/
theorem Pacing.callback {entry : ListenerId × Listener C} {code : C} {tally : Tally}
    {s₂ : Hub V C S N} (h : Pacing r a b close u lag ahead s) (hp : Paired r path a b close H)
    (hcode : entry.2.reaction = .callback code)
    (hfeed : lag ≠ [] → close → ∃ n, entry.2.reaction = .feed n) (hrun : Runs .code s s₁)
    (hin : InStep r a b [] s → InStep r a b [] s₁) (hg : s₁.history <+: s₂.history)
    (hrest : Runs (.calls u ahead tally) s₂ s') (hH : s'.history <+: H) :
    Pacing r a b close u lag ahead s₁ := by
  by_cases hlag : lag = []
  · cases hlag
    exact ⟨h.coupled, hin h.inStep, fun hl => absurd rfl hl⟩
  · have hopen : ¬ close := fun hc => by
      obtain ⟨n, hn⟩ := hfeed hlag hc
      cases hcode.symm.trans hn
    obtain ⟨hu, path', d', entry', hm, rfl⟩ := h.coupled.mem hlag
    obtain ⟨path'', d'', htold⟩ := h.told hlag
    obtain ⟨h₂, hg', hb⟩ := hrest.invoked_of_mem hm
    have hnone := (hp.undisturbed hopen).snapshots_eq hu htold hrun.history_grows (hg.trans hg')
      (hb.trans hH)
    exact h.of_eq hrun.history_grows fun id => (hrun.mute trivial).unheard hnone

/-- What a run does to listeners that are in step: code leaves them so, and so does an update that
makes the calls that it has ahead of it. -/
def Task.Leads (r : RegistryId) (a b : ListenerId) (close : Prop) :
    Task V C → Hub V C S N → Hub V C S N → Prop
  | .code, s, s' => InStep r a b [] s → InStep r a b [] s'
  | .calls u ahead _, s, s' => ∀ lag, Pacing r a b close u lag ahead s → InStep r a b [] s'

theorem Runs.leads (hp : Paired r path a b close H) {task : Task V C} (h : Runs task s s')
    (hs : s.Streaming) (hk : task.Known s) (hH : s'.history <+: H) (hf : FeedsFirst r a close s') :
    task.Leads r a b close s s' := by
  have hne : a ≠ b := Nat.ne_of_lt hp.lt
  induction h with
  | stopped => exact id
  | @asked s s' q h ih =>
    have hsteps := perform_steps s q
    have hasked := (perform_acts s q).keeps hs
    exact fun hin => ih hasked.1 trivial hH hf (hin.of_eq fun id => hsteps.deliveries_eq r id)
  | @updated s s₁ s' r' registry tree tally hreg hcalls h ihc ih =>
    have hbegun := hs.beginUpdate hreg tree
    have hknown := hs.known_calls hreg tree tally
    have hcalled := hcalls.keeps hbegun.1 hknown
    have hended := hcalled.1.endUpdate
    have hf₁ : FeedsFirst r a close s₁ := hf.of_keeps (hended.trans (h.keeps hended.1 trivial))
    have hH₁ : s₁.history <+: H :=
      ((endUpdate_steps s₁).history_grows.trans h.history_grows).trans hH
    have hcoupled := hp.coupled hs (hf₁.of_keeps (hbegun.trans hcalled)) hreg
      (hcalls.history_grows.trans hH₁)
    intro hin
    have hstart : InStep r a b [] (s.beginUpdate r' registry tree) :=
      hin.of_eq fun id => deliveries_beginUpdate s r' registry tree r id
    have hdone := ihc hbegun.1 hknown hH₁ hf₁ [] ⟨hcoupled, hstart, fun hl => absurd rfl hl⟩
    exact ih hended.1 trivial hH hf
      (hdone.of_eq fun id => (endUpdate_steps s₁).deliveries_eq r id)
  | finished s u =>
    intro lag hpace
    cases hpace.coupled
    exact hpace.inStep
  | @announced s s' u path' isPresent ahead tally h ih =>
    intro lag hpace
    have hreached : Keeps s (s.record (.reached u path' isPresent)) :=
      hs.record ⟨fun _ _ => rfl, fun _ => rfl⟩ rfl
    refine ih hreached.1 (hk.of_keeps hreached) hH hf lag ?_
    cases hpace.coupled with
    | other _ _ hrest =>
      have hpace' : Pacing r a b close u lag ahead s := ⟨hrest, hpace.inStep, hpace.told⟩
      exact hpace'.of_eq (history_grows_record _ _) fun id => deliveries_record s rfl
  | @fed s s' u path' d entry n ahead tally hfeed h ih =>
    intro lag hpace
    obtain ⟨lag', hpace', -⟩ := hpace.invoke hne
    have hfed := hs.feed path' d (hk _ _ _ List.mem_cons_self) hfeed
    have hhistory := history_push (s.record (.invoked u path' entry.1 d)) n d
    refine ih hfed.1 (hk.of_keeps hfed) hH hf lag' (hpace'.of_eq ?_ fun id => by rw [hhistory])
    exact hhistory ▸ List.prefix_refl _
  | @returned s s₁ s' u path' d entry code ahead tally hcode hc h ihc ih =>
    intro lag hpace
    obtain ⟨lag', hpace', hfeed⟩ := hpace.invoke hne
    have hcalled := hs.call path' d (hk _ _ _ List.mem_cons_self) hcode
    have hran := hc.keeps hcalled.1 trivial
    have hk₁ : Task.Known (.calls u ahead tally) s₁ := hk.of_keeps (hcalled.trans hran)
    have hin := ihc hcalled.1 trivial (h.history_grows.trans hH) (hf.of_keeps (h.keeps hran.1 hk₁))
    exact ih hran.1 hk₁ hH hf lag'
      (hpace'.callback hp hcode hfeed hc hin (List.prefix_refl _) h hH)
  | @failed s s₁ s' u path' d entry code ahead tally hcode reason hc h ihc ih =>
    intro lag hpace
    obtain ⟨lag', hpace', hfeed⟩ := hpace.invoke hne
    have hcalled := hs.call path' d (hk _ _ _ List.mem_cons_self) hcode
    have hran := hc.keeps hcalled.1 trivial
    have hfailed : Keeps s₁ (s₁.record (.failed u path' entry.1 reason)) :=
      hran.1.record ⟨fun _ _ => rfl, fun _ => rfl⟩ rfl
    have hgrows := history_grows_record s₁ (.failed u path' entry.1 reason)
    have hk₁ : Task.Known (.calls u ahead tally) (s₁.record (.failed u path' entry.1 reason)) :=
      hk.of_keeps (hcalled.trans (hran.trans hfailed))
    have hin := ihc hcalled.1 trivial ((hgrows.trans h.history_grows).trans hH)
      (hf.of_keeps (hfailed.trans (h.keeps hfailed.1 hk₁)))
    have hreturned := hpace'.callback hp hcode hfeed hc hin hgrows h hH
    exact ih hfailed.1 hk₁ hH hf lag'
      (hreturned.of_eq hgrows fun id => deliveries_record s₁ rfl)

/-- Outside updates, both have heard the same. -/
theorem Reachable.inStep (hp : Paired r path a b close H) (hs : s.Reachable)
    (hd : s.dispatches = []) (hH : s.history <+: H) (hf : FeedsFirst r a close s) :
    InStep r a b [] s := by
  induction hs with
  | new ambient => rfl
  | ran hs h ih =>
    rw [h.dispatches_eq] at hd
    exact h.leads hp hs.streaming trivial hH hf
      (ih hd (h.history_grows.trans hH) (hf.of_keeps (h.keeps hs.streaming trivial)))
  | called _ _ _ _ h => exact nomatch h.dispatches_eq.symm.trans hd

end Pair

end Hub

end ConfigTree
