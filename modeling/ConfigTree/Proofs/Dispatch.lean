import ConfigTree.Proofs.Reachable
import ConfigTree.Proofs.Traces
import Mathlib.Data.List.Sort
/-!
# What one update does, whatever its listeners do

The journal tells an update's own deliveries by its number. They are fixed by what the journal says
when it begins: who is registered where, and which snapshot it replaces (`Performed`). Whatever
callbacks do meanwhile is part of updates that begin later, and each of these is over before the
one that it interrupts goes on (`Nested`). What a run adds to the journal (`Hub.Extends`) is put
together from what its parts add.
-/

namespace ConfigTree

variable {V C S N : Type}

namespace Entry

/-- The delivery that the entry makes for an update. -/
def invocation? (u : Update) : Entry V N → Option (Path × ListenerId × Delivery V)
  | invoked u' path id d => if u' = u then some (path, id, d) else none
  | _ => none

/-- The listener that fails in the entry, when it is invoked for an update. -/
def failure? (u : Update) : Entry V N → Option (Path × ListenerId)
  | failed u' path id _ => if u' = u then some (path, id) else none
  | _ => none

/-- The listener that the entry registers at a path. -/
def listener? (r : RegistryId) (path : Path) : Entry V N → Option ListenerId
  | registered r' path' id => if r' = r ∧ path' = path then some id else none
  | _ => none

theorem invocation?_eq_none {u : Update} {e : Entry V N} (h : e.update? ≠ some u) :
    e.invocation? u = none := by
  cases e with
  | invoked u' path id d => exact if_neg fun hu => h (congrArg some hu)
  | _ => rfl

theorem failure?_eq_none {u : Update} {e : Entry V N} (h : e.update? ≠ some u) :
    e.failure? u = none := by
  cases e with
  | failed u' path id text => exact if_neg fun hu => h (congrArg some hu)
  | _ => rfl

theorem listener?_eq_some {r : RegistryId} {path : Path} {id : ListenerId} {e : Entry V N} :
    e.listener? r path = some id ↔ e = .registered r path id := by
  cases e <;> simp [listener?, and_assoc]

end Entry

/-- The deliveries of an update, in order. -/
def invocations (u : Update) (h : List (Entry V N)) : List (Path × ListenerId × Delivery V) :=
  h.filterMap (Entry.invocation? u)

/-- The listeners that failed in an update, in order. -/
def failures (u : Update) (h : List (Entry V N)) : List (Path × ListenerId) :=
  h.filterMap (Entry.failure? u)

/-- The listeners that are registered at a path, in the order of their registration. -/
def listeners (r : RegistryId) (path : Path) (h : List (Entry V N)) : List ListenerId :=
  (h.filterMap (Entry.listener? r path)).filter fun id =>
    h.all fun e => !e.isCancellation r path id

theorem mem_listeners {r : RegistryId} {path : Path} {id : ListenerId} {h : List (Entry V N)} :
    id ∈ listeners r path h ↔ Listed r path id h := by
  rw [listeners, List.mem_filter, all_not_isCancellation_iff, Listed, List.mem_filterMap]
  simp only [Entry.listener?_eq_some, exists_eq_right]

theorem InOrder.listeners_pairwise {h : List (Entry V N)} (ho : InOrder h) (r : RegistryId)
    (path : Path) : (listeners r path h).Pairwise (· < ·) := by
  refine List.Pairwise.filter _ (List.pairwise_filterMap.mpr (ho.imp ?_))
  intro e e' hlt id he id' he'
  exact hlt r path id path id' (Entry.listener?_eq_some.mp he) (Entry.listener?_eq_some.mp he')

theorem invocations_eq_nil {u : Update} {h : List (Entry V N)}
    (hu : ∀ e ∈ h, e.update? ≠ some u) : invocations u h = [] :=
  List.filterMap_eq_nil_iff.mpr fun e he => Entry.invocation?_eq_none (hu e he)

theorem failures_eq_nil {u : Update} {h : List (Entry V N)}
    (hu : ∀ e ∈ h, e.update? ≠ some u) : failures u h = [] :=
  List.filterMap_eq_nil_iff.mpr fun e he => Entry.failure?_eq_none (hu e he)

theorem invocations_append (u : Update) (h h' : List (Entry V N)) :
    invocations u (h ++ h') = invocations u h ++ invocations u h' := List.filterMap_append

theorem failures_append (u : Update) (h h' : List (Entry V N)) :
    failures u (h ++ h') = failures u h ++ failures u h' := List.filterMap_append

/-- What was added to the journal during an update that began after `h`. The paths are those that
are watched and at which the snapshot has another hash than the one before. Every listener
registered there is invoked once, in the order of paths and of registration, and all those at one
path with the new state of the subtree. Some of them fail, each once at most. -/
structure Performed (h : List (Entry V N)) (u : Update) (tree : Tree V) (paths : List Path)
    (during : List (Entry V N)) : Prop where
  ascending : paths.Pairwise (· < ·)
  mem_iff : ∀ path, path ∈ paths ↔ listeners u.registry path h ≠ [] ∧
    (current? u.registry h).bind (Tree.hash? · path) ≠ tree.hash? path
  invoked : invocations u during = paths.flatMap fun path =>
    (listeners u.registry path h).map fun id => (path, id, Delivery.ofSubtree? (tree.subtree? path))
  failed : (failures u during).Sublist ((invocations u during).map fun (path, id, _) => (path, id))

/-- Every update that began in a piece of the journal did what it has to do before anything else
went on: what comes after its beginning starts with what it did, itself or in updates that began
later, and nothing else in the piece is part of it. -/
def Nested (h piece : List (Entry V N)) : Prop :=
  ∀ before u tree changed after, piece = before ++ .applied u tree changed :: after →
    ∃ paths during rest, after = during ++ rest ∧ changed = paths.length ∧
      Performed (h ++ before) u tree paths during ∧
      (∀ e ∈ during, ∀ v, e.update? = some v → u.number ≤ v.number) ∧
      ∀ e ∈ before ++ rest, e.update? ≠ some u

/-- Two pieces that share no update, one after the other. -/
theorem Nested.append {h p q : List (Entry V N)} (hp : Nested h p) (hq : Nested (h ++ p) q)
    (hpq : ∀ u tree changed, .applied u tree changed ∈ p → ∀ e ∈ q, e.update? ≠ some u)
    (hqp : ∀ u tree changed, .applied u tree changed ∈ q → ∀ e ∈ p, e.update? ≠ some u) :
    Nested h (p ++ q) := by
  intro before u tree changed after hs
  have hfirst : ∀ after', p = before ++ .applied u tree changed :: after' → after = after' ++ q →
      ∃ paths during rest, after = during ++ rest ∧ changed = paths.length ∧
        Performed (h ++ before) u tree paths during ∧
        (∀ e ∈ during, ∀ v, e.update? = some v → u.number ≤ v.number) ∧
        ∀ e ∈ before ++ rest, e.update? ≠ some u := by
    rintro after' hsplit rfl
    obtain ⟨paths, during, rest, rfl, hc, hperf, hlater, hother⟩ := hp _ _ _ _ _ hsplit
    have hmem : .applied u tree changed ∈ p := by
      rw [hsplit]
      exact List.mem_append_right _ List.mem_cons_self
    refine ⟨paths, during, rest ++ q, List.append_assoc .., hc, hperf, hlater, fun e he => ?_⟩
    rw [← List.append_assoc] at he
    rcases List.mem_append.mp he with he | he
    · exact hother e he
    · exact hpq u tree changed hmem e he
  rcases List.append_eq_append_iff.mp hs with ⟨before', rfl, hsplit⟩ | ⟨after', hsplit, hafter⟩
  · obtain ⟨paths, during, rest, rfl, hc, hperf, hlater, hother⟩ := hq _ _ _ _ _ hsplit
    have hmem : .applied u tree changed ∈ q := by
      rw [hsplit]
      exact List.mem_append_right _ List.mem_cons_self
    rw [← List.append_assoc]
    refine ⟨paths, during, rest, rfl, hc, hperf, hlater, fun e he => ?_⟩
    rw [List.append_assoc] at he
    rcases List.mem_append.mp he with he | he
    · exact hqp u tree changed hmem e he
    · exact hother e he
  · cases after' with
    | nil =>
      -- the cut is where the second piece begins
      rw [List.append_nil] at hsplit
      rw [List.nil_append] at hafter
      obtain ⟨paths, during, rest, rfl, hc, hperf, hlater, hother⟩ := hq [] _ _ _ _ hafter.symm
      have hmem : .applied u tree changed ∈ q := by
        rw [← hafter]
        exact List.mem_cons_self
      rw [List.append_nil, hsplit] at hperf
      refine ⟨paths, during, rest, rfl, hc, hperf, hlater, fun e he => ?_⟩
      rcases List.mem_append.mp he with he | he
      · exact hqp u tree changed hmem e (hsplit ▸ he)
      · exact hother e he
    | cons x after' =>
      obtain ⟨rfl, hrest⟩ := List.cons.inj hafter
      exact hfirst after' hsplit hrest

/-- A piece in which no update begins. -/
theorem nested_of_not_begun {h piece : List (Entry V N)}
    (hp : ∀ u tree changed, .applied u tree changed ∉ piece) : Nested h piece := by
  rintro before u tree changed after rfl
  exact absurd (List.mem_append_right _ List.mem_cons_self) (hp u tree changed)

/-- An update, with all that was added while it was under way. -/
theorem Nested.applied {h during : List (Entry V N)} {u : Update} {tree : Tree V}
    {paths : List Path} (hn : Nested (h ++ [.applied u tree paths.length]) during)
    (hperf : Performed h u tree paths during)
    (hlater : ∀ e ∈ during, ∀ v, e.update? = some v → u.number ≤ v.number)
    (hbegun : ∀ v tree' changed, .applied v tree' changed ∈ during → v ≠ u) :
    Nested h (.applied u tree paths.length :: during) := by
  intro before v tree' changed after hs
  cases before with
  | nil =>
    obtain ⟨he, rfl⟩ := List.cons.inj hs
    cases he
    rw [List.append_nil]
    exact ⟨paths, during, [], (List.append_nil _).symm, rfl, hperf, hlater, fun _ he => nomatch he⟩
  | cons x before =>
    obtain ⟨rfl, rfl⟩ := List.cons.inj hs
    obtain ⟨paths', during', rest, rfl, hc, hperf', hlater', hother⟩ := hn _ _ _ _ _ rfl
    rw [List.append_assoc] at hperf'
    refine ⟨paths', during', rest, rfl, hc, hperf', hlater', fun e he => ?_⟩
    rcases List.mem_cons.mp he with rfl | he
    · intro hu
      have hne := hbegun v tree' changed (List.mem_append_right _ List.mem_cons_self)
      exact hne (Option.some.inj hu).symm
    · exact hother e he

/-- The delivery that a call makes. -/
def Call.invocation? : Call V C → Option (Path × ListenerId × Delivery V)
  | announce .. => none
  | invoke path d entry => some (path, entry.1, d)

/-- The delivery that a call makes, and what the listener does with it. -/
def Call.telling? : Call V C → Option (Path × ListenerId × Reaction C × Delivery V)
  | announce .. => none
  | invoke path d entry => some (path, entry.1, entry.2.reaction, d)

theorem Call.invocation?_eq (c : Call V C) :
    c.invocation? = c.telling?.map fun (path, id, _, d) => (path, id, d) := by
  cases c <;> rfl

theorem between?_eq_some_iff {previous : Option (Tree V)} {tree : Tree V} {path : Path}
    {d : Delivery V} :
    Delivery.between? previous tree path = some d ↔
      previous.bind (Tree.hash? · path) ≠ tree.hash? path ∧
        d = Delivery.ofSubtree? (tree.subtree? path) := by
  rw [← Option.toList_eq_singleton_iff, toList_between?, change]
  split
  · next h => simp [h]
  · next h => simp [Ne.symm h, eq_comm]

namespace Registry

variable {registry : Registry V C} {r : RegistryId} {h : List (Entry V N)}

theorem mem_pending {tree : Tree V} {p : Pending V C} :
    p ∈ registry.pending tree ↔ (p.path, p.listeners) ∈ registry.watched ∧
      registry.current.bind (Tree.hash? · p.path) ≠ tree.hash? p.path ∧
      p.delivery = Delivery.ofSubtree? (tree.subtree? p.path) := by
  rw [← between?_eq_some_iff, pending, List.mem_filterMap]
  constructor
  · rintro ⟨⟨path, group⟩, hmem, hp⟩
    obtain ⟨d, hd, rfl⟩ := Option.map_eq_some_iff.mp hp
    exact ⟨hmem, hd⟩
  · rintro ⟨hmem, hd⟩
    exact ⟨_, hmem, by simp [hd]⟩

/-- The listeners of a group are those that the journal says, in the same order. -/
theorem Reflects.map_group (hr : registry.Reflects r h) (ho : InOrder h) (path : Path) :
    (registry.group path).map Prod.fst = listeners r path h := by
  refine List.Pairwise.eq_of_mem_iff (r := (· < ·))
    (List.pairwise_map.mpr (hr.group_ascending path)) (ho.listeners_pairwise r path) fun id => ?_
  rw [mem_listeners, ← hr.listed, List.mem_map]
  constructor
  · rintro ⟨⟨id', l⟩, hm, rfl⟩
    rw [Table.get?_of_mem (hr.group_ascending path) hm]
    rfl
  · intro hs
    obtain ⟨l, hl⟩ := Option.isSome_iff_exists.mp hs
    exact ⟨(id, l), Table.mem_of_get? hl, rfl⟩

theorem Reflects.pairwise_pending (hr : registry.Reflects r h) (tree : Tree V) :
    ((registry.pending tree).map Pending.path).Pairwise (· < ·) := by
  refine List.pairwise_map.mpr (List.pairwise_filterMap.mpr (hr.ascending.imp ?_))
  intro e e' hlt p hp p' hp'
  obtain ⟨d, -, rfl⟩ := Option.map_eq_some_iff.mp hp
  obtain ⟨d', -, rfl⟩ := Option.map_eq_some_iff.mp hp'
  exact hlt

/-- The group of a pending path is that of the registry. -/
theorem Reflects.listeners_of_pending (hr : registry.Reflects r h) {tree : Tree V}
    {p : Pending V C} (hp : p ∈ registry.pending tree) : p.listeners = registry.group p.path :=
  (hr.group_eq (mem_pending.mp hp).1).symm

/-- Who is called is registered at the path. -/
theorem Reflects.mem_group_of_call (hr : registry.Reflects r h) {tree : Tree V} {path : Path}
    {d : Delivery V} {entry : ListenerId × Listener C}
    (hc : .invoke path d entry ∈ registry.calls tree) : entry ∈ registry.group path := by
  obtain ⟨p, hp, hc⟩ := List.mem_flatMap.mp hc
  rcases List.mem_cons.mp hc with he | hc
  · cases he
  · obtain ⟨entry', hmem, he⟩ := List.mem_map.mp hc
    cases he
    rw [← hr.listeners_of_pending hp]
    exact hmem

theorem Reflects.mem_paths_pending (hr : registry.Reflects r h) (ho : InOrder h) {tree : Tree V}
    {path : Path} :
    path ∈ (registry.pending tree).map Pending.path ↔ listeners r path h ≠ [] ∧
      (current? r h).bind (Tree.hash? · path) ≠ tree.hash? path := by
  rw [← hr.map_group ho, ← hr.current, Ne, List.map_eq_nil_iff, List.mem_map]
  constructor
  · rintro ⟨p, hp, rfl⟩
    rw [← hr.listeners_of_pending hp]
    obtain ⟨hmem, hne, -⟩ := mem_pending.mp hp
    exact ⟨(hr.groups _ hmem).1, hne⟩
  · rintro ⟨hgroup, hne⟩
    cases hg : Table.get? path registry.watched with
    | none => simp [group, hg] at hgroup
    | some g =>
      exact ⟨⟨path, Delivery.ofSubtree? (tree.subtree? path), g⟩,
        mem_pending.mpr ⟨Table.mem_of_get? hg, hne, rfl⟩, rfl⟩

/-- The deliveries that a new snapshot leads to. -/
theorem Reflects.tellings_calls (hr : registry.Reflects r h) (tree : Tree V) :
    (registry.calls tree).filterMap Call.telling? =
      ((registry.pending tree).map Pending.path).flatMap fun path =>
        (registry.group path).map fun (id, l) =>
          (path, id, l.reaction, Delivery.ofSubtree? (tree.subtree? path)) := by
  rw [calls, List.filterMap_flatMap, List.flatMap_map]
  refine List.flatMap_congr fun p hp => ?_
  have hcalls : p.calls.filterMap Call.telling? =
      p.listeners.map fun (id, l) => (p.path, id, l.reaction, p.delivery) := by
    rw [Pending.calls, List.filterMap_cons_none rfl, List.filterMap_map, ← List.filterMap_eq_map]
    rfl
  rw [hcalls, ← hr.listeners_of_pending hp, (mem_pending.mp hp).2.2]

/-- The same, from the journal. -/
theorem Reflects.invocations_calls (hr : registry.Reflects r h) (ho : InOrder h) (tree : Tree V) :
    (registry.calls tree).filterMap Call.invocation? =
      ((registry.pending tree).map Pending.path).flatMap fun path =>
        (listeners r path h).map fun id =>
          (path, id, Delivery.ofSubtree? (tree.subtree? path)) := by
  rw [funext Call.invocation?_eq, ← List.map_filterMap, hr.tellings_calls, List.map_flatMap]
  refine List.flatMap_congr fun path _ => ?_
  rw [← hr.map_group ho, List.map_map, List.map_map]
  rfl

/-- An update that made the calls did what it has to do. -/
theorem Reflects.performed {u : Update} (hr : registry.Reflects u.registry h) (ho : InOrder h)
    (tree : Tree V) {during : List (Entry V N)}
    (hi : invocations u during = (registry.calls tree).filterMap Call.invocation?)
    (hf : (failures u during).Sublist
      ((invocations u during).map fun (path, id, _) => (path, id))) :
    Performed h u tree ((registry.pending tree).map Pending.path) during where
  ascending := hr.pairwise_pending tree
  mem_iff _ := hr.mem_paths_pending ho
  invoked := hi.trans (hr.invocations_calls ho tree)
  failed := hf

end Registry

namespace Hub

/-- From one state to another the piece was added to the journal. What it tells of updates is part
of one that was under way, `own`, or of updates that began and ended in between. -/
structure Extends (own : Option Update) (s s' : Hub V C S N) (piece : List (Entry V N)) :
    Prop where
  history_eq : s'.history = s.history ++ piece
  nextUpdate_le : s.nextUpdate ≤ s'.nextUpdate
  numbers : ∀ e ∈ piece, ∀ v, e.update? = some v →
    own = some v ∨ s.nextUpdate ≤ v.number ∧ v.number < s'.nextUpdate
  begun : ∀ v tree changed, .applied v tree changed ∈ piece → s.nextUpdate ≤ v.number
  nested : Nested s.history piece

variable {own : Option Update} {s s₁ s' : Hub V C S N} {p q : List (Entry V N)}

/-- An update that began in the piece is over at its end. -/
theorem Extends.lt_of_begun (h : Extends own s s' p) (hown : ∀ u, own = some u →
    u.number < s.nextUpdate) {v : Update} {tree : Tree V} {changed : Nat}
    (hv : .applied v tree changed ∈ p) : v.number < s'.nextUpdate := by
  rcases h.numbers _ hv v rfl with ho | hn
  · exact Nat.lt_of_lt_of_le (hown v ho) h.nextUpdate_le
  · exact hn.2

theorem Extends.trans (hp : Extends own s s₁ p) (hq : Extends own s₁ s' q)
    (hown : ∀ u, own = some u → u.number < s.nextUpdate) : Extends own s s' (p ++ q) where
  history_eq := by rw [hq.history_eq, hp.history_eq, List.append_assoc]
  nextUpdate_le := hp.nextUpdate_le.trans hq.nextUpdate_le
  numbers e he v hv := by
    have hle := hp.nextUpdate_le
    have hle' := hq.nextUpdate_le
    rcases List.mem_append.mp he with he | he
    · exact (hp.numbers e he v hv).imp_right fun hn => ⟨hn.1, by omega⟩
    · exact (hq.numbers e he v hv).imp_right fun hn => ⟨by omega, hn.2⟩
  begun v tree changed hm := by
    rcases List.mem_append.mp hm with hm | hm
    · exact hp.begun v tree changed hm
    · exact hp.nextUpdate_le.trans (hq.begun v tree changed hm)
  nested := by
    refine hp.nested.append (hp.history_eq ▸ hq.nested) ?_ ?_
    · intro v tree changed hm e he hv
      have hlt := hp.lt_of_begun hown hm
      have hge := hp.begun v tree changed hm
      rcases hq.numbers e he v hv with ho | hn
      · exact absurd (hown v ho) (by omega)
      · omega
    · intro v tree changed hm e he hv
      have hle := hp.nextUpdate_le
      have hge := hq.begun v tree changed hm
      rcases hp.numbers e he v hv with ho | hn
      · exact absurd (hown v ho) (by omega)
      · omega

theorem Extends.trans_code (hp : Extends none s s₁ p) (hq : Extends none s₁ s' q) :
    Extends none s s' (p ++ q) := hp.trans hq fun _ ho => nomatch ho

theorem Extends.trans_calls {u : Update} (hp : Extends (some u) s s₁ p)
    (hq : Extends (some u) s₁ s' q) (hu : u.number < s.nextUpdate) :
    Extends (some u) s s' (p ++ q) := hp.trans hq fun _ ho => Option.some.inj ho ▸ hu

/-- An entry at which no update begins, of the update under way or of none. -/
theorem extends_entry {e : Entry V N} (hh : s'.history = s.history ++ [e])
    (hn : s'.nextUpdate = s.nextUpdate) (he : ∀ v, e.update? = some v → own = some v)
    (hb : ∀ v tree changed, e ≠ .applied v tree changed) : Extends own s s' [e] where
  history_eq := hh
  nextUpdate_le := hn.ge
  numbers _ hx v hv := .inl (he v (List.mem_singleton.mp hx ▸ hv))
  begun v tree changed hm := absurd (List.mem_singleton.mp hm).symm (hb v tree changed)
  nested := nested_of_not_begun fun v tree changed hm =>
    hb v tree changed (List.mem_singleton.mp hm).symm

theorem extends_record (s : Hub V C S N) {u : Update} {e : Entry V N} (he : e.update? = some u)
    (hb : ∀ v tree changed, e ≠ .applied v tree changed) : Extends (some u) s (s.record e) [e] :=
  extends_entry (history_record s e) rfl (fun _ hv => he.symm.trans hv) hb

theorem extends_nil (hh : s'.history = s.history) (hn : s'.nextUpdate = s.nextUpdate) :
    Extends own s s' [] where
  history_eq := hh.trans (List.append_nil _).symm
  nextUpdate_le := hn.ge
  numbers _ h := nomatch h
  begun _ _ _ h := nomatch h
  nested := nested_of_not_begun fun _ _ _ h => nomatch h

theorem Extends.of_none (h : Extends none s s' p) : Extends own s s' p where
  history_eq := h.history_eq
  nextUpdate_le := h.nextUpdate_le
  numbers e he v hv := .inr ((h.numbers e he v hv).resolve_left fun hn => nomatch hn)
  begun := h.begun
  nested := h.nested

/-- What is added while no update is under way is not part of an earlier one. -/
theorem Extends.update?_ne (h : Extends none s s' p) {u : Update} (hu : u.number < s.nextUpdate) :
    ∀ e ∈ p, e.update? ≠ some u := by
  intro e he hv
  rcases h.numbers e he u hv with ho | hn
  · cases ho
  · omega

theorem Step.extends (h : Step s s') : ∃ piece, Extends none s s' piece := by
  rcases h.history_eq with he | ⟨e, he, hnone, -⟩
  · exact ⟨[], extends_nil he h.nextUpdate_eq⟩
  · refine ⟨[e], extends_entry he h.nextUpdate_eq (fun v hv => ?_) fun v tree changed heq => ?_⟩
    · rw [hnone] at hv
      cases hv
    · rw [heq] at hnone
      cases hnone

theorem Steps.extends (h : Steps s s') : ∃ piece, Extends none s s' piece := by
  induction h with
  | refl => exact ⟨[], extends_nil rfl rfl⟩
  | tail _ hstep ih =>
    obtain ⟨p, hp⟩ := ih
    obtain ⟨q, hq⟩ := hstep.extends
    exact ⟨p ++ q, hp.trans_code hq⟩

theorem nextUpdate_push (s : Hub V C S N) (subscription : SubscriptionId) (d : Delivery V) :
    (s.push subscription d).nextUpdate = s.nextUpdate := by
  rw [push]
  split <;> rfl

/-- What an update adds to the journal while it makes calls: its deliveries are those calls, and of
the listeners some fail, which the tally counts. -/
structure Makes (u : Update) (ahead : List (Call V C)) (tally : Tally) (piece : List (Entry V N)) :
    Prop where
  invoked : invocations u piece = ahead.filterMap Call.invocation?
  failed : (failures u piece).Sublist
    ((ahead.filterMap Call.invocation?).map fun (path, id, _) => (path, id))
  failed_eq : tally.failed = (failures u piece).length
  made_eq : tally.delivered + tally.failed = (ahead.filterMap Call.invocation?).length

theorem makes_nil (u : Update) : Makes u ([] : List (Call V C)) ⟨0, 0⟩ ([] : List (Entry V N)) :=
  ⟨rfl, .refl _, rfl, rfl⟩

section Makes

variable {u : Update} {ahead : List (Call V C)} {tally : Tally} {path : Path} {d : Delivery V}
  {entry : ListenerId × Listener C}

theorem Makes.announce (h : Makes u ahead tally p) (isPresent : Bool) :
    Makes u (.announce path isPresent :: ahead) tally (.reached u path isPresent :: p) :=
  ⟨h.invoked, h.failed, h.failed_eq, h.made_eq⟩

theorem invocations_cons_invoked (id : ListenerId) (hq : ∀ e ∈ q, e.update? ≠ some u) :
    invocations u (.invoked u path id d :: (q ++ p)) = (path, id, d) :: invocations u p := by
  have hnone : invocations u q = [] := invocations_eq_nil hq
  have hhead : (Entry.invoked u path id d : Entry V N).invocation? u = some (path, id, d) :=
    if_pos rfl
  rw [invocations, List.filterMap_cons_some hhead, ← invocations, invocations_append, hnone,
    List.nil_append]

theorem failures_cons_invoked (id : ListenerId) (hq : ∀ e ∈ q, e.update? ≠ some u) :
    failures u (.invoked u path id d :: (q ++ p)) = failures u p := by
  rw [failures, List.filterMap_cons_none rfl, ← failures, failures_append, failures_eq_nil hq,
    List.nil_append]

/-- A listener is invoked, and succeeds. -/
theorem Makes.succeed (h : Makes u ahead tally p) (hq : ∀ e ∈ q, e.update? ≠ some u) :
    Makes u (.invoke path d entry :: ahead) (tally.count true)
      (.invoked u path entry.1 d :: (q ++ p)) where
  invoked := by rw [invocations_cons_invoked entry.1 hq, h.invoked]; rfl
  failed := by
    rw [failures_cons_invoked entry.1 hq]
    exact h.failed.cons _
  failed_eq := by
    rw [failures_cons_invoked entry.1 hq]
    exact h.failed_eq
  made_eq := by
    have hmade := h.made_eq
    simp only [Tally.count, if_true, List.filterMap_cons, Call.invocation?, List.length_cons]
    omega

/-- A listener is invoked, and fails. -/
theorem Makes.fail (h : Makes u ahead tally p) (hq : ∀ e ∈ q, e.update? ≠ some u)
    (reason : Failure) :
    Makes u (.invoke path d entry :: ahead) (tally.count false)
      (.invoked u path entry.1 d :: (q ++ .failed u path entry.1 reason :: p)) := by
  have hfailures : failures u (.failed u path entry.1 reason :: p) =
      (path, entry.1) :: failures u p := List.filterMap_cons_some (if_pos rfl)
  constructor
  · rw [invocations_cons_invoked entry.1 hq]
    exact congrArg _ h.invoked
  · rw [failures_cons_invoked entry.1 hq, hfailures]
    exact h.failed.cons_cons _
  · rw [failures_cons_invoked entry.1 hq, hfailures, List.length_cons, ← h.failed_eq]
    rfl
  · have hmade := h.made_eq
    simp only [Tally.count, List.filterMap_cons, Call.invocation?, List.length_cons]
    simp only [Bool.false_eq_true, if_false]
    omega

end Makes

/-- What a run adds to the journal. -/
def Task.Adds : Task V C → Hub V C S N → Hub V C S N → Prop
  | .code, s, s' => ∃ piece, Extends none s s' piece
  | .calls u ahead tally, s, s' => u.number < s.nextUpdate →
    ∃ piece, Extends (some u) s s' piece ∧ Makes u ahead tally piece

section Update

variable {r : RegistryId} {registry : Registry V C} {tree : Tree V} {paths : List Path}
  {during : List (Entry V N)}

/-- What is added while an update is under way is part of it or of later ones. -/
theorem Extends.number_le (h : Extends (some (s.nextUpdateOf r registry))
    (s.beginUpdate r registry tree) s' during) :
    ∀ e ∈ during, ∀ v, e.update? = some v → s.nextUpdate ≤ v.number ∧ v.number < s'.nextUpdate := by
  have hle : s.nextUpdate + 1 ≤ s'.nextUpdate := h.nextUpdate_le
  intro e he v hv
  rcases h.numbers e he v hv with ho | ⟨hge, hlt⟩
  · cases ho
    exact ⟨Nat.le_refl _, hle⟩
  · exact ⟨(Nat.le_succ _).trans hge, hlt⟩

/-- An update that does what it has to do, from before its beginning. -/
theorem Extends.update (h : Extends (some (s.nextUpdateOf r registry))
    (s.beginUpdate r registry tree) s' during)
    (hlength : paths.length = (registry.pending tree).length)
    (hperf : Performed s.history (s.nextUpdateOf r registry) tree paths during) :
    Extends none s s' (.applied (s.nextUpdateOf r registry) tree paths.length :: during) where
  history_eq := by
    rw [h.history_eq, history_beginUpdate, hlength, List.append_assoc]
    rfl
  nextUpdate_le := (Nat.le_succ _).trans h.nextUpdate_le
  numbers e he v hv := by
    rcases List.mem_cons.mp he with rfl | he
    · cases hv
      exact .inr ⟨Nat.le_refl _, h.nextUpdate_le⟩
    · exact .inr (h.number_le e he v hv)
  begun v tree' changed hm := by
    rcases List.mem_cons.mp hm with he | hm
    · cases he
      exact Nat.le_refl _
    · exact (Nat.le_succ _).trans (h.begun v tree' changed hm)
  nested := by
    have hnested := h.nested
    rw [history_beginUpdate, ← hlength] at hnested
    refine hnested.applied hperf (fun e he v hv => (h.number_le e he v hv).1) ?_
    rintro v tree' changed hm rfl
    exact Nat.lt_irrefl _ (h.begun _ tree' changed hm)

/-- A whole update: it begins, makes its calls and ends. -/
theorem extends_update (hs : s.Orderly) {tally : Tally} (hreg : s.registry? r = some registry)
    (h : Task.Adds (.calls (s.nextUpdateOf r registry) (registry.calls tree) tally)
      (s.beginUpdate r registry tree) s₁) :
    ∃ during, Extends (some (s.nextUpdateOf r registry)) (s.beginUpdate r registry tree)
        s₁.endUpdate during ∧
      Performed s.history (s.nextUpdateOf r registry) tree
        ((registry.pending tree).map Pending.path) during ∧
      Makes (s.nextUpdateOf r registry) (registry.calls tree) tally during := by
  have hlt : (s.nextUpdateOf r registry).number < (s.beginUpdate r registry tree).nextUpdate :=
    Nat.lt_succ_self s.nextUpdate
  obtain ⟨p, hp, hmakes⟩ := h hlt
  obtain ⟨q, hq⟩ := (endUpdate_steps s₁).extends
  have hnone := hq.update?_ne (Nat.lt_of_lt_of_le hlt hp.nextUpdate_le)
  have hinvoked : invocations (s.nextUpdateOf r registry) (p ++ q) =
      (registry.calls tree).filterMap Call.invocation? := by
    rw [invocations_append, invocations_eq_nil hnone, List.append_nil, hmakes.invoked]
  have hfailed : failures (s.nextUpdateOf r registry) (p ++ q) =
      failures (s.nextUpdateOf r registry) p := by
    rw [failures_append, failures_eq_nil hnone, List.append_nil]
  have hall : Makes (s.nextUpdateOf r registry) (registry.calls tree) tally (p ++ q) :=
    ⟨hinvoked, hfailed ▸ hmakes.failed, hfailed ▸ hmakes.failed_eq, hmakes.made_eq⟩
  have hr := hs.consistent.reflects r registry hreg
  exact ⟨p ++ q, hp.trans_calls hq.of_none hlt,
    hr.performed hs.inOrder tree hinvoked (hinvoked ▸ hall.failed), hall⟩

end Update

/-- What every run adds, whatever callbacks do. -/
theorem Runs.adds {task : Task V C} (h : Runs task s s') (hs : s.Orderly) : task.Adds s s' := by
  induction h with
  | stopped s => exact ⟨[], extends_nil rfl rfl⟩
  | @asked s s' q _ ih =>
    obtain ⟨p, hp⟩ := (perform_steps s q).extends
    obtain ⟨q, hq⟩ := ih (hs.steps (perform_steps s q))
    exact ⟨p ++ q, hp.trans_code hq⟩
  | @updated s s₁ s' r registry tree tally hreg hcalls _ ihc ih =>
    have hbegun := hs.beginUpdate hreg tree
    obtain ⟨during, hd, hperf, -⟩ := extends_update hs hreg (ihc hbegun)
    obtain ⟨q, hq⟩ := ih ((hcalls.orderly hbegun).steps (endUpdate_steps s₁))
    exact ⟨_, (hd.update (List.length_map _) hperf).trans_code hq⟩
  | finished s u => exact fun _ => ⟨[], extends_nil rfl rfl, makes_nil u⟩
  | @announced s s' u path isPresent ahead tally _ ih =>
    intro hu
    obtain ⟨p, hp, hmakes⟩ := ih (hs.record rfl) hu
    have hfirst := extends_record s (e := .reached u path isPresent) rfl fun _ _ _ he => nomatch he
    exact ⟨_, hfirst.trans_calls hp hu, hmakes.announce isPresent⟩
  | @fed s s' u path d entry subscription ahead tally _ _ ih =>
    intro hu
    have hfirst := extends_record s (e := .invoked u path entry.1 d) rfl fun _ _ _ he => nomatch he
    have hpush : Extends (some u) (s.record (.invoked u path entry.1 d))
        ((s.record (.invoked u path entry.1 d)).push subscription d) [] :=
      extends_nil (history_push _ _ _) (nextUpdate_push _ _ _)
    obtain ⟨p, hp, hmakes⟩ := ih ((hs.record rfl).push subscription d)
      (Nat.lt_of_lt_of_le hu hpush.nextUpdate_le)
    exact ⟨_, hfirst.trans_calls (hpush.trans_calls hp hu) hu,
      hmakes.succeed fun _ he => nomatch he⟩
  | @returned s s₁ s' u path d entry code ahead tally _ hcallback _ ihc ih =>
    intro hu
    have hrecord : (s.record (.invoked u path entry.1 d)).Orderly := hs.record rfl
    have hfirst := extends_record s (e := .invoked u path entry.1 d) rfl fun _ _ _ he => nomatch he
    obtain ⟨q, hq⟩ := ihc hrecord
    obtain ⟨p, hp, hmakes⟩ := ih (hcallback.orderly hrecord)
      (Nat.lt_of_lt_of_le hu hq.nextUpdate_le)
    exact ⟨_, hfirst.trans_calls (hq.of_none.trans_calls hp hu) hu,
      hmakes.succeed (hq.update?_ne hu)⟩
  | @failed s s₁ s' u path d entry code ahead tally _ reason hcallback _ ihc ih =>
    intro hu
    have hrecord : (s.record (.invoked u path entry.1 d)).Orderly := hs.record rfl
    have hfirst := extends_record s (e := .invoked u path entry.1 d) rfl fun _ _ _ he => nomatch he
    obtain ⟨q, hq⟩ := ihc hrecord
    have hu' : u.number < s₁.nextUpdate := Nat.lt_of_lt_of_le hu hq.nextUpdate_le
    obtain ⟨p, hp, hmakes⟩ := ih ((hcallback.orderly hrecord).record rfl) hu'
    have hlast := extends_record s₁ (e := .failed u path entry.1 reason) rfl
      fun _ _ _ he => nomatch he
    exact ⟨_, hfirst.trans_calls (hq.of_none.trans_calls (hlast.trans_calls hp hu') hu) hu,
      hmakes.fail (hq.update?_ne hu) reason⟩

end Hub

end ConfigTree
