import ConfigTree.Proofs.Registrations
/-!
# What a cancellation takes along

While no snapshot of its registry is being dispatched, a listener that is cancelled is gone at once,
and the streams that it owns are closed. Each of them cancels its own registration, be it at the
same path or at another one. What is left in the tables are the registrations before, without these,
in their order and under the paths that still have some (`Registry.without`). That is shown from the
listeners at each path. They determine the table, because no path stays in it without listeners.
-/

namespace ConfigTree

variable {V C S N : Type}

namespace Table

variable {κ α β : Type} [DecidableEq κ] [LE κ] [LT κ] [Std.LawfulOrderLT κ]

omit [DecidableEq κ] [LE κ] [Std.LawfulOrderLT κ] in
theorem ascending_filterMap (f : κ → α → Option β) {t : List (κ × α)} (h : Ascending t) :
    Ascending (t.filterMap fun (k, a) => (f k a).map fun b => (k, b)) := by
  refine List.pairwise_filterMap.mpr (h.imp fun hlt x hx y hy => ?_)
  obtain ⟨b, -, rfl⟩ := Option.map_eq_some_iff.mp hx
  obtain ⟨b', -, rfl⟩ := Option.map_eq_some_iff.mp hy
  exact hlt

theorem get?_filterMap (f : κ → α → Option β) (k : κ) {t : List (κ × α)} (h : Ascending t) :
    get? k (t.filterMap fun (k, a) => (f k a).map fun b => (k, b)) =
      (get? k t).bind (f k) := by
  refine Option.ext fun b => ?_
  rw [get?_eq_some_iff (ascending_filterMap f h), List.mem_filterMap, Option.bind_eq_some_iff]
  constructor
  · rintro ⟨⟨k', a⟩, hm, he⟩
    obtain ⟨b', hf, heq⟩ := Option.map_eq_some_iff.mp he
    cases heq
    exact ⟨a, (get?_eq_some_iff h).mpr hm, hf⟩
  · rintro ⟨a, hg, hf⟩
    exact ⟨(k, a), (get?_eq_some_iff h).mp hg, congrArg (Option.map (Prod.mk k)) hf⟩

end Table

/-- A group with somebody in it. -/
def Group.inhabited? (g : Group C) : Option (Group C) := if g.isEmpty then none else some g

namespace Registry

variable {registry registry' : Registry V C} {r : RegistryId} {h h' : List (Entry V N)}

/-- The registry without some of its registrations, and without the paths where none is left. -/
def without (registry : Registry V C) (gone : Path → ListenerId → Bool) : Registry V C :=
  { registry with
    watched := registry.watched.filterMap fun (path, g) =>
      (Group.inhabited? (g.filter fun e => !gone path e.1)).map fun left => (path, left) }

/-- All of a registry but its registrations. -/
def unwatched (registry : Registry V C) : Registry V C := { registry with watched := [] }

/-- The listeners at its paths determine the table. -/
theorem Reflects.get?_watched (hr : registry.Reflects r h) (path : Path) :
    Table.get? path registry.watched = Group.inhabited? (registry.group path) := by
  rw [group]
  cases hg : Table.get? path registry.watched with
  | none => rfl
  | some g =>
    have hne : ¬ g.isEmpty := fun he =>
      (hr.groups _ (Table.mem_of_get? hg)).1 (List.isEmpty_iff.mp he)
    rw [Option.getD_some, Group.inhabited?, if_neg hne]

theorem Reflects.ascending_without (hr : registry.Reflects r h)
    (gone : Path → ListenerId → Bool) : Table.Ascending (registry.without gone).watched :=
  Table.ascending_filterMap (fun path (g : Group C) =>
    Group.inhabited? (g.filter fun e => !gone path e.1)) hr.ascending

theorem Reflects.get?_without (hr : registry.Reflects r h) (gone : Path → ListenerId → Bool)
    (path : Path) : Table.get? path (registry.without gone).watched =
      Group.inhabited? ((registry.group path).filter fun e => !gone path e.1) := by
  have hleft := Table.get?_filterMap
    (fun path' g => Group.inhabited? (g.filter fun e => !gone path' e.1)) path hr.ascending
  rw [group]
  refine hleft.trans ?_
  cases Table.get? path registry.watched with
  | none => rfl
  | some g => rfl

/-- A registry that lost just these registrations, and nothing else. -/
theorem Reflects.eq_without (hr : registry.Reflects r h) (hr' : registry'.Reflects r h')
    {gone : Path → ListenerId → Bool} (hrest : registry'.unwatched = registry.unwatched)
    (hgroup : ∀ path, registry'.group path =
      (registry.group path).filter fun e => !gone path e.1) :
    registry' = registry.without gone := by
  have hwatched : registry'.watched = (registry.without gone).watched :=
    Table.eq_of_get? hr'.ascending (hr.ascending_without gone) fun path => by
      rw [hr'.get?_watched, hr.get?_without, hgroup]
  cases registry
  cases registry'
  cases hrest
  cases hwatched
  rfl

end Registry

namespace Hub

variable {s s' : Hub V C S N} {r : RegistryId} {registry : Registry V C} {path : Path}
  {id : ListenerId} {l : Listener C}

/-- A registry without its registrations, if it is there. -/
def unwatched? (s : Hub V C S N) (r : RegistryId) : Option (Registry V C) :=
  (s.registry? r).map Registry.unwatched

/-- Nothing but registrations goes. -/
theorem Closing.unwatched?_eq (h : Closing s s') (r : RegistryId) :
    s'.unwatched? r = s.unwatched? r := by
  cases h with
  | @cancelled r' registry left path id l hreg hc =>
    obtain ⟨-, rfl⟩ := Prod.mk.inj hc
    rw [unwatched?, registry?_record, registry?_setRegistry]
    split
    · next hr =>
      rw [hr, unwatched?, hreg]
      rfl
    · rfl
  | closed => rfl
  | detached => rfl

theorem Closings.unwatched?_eq (h : Closings s s') (r : RegistryId) :
    s'.unwatched? r = s.unwatched? r := by
  induction h with
  | refl => rfl
  | tail _ hclosing ih => rw [hclosing.unwatched?_eq, ih]

/-- Closed is the subscription itself, whether it was open or not. -/
theorem get?_subscriptions_close (ha : Table.Ascending s.subscriptions) (n m : SubscriptionId) :
    Table.get? m (s.close n).subscriptions =
      if m = n then none else Table.get? m s.subscriptions := by
  cases hsub : Table.get? n s.subscriptions with
  | none =>
    rw [close_of_get?_eq_none hsub]
    split
    · next hm => rw [hm, hsub]
    · rfl
  | some sub => exact subscriptions_close ha hsub m

theorem Streaming.get?_subscriptions_release (hs : s.Streaming) (l : Listener C)
    (m : SubscriptionId) : Table.get? m (s.release l).subscriptions =
      if m ∈ l.owned then none else Table.get? m s.subscriptions := by
  rw [release]
  induction l.owned generalizing s with
  | nil => rfl
  | cons n rest ih =>
    have hclosed : (s.close n).Streaming := ((close_closings s n).acts.keeps hs).1
    rw [List.foldl_cons, ih hclosed, get?_subscriptions_close hs.ascending]
    by_cases hm : m = n
    · simp [hm]
    · simp [hm]

theorem isDispatched_eq_false (hd : ∀ d ∈ s.dispatches, d.registry ≠ r) (id : ListenerId) :
    s.isDispatched r id = false := by
  refine List.any_eq_false.mpr fun d hmem => ?_
  rw [decide_eq_false (hd d hmem), Bool.false_and]
  exact Bool.false_ne_true

/-- The listener is released at once. -/
theorem Consistent.cancel_eq (hs : s.Consistent) (hd : ∀ d ∈ s.dispatches, d.registry ≠ r)
    (hreg : s.registry? r = some registry)
    (hl : Table.get? id (registry.group path) = some l) : ∃ left,
      registry.cancel path id = (some l, left) ∧ s.cancel r path id =
        (true, ((s.setRegistry r left).record (.cancelled r path id)).release l) := by
  obtain ⟨left, hc⟩ : ∃ left, registry.cancel path id = (some l, left) := ⟨_, Prod.ext hl rfl⟩
  have halive : isAlive ((s.setRegistry r left).record (.cancelled r path id)) r id = false := by
    rw [hs.isAlive_cancelled hreg hc]
    exact isDispatched_eq_false hd id
  refine ⟨left, hc, ?_⟩
  rw [cancel, hreg]
  dsimp only
  rw [unregister, hc]
  dsimp only
  rw [releaseIfGone, halive, if_neg Bool.false_ne_true]

/-- Cancelling a listener succeeds. While no snapshot of its registry is being dispatched, it leaves
in every registry the registrations there, in their order, without the listener's own one and
without those of the streams that the listener owns, and with them go the paths where nobody is
left. These streams are closed, and all others stay as they are. -/
theorem Reachable.cancel_releases (hs : s.Reachable) (hd : ∀ d ∈ s.dispatches, d.registry ≠ r)
    (hreg : s.registry? r = some registry)
    (hl : Table.get? id (registry.group path) = some l) :
    ∃ s', s.cancel r path id = (true, s') ∧
      (∀ r', s'.registry? r' = (s.registry? r').map fun before =>
        before.without fun path' id' => decide (r' = r ∧ path' = path ∧ id' = id) ||
          l.owned.any fun n => s.isFedBy n r' path' id') ∧
      (∀ n, Table.get? n s'.subscriptions =
        if n ∈ l.owned then none else Table.get? n s.subscriptions) ∧
      s'.dispatches = s.dispatches := by
  have hstreaming := hs.streaming
  have hc := hstreaming.consistent
  obtain ⟨left, hleft, hcancel⟩ := hc.cancel_eq hd hreg hl
  obtain ⟨s', hcancel', hgroup⟩ := hstreaming.cancel_of_listed hreg hl
  have hclosings := cancel_closings s r path id
  have hreached : s'.Reachable := by
    have hran := hs.ran (.asked (.cancel r path id) (.stopped _))
    rwa [Request.perform, hcancel'] at hran
  rw [hcancel'] at hclosings
  refine ⟨s', hcancel', fun r' => ?_, fun n => ?_, ?_⟩
  · -- no dispatch keeps the listener
    have hdispatched := isDispatched_eq_false hd id
    have hrest := hclosings.unwatched?_eq r'
    have hgroups := hgroup r'
    rw [unwatched?, unwatched?] at hrest
    cases hbefore : s.registry? r' with
    | none =>
      rw [hbefore] at hrest
      exact Option.map_eq_none_iff.mp hrest
    | some before =>
      rw [hbefore] at hrest
      obtain ⟨after, hafter, hsame⟩ := Option.map_eq_some_iff.mp hrest
      rw [hafter, Option.map_some]
      refine congrArg some ((hc.reflects r' before hbefore).eq_without
        (hreached.streaming.consistent.reflects r' after hafter) hsame fun path' => ?_)
      have hpath := hgroups path'
      simp only [group?, hafter, hbefore, Option.map_some, Option.some.injEq, goesWith,
        hdispatched, Bool.not_false, Bool.true_and] at hpath
      exact hpath
  · have hafter : s' = ((s.setRegistry r left).record (.cancelled r path id)).release l :=
      (Prod.mk.inj (hcancel'.symm.trans hcancel)).2
    have hcancelled := (Acts.keeps (.single (.closing (.cancelled s hreg hleft))) hstreaming).1
    rw [hafter, hcancelled.get?_subscriptions_release]
    rfl
  · exact hclosings.acts.dispatches_eq

/-- A listener owns two streams of changes, one at its own path and one at another one. With it both
paths go, and a third one keeps its listeners, of which one is a stream that nobody owns. -/
theorem cancel_releases_stream_beside :
    let respond : Nat → Delivery String → Program String Nat Unit Unit Unit := fun _ _ => .done ()
    let p : Program String Nat Unit Unit Unit :=
      .ask (.openRegistry ⟨"config", .blake3⟩) fun r => .ask (.subscribe r ["a"]) fun _ =>
        .ask (.subscribe r ["b"]) fun _ => .ask (.listen r ["c"] 0 []) fun _ =>
          .ask (.listen r ["a"] 0 [0, 1]) fun _ => .ask (.subscribe r ["c"]) fun _ => .done ()
    let paths : Registry String Nat → List (Path × List ListenerId) := fun registry =>
      registry.watched.map fun (path, g) => (path, g.map Prod.fst)
    ∃ result s registry, run respond 0 p (new ()) = some (result, s) ∧
      s.registry? 0 = some registry ∧
      paths registry = [(["a"], [1, 4]), (["b"], [2]), (["c"], [3, 5])] ∧
      ∃ s', s.cancel 0 ["a"] 4 = (true, s') ∧
        (s'.registry? 0).map paths = some [(["c"], [3, 5])] ∧
        Table.get? 0 s'.subscriptions = none ∧ Table.get? 1 s'.subscriptions = none ∧
        Table.get? 2 s'.subscriptions = Table.get? 2 s.subscriptions := by
  intro respond p paths
  have hall : ((run respond 0 p (new ())).any fun (_, s) =>
      (s.registry? 0).any fun registry => (Table.get? 4 (registry.group ["a"])).any fun l =>
        s.dispatches.isEmpty && decide (l.owned = [0, 1]) &&
        decide (paths registry = [(["a"], [1, 4]), (["b"], [2]), (["c"], [3, 5])]) &&
        decide (paths (registry.without fun path id =>
          decide (0 = 0 ∧ path = ["a"] ∧ id = 4) || l.owned.any fun n => s.isFedBy n 0 path id) =
            [(["c"], [3, 5])])) = true := by
    decide +kernel +zetaReduce
  obtain ⟨⟨result, s⟩, hrun, hall⟩ := (Option.any_eq_true _ _).mp hall
  obtain ⟨registry, hreg, hall⟩ := (Option.any_eq_true _ _).mp hall
  obtain ⟨l, hl, hall⟩ := (Option.any_eq_true _ _).mp hall
  rw [Bool.and_eq_true, Bool.and_eq_true, Bool.and_eq_true, List.isEmpty_iff, decide_eq_true_eq,
    decide_eq_true_eq, decide_eq_true_eq] at hall
  obtain ⟨⟨⟨hd, howned⟩, hbefore⟩, hleft⟩ := hall
  have hs : s.Reachable := reachable_run (.new ()) hrun
  obtain ⟨s', hcancel, hregistries, hsubscriptions, -⟩ := hs.cancel_releases (by simp [hd]) hreg hl
  refine ⟨result, s, registry, hrun, hreg, hbefore, s', hcancel, ?_, ?_, ?_, ?_⟩
  · rw [hregistries, hreg, Option.map_some, Option.map_some, hleft]
  · rw [hsubscriptions, howned]
    rfl
  · rw [hsubscriptions, howned]
    rfl
  · rw [hsubscriptions, howned]
    rfl

end Hub

end ConfigTree
