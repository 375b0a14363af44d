import ConfigTree.Proofs.Lockstep
/-!
# Streams of changes

A subscription is a stream of the changes at its path. What it yielded and what it still holds are
what its listener was told, a stream that waits ends with its registration, and closing one leaves
all others alone (`Hub.Streams`). A registration is gone when it is cancelled or its registry is,
and outside updates a registry is there as long as it has handles (`Hub.Manned`).
-/

namespace ConfigTree

variable {V C S N : Type}

namespace Registry

variable {registry : Registry V C} {r : RegistryId} {h : List (Entry V N)}

theorem Reflects.isRegistered_iff (hr : registry.Reflects r h) {id : ListenerId} :
    registry.isRegistered id = true ↔ ∃ path, Listed r path id h := by
  rw [isRegistered, registrations, List.any_eq_true]
  constructor
  · rintro ⟨⟨id', l⟩, hm, hid⟩
    obtain ⟨⟨path, g⟩, hg, hm⟩ := List.mem_flatMap.mp hm
    obtain rfl := of_decide_eq_true hid
    exact ⟨path, hr.listed_of_mem hg hm⟩
  · rintro ⟨path, hl⟩
    obtain ⟨l, hl⟩ := Option.isSome_iff_exists.mp ((hr.listed path id).mpr hl)
    rw [group] at hl
    cases hg : Table.get? path registry.watched with
    | none => simp [hg, Table.get?] at hl
    | some g =>
      rw [hg] at hl
      exact ⟨(id, l), List.mem_flatMap.mpr ⟨_, Table.mem_of_get? hg, Table.mem_of_get? hl⟩,
        decide_eq_true rfl⟩

end Registry

namespace Hub

variable {s s₁ s' : Hub V C S N} {r : RegistryId}

/-- The number of handles to a registry, if it is there. -/
def handles? (s : Hub V C S N) (r : RegistryId) : Option Nat :=
  (s.registry? r).map Registry.handles

/-- A registry without handles is there only while a snapshot is dispatched for it. -/
def Manned (s : Hub V C S N) : Prop :=
  ∀ r, s.handles? r = some 0 → s.dispatches.any (·.registry = r) = true

theorem handles?_setRegistry (s : Hub V C S N) (r r' : RegistryId) (registry : Registry V C) :
    (s.setRegistry r registry).handles? r' =
      if r' = r then some registry.handles else s.handles? r' := by
  rw [handles?, registry?_setRegistry]
  split <;> rfl

/-- A registry that changes but keeps its handles. -/
theorem handles?_alter {registry : Registry V C} (hreg : s.registry? r = some registry)
    (registry' : Registry V C) (hh : registry'.handles = registry.handles) (r' : RegistryId) :
    (s.setRegistry r registry').handles? r' = s.handles? r' := by
  rw [handles?_setRegistry]
  split
  · next hr => rw [hr, handles?, hreg, hh]; rfl
  · rfl

theorem handles?_register {registry : Registry V C} (hreg : s.registry? r = some registry)
    (path : Path) (l : Listener C) (r' : RegistryId) :
    (s.register r registry path l).handles? r' = s.handles? r' :=
  handles?_alter hreg (registry.listen path l) rfl r'

theorem Closing.handles?_eq (h : Closing s s') (r : RegistryId) : s'.handles? r = s.handles? r := by
  cases h with
  | @cancelled r' registry left path id l hreg hc =>
    have hh : left.handles = registry.handles := by
      rw [← (Prod.mk.inj hc).2]
    exact handles?_alter hreg left hh r
  | closed => rfl
  | detached => rfl

theorem Closings.handles?_eq (h : Closings s s') (r : RegistryId) :
    s'.handles? r = s.handles? r := by
  induction h with
  | refl => rfl
  | tail _ hclosing ih => rw [hclosing.handles?_eq, ih]

theorem handles?_eq_none_iff : s.handles? r = none ↔ s.registry? r = none :=
  Option.map_eq_none_iff

theorem handles?_endIfUnused (ha : Table.Ascending s.registries) (r r' : RegistryId) :
    (s.endIfUnused r).handles? r' =
      if r' = r ∧ s.handles? r = some 0 ∧ ¬ s.dispatches.any (·.registry = r) = true then none
      else s.handles? r' := by
  rcases endIfUnused_cases s r with ⟨he, hused⟩ | ⟨⟨registry, hreg, hz, hd⟩, hclosings⟩
  · rw [he, if_neg]
    rintro ⟨-, hz, hd⟩
    obtain ⟨registry, hreg, hz⟩ := Option.map_eq_some_iff.mp hz
    exact hd (hused registry hreg hz)
  · rw [hclosings.handles?_eq]
    have hunused : s.handles? r = some 0 := by rw [handles?, hreg, ← hz]; rfl
    by_cases hr : r' = r
    · rw [if_pos ⟨hr, hunused, hd⟩, hr]
      exact handles?_eq_none_iff.mpr (Table.get?_erase_self ha)
    · rw [if_neg fun h => hr h.1]
      exact congrArg _ (Table.get?_erase_ne hr _)

/-- The number of handles to a registry after a request. -/
def handlesAfter (s : Hub V C S N) : Request V C S N → RegistryId → Option Nat
  | .openRegistry _, r => if r = s.nextRegistry then some 1 else s.handles? r
  | .addHandle r', r => if r = r' then (s.handles? r).map (· + 1) else s.handles? r
  | .dropHandle r', r =>
    if r = r' then
      (s.handles? r).bind fun n =>
        if n - 1 = 0 ∧ ¬ s.dispatches.any (·.registry = r) = true then none else some (n - 1)
    else s.handles? r
  | _, r => s.handles? r

theorem handles?_perform (hs : s.Consistent) (q : Request V C S N) (r : RegistryId) :
    (q.perform s).2.handles? r = s.handlesAfter q r := by
  cases q with
  | openRegistry settings => exact handles?_setRegistry s s.nextRegistry r (.new settings)
  | addHandle r' =>
    rw [Request.perform, addHandle, handlesAfter]
    split
    · next h =>
      split
      · next hr => rw [hr, handles?_eq_none_iff.mpr h]; rfl
      · rfl
    · next registry h =>
      rw [handles?_setRegistry]
      split
      · next hr => rw [hr, handles?, h]; rfl
      · rfl
  | dropHandle r' =>
    rw [Request.perform, dropHandle, handlesAfter]
    split
    · next h =>
      split
      · next hr => rw [hr, handles?_eq_none_iff.mpr h]; rfl
      · rfl
    · next registry h =>
      rw [handles?_endIfUnused (Table.ascending_insert hs.ascending), handles?_setRegistry,
        handles?_setRegistry, if_pos rfl]
      by_cases hr : r = r'
      · rw [hr, if_pos rfl, if_pos rfl, handles?, h]
        simp [setRegistry]
      · rw [if_neg hr, if_neg hr, if_neg fun h => hr h.1]
  | look r' => rfl
  | listen r' path code owned =>
    rw [Request.perform, listen]
    split
    · rfl
    · next registry h => exact handles?_register h path _ r
  | cancel r' path id => exact (cancel_closings s r' path id).handles?_eq r
  | subscribe r' path =>
    rw [Request.perform, subscribe]
    split
    · rfl
    · next registry h => exact handles?_register h path _ r
  | poll n =>
    rw [Request.perform, poll]
    split
    · rfl
    · split
      · rfl
      · rfl
  | close n => exact (close_closings s n).handles?_eq r
  | ambient => rfl
  | setAmbient a => rfl
  | note n => rfl

theorem Manned.perform (h : s.Manned) (hs : s.Consistent) (q : Request V C S N) :
    (q.perform s).2.Manned := by
  intro r hz
  rw [handles?_perform hs] at hz
  rw [(perform_acts s q).dispatches_eq]
  cases q with
  | openRegistry settings =>
    rw [handlesAfter] at hz
    split at hz
    · cases hz
    · exact h r hz
  | addHandle r' =>
    rw [handlesAfter] at hz
    split at hz
    · obtain ⟨n, -, hn⟩ := Option.map_eq_some_iff.mp hz
      cases hn
    · exact h r hz
  | dropHandle r' =>
    rw [handlesAfter] at hz
    split at hz
    · obtain ⟨n, -, hn⟩ := Option.bind_eq_some_iff.mp hz
      split at hn
      · cases hn
      · next hused => exact Decidable.not_not.mp fun hd => hused ⟨Option.some.inj hn, hd⟩
    · exact h r hz
  | _ => exact h r hz

theorem Manned.endUpdate (h : s.Manned) (hs : s.Consistent) : s.endUpdate.Manned := by
  rcases endUpdate_cases s with ⟨-, he⟩ | ⟨d, outer, s₁, hd, hclosings, he⟩
  · rw [he]
    exact h
  · have hpopped : ({ s with dispatches := outer } : Hub V C S N).Consistent :=
      hs.congr rfl rfl rfl
    have hs₁ : s₁.Consistent := hpopped.steps hclosings.acts.steps
    have hdispatches : s₁.dispatches = outer := hclosings.acts.dispatches_eq
    intro r hz
    rw [he, handles?_endIfUnused hs₁.ascending] at hz
    rw [he, (endIfUnused_acts s₁ d.registry).dispatches_eq, hdispatches]
    split at hz
    · cases hz
    · next hused =>
      have hany := h r ((hclosings.handles?_eq r).symm.trans hz)
      rw [hd, List.any_cons, Bool.or_eq_true] at hany
      rcases hany with hr | hany
      · obtain rfl := of_decide_eq_true hr
        rw [hdispatches] at hused
        exact Decidable.not_not.mp fun hd => hused ⟨rfl, hz, hd⟩
      · exact hany

theorem Manned.beginUpdate (h : s.Manned) {registry : Registry V C}
    (hreg : s.registry? r = some registry) (tree : Tree V) :
    (s.beginUpdate r registry tree).Manned := by
  intro r' hz
  have hkept := handles?_alter hreg { registry with current := some tree } rfl r'
  have hany := h r' (hkept.symm.trans hz)
  rw [Hub.beginUpdate, List.any_cons]
  exact Bool.or_eq_true_iff.mpr (.inr hany)

theorem Manned.push (h : s.Manned) (n : SubscriptionId) (d : Delivery V) : (s.push n d).Manned := by
  intro r hz
  rw [handles?, registry?, registries_push] at hz
  rw [dispatches_push]
  exact h r hz

/-- The listeners that are registered at a path, if the registry is there. -/
def group? (s : Hub V C S N) (r : RegistryId) (path : Path) : Option (Group C) :=
  (s.registry? r).map (·.group path)

theorem group?_unregister (hs : s.Consistent) {registry : Registry V C}
    (hreg : s.registry? r = some registry) (path : Path) (id : ListenerId) (r' : RegistryId)
    (path' : Path) : (s.unregister r registry path id).2.group? r' path' =
      if r' = r ∧ path' = path then (s.group? r' path').map (Table.erase id)
      else s.group? r' path' := by
  have hgroup : s.group? r path = some (registry.group path) := by rw [group?, hreg]; rfl
  rw [unregister]
  split
  · next hc =>
    have hnone : Table.get? id (registry.group path) = none := (Prod.mk.inj hc).1
    split
    · next h =>
      rw [h.1, h.2, hgroup]
      exact congrArg some (Table.erase_eq_self hnone).symm
    · rfl
  · next l left hc =>
    have hleft := Registry.group_cancel (hs.reflects r registry hreg).ascending hc
    rw [group?, registry?_record, registry?_setRegistry]
    by_cases hr : r' = r
    · rw [if_pos hr, Option.map_some, hleft]
      by_cases hpath : path' = path
      · rw [if_pos hpath, if_pos ⟨hr, hpath⟩, hr, hpath, hgroup]
        rfl
      · rw [if_neg hpath, if_neg fun h => hpath h.2, hr, group?, hreg]
        rfl
    · rw [if_neg hr, if_neg fun h => hr h.1]
      rfl

/-- Closing a subscription removes its own registration and nothing else. -/
theorem group?_close (hs : s.Consistent) {n : SubscriptionId} {sub : Subscription V}
    (hsub : Table.get? n s.subscriptions = some sub) (r : RegistryId) (path : Path) :
    (s.close n).group? r path =
      if r = sub.registry ∧ path = sub.path then (s.group? r path).map (Table.erase sub.listener)
      else s.group? r path := by
  have hclosed : ({ s with subscriptions := Table.erase n s.subscriptions }
      : Hub V C S N).Consistent := hs.congr rfl rfl rfl
  rw [close, hsub]
  dsimp only
  split
  · next hnone =>
    split
    · next h =>
      have hnone : s.registry? sub.registry = none := hnone
      rw [h.1, group?, group?, hnone]
      exact congrArg _ hnone
    · rfl
  · next registry hreg => exact group?_unregister hclosed hreg sub.path sub.listener r path

theorem subscriptions_close (ha : Table.Ascending s.subscriptions) {n : SubscriptionId}
    {sub : Subscription V} (hsub : Table.get? n s.subscriptions = some sub) (m : SubscriptionId) :
    Table.get? m (s.close n).subscriptions =
      if m = n then none else Table.get? m s.subscriptions := by
  have hclosed : Table.get? m (Table.erase n s.subscriptions) =
      if m = n then none else Table.get? m s.subscriptions := by
    split
    · next hm => rw [hm, Table.get?_erase_self ha]
    · next hm => rw [Table.get?_erase_ne hm]
  rw [← hclosed, close, hsub]
  dsimp only
  split
  · rfl
  · rw [unregister]
    split <;> rfl

end Hub

end ConfigTree
