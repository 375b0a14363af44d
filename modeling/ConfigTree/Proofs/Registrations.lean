import ConfigTree.Proofs.Streams
/-!
# The book of registrations

What a registry holds at a path is what was registered there less what was cancelled, and the
journal tells both (`Hub.Book`). Listeners come and go by requests, by callbacks and with the
streams that other listeners own; each way ends in a registration under a fresh number or in the
cancellation of one that is there (`CancelsListed`). A cancellation that finds nothing looks at a
group that is not empty, or at none, and so it leaves the table as it is.
-/

namespace ConfigTree

variable {V C S N : Type}

namespace Entry

/-- The listener whose registration at a path the entry ends. -/
def removal? (r : RegistryId) (path : Path) : Entry V N → Option ListenerId
  | cancelled r' path' id => if r' = r ∧ path' = path then some id else none
  | _ => none

/-- The number that the entry issues in a registry. -/
def issue? (r : RegistryId) : Entry V N → Option ListenerId
  | registered r' _ id => if r' = r then some id else none
  | _ => none

theorem removal?_eq_some {r : RegistryId} {path : Path} {id : ListenerId} {e : Entry V N} :
    e.removal? r path = some id ↔ e = .cancelled r path id := by
  cases e <;> simp [removal?, and_assoc]

theorem issue?_eq_some {r : RegistryId} {id : ListenerId} {e : Entry V N} :
    e.issue? r = some id ↔ ∃ path, e = .registered r path id := by
  cases e <;> simp [issue?]

end Entry

/-- The numbers that a registry issued, in order. -/
def issued (r : RegistryId) (h : List (Entry V N)) : List ListenerId :=
  h.filterMap (Entry.issue? r)

/-- The listeners that were registered at a path, in order. -/
def registeredAt (r : RegistryId) (path : Path) (h : List (Entry V N)) : List ListenerId :=
  h.filterMap (Entry.listener? r path)

/-- The listeners that were removed from a path, in order. -/
def removedFrom (r : RegistryId) (path : Path) (h : List (Entry V N)) : List ListenerId :=
  h.filterMap (Entry.removal? r path)

/-- Only what is registered is cancelled. -/
structure CancelsListed (h : List (Entry V N)) : Prop where
  once : h.Pairwise fun e e' => ∀ r path id, e = .cancelled r path id → e' ≠ .cancelled r path id
  made : ∀ r path id, .cancelled r path id ∈ h → .registered r path id ∈ h

section Journal

variable {h : List (Entry V N)} {r : RegistryId} {path : Path}

theorem CancelsListed.concat (hc : CancelsListed h) {e : Entry V N}
    (he : ∀ r path id, e = .cancelled r path id → Listed r path id h) :
    CancelsListed (h ++ [e]) where
  once := by
    refine List.pairwise_append.mpr ⟨hc.once, List.pairwise_singleton _ _, fun x hx y hy => ?_⟩
    rw [List.mem_singleton.mp hy]
    rintro r path id rfl heq
    exact (he r path id heq).2 hx
  made r path id hm := by
    rcases List.mem_append.mp hm with hm | hm
    · exact List.mem_append_left _ (hc.made r path id hm)
    · exact List.mem_append_left _ (he r path id (List.mem_singleton.mp hm).symm).1

theorem InOrder.issued_pairwise (ho : InOrder h) (r : RegistryId) :
    (issued r h).Pairwise (· < ·) := by
  refine List.pairwise_filterMap.mpr (ho.imp fun hlt id he id' he' => ?_)
  obtain ⟨path, he⟩ := Entry.issue?_eq_some.mp he
  obtain ⟨path', he'⟩ := Entry.issue?_eq_some.mp he'
  exact hlt r path id path' id' he he'

theorem InOrder.registeredAt_nodup (ho : InOrder h) (r : RegistryId) (path : Path) :
    (registeredAt r path h).Nodup := by
  refine List.pairwise_filterMap.mpr (ho.imp fun hlt id he id' he' => Nat.ne_of_lt ?_)
  exact hlt r path id path id' (Entry.listener?_eq_some.mp he) (Entry.listener?_eq_some.mp he')

theorem CancelsListed.removedFrom_nodup (hc : CancelsListed h) (r : RegistryId) (path : Path) :
    (removedFrom r path h).Nodup := by
  refine List.pairwise_filterMap.mpr (hc.once.imp ?_)
  rintro e e' hne id he id' he' rfl
  exact hne r path id (Entry.removal?_eq_some.mp he) (Entry.removal?_eq_some.mp he')

/-- Who was registered at a path is there or was removed. -/
theorem CancelsListed.length_listeners (hc : CancelsListed h) (ho : InOrder h) (r : RegistryId)
    (path : Path) : (listeners r path h).length + (removedFrom r path h).length =
      (registeredAt r path h).length := by
  have hremoved : (removedFrom r path h).Perm ((registeredAt r path h).filter fun id =>
      !h.all fun e => !e.isCancellation r path id) := by
    refine (List.perm_ext_iff_of_nodup (hc.removedFrom_nodup r path)
      ((ho.registeredAt_nodup r path).filter _)).mpr fun id => ?_
    rw [List.mem_filter, Bool.not_eq_true', ← Bool.not_eq_true, all_not_isCancellation_iff,
      Classical.not_not, removedFrom, registeredAt, List.mem_filterMap, List.mem_filterMap]
    simp only [Entry.removal?_eq_some, Entry.listener?_eq_some, exists_eq_right]
    exact ⟨fun hm => ⟨hc.made r path id hm, hm⟩, And.right⟩
  rw [hremoved.length_eq, listeners, ← registeredAt]
  exact (List.length_eq_length_filter_add _).symm

end Journal

namespace Registry

variable {registry : Registry V C} {r : RegistryId} {h : List (Entry V N)}

theorem inspect_eq (registry : Registry V C) :
    registry.inspect = "Registry \x7b name: " ++ Text.quoted registry.settings.name
      ++ ", current: "
      ++ (registry.current.map fun t => "Some(" ++ t.hash.inspect ++ ")").getD "None"
      ++ ", watched_paths: " ++ registry.watched.length.repr ++ " \x7d" := by
  unfold inspect
  cases registry.current with
  | none => rfl
  | some t => rfl

/-- The table keeps the paths with listeners, and no other ones. -/
theorem Reflects.mem_watched_iff (hr : registry.Reflects r h) {path : Path} :
    path ∈ registry.watched.map Prod.fst ↔ 0 < registry.count path := by
  rw [count, List.length_pos_iff, List.mem_map]
  constructor
  · rintro ⟨e, he, rfl⟩
    rw [hr.group_eq he]
    exact (hr.groups e he).1
  · intro hne
    cases hg : Table.get? path registry.watched with
    | none => simp [group, hg] at hne
    | some g => exact ⟨(path, g), Table.mem_of_get? hg, rfl⟩

theorem Reflects.nodup_registrations (hr : registry.Reflects r h) (ho : IssuedOnce h) :
    (registry.registrations.map Prod.fst).Nodup := by
  rw [registrations, List.map_flatMap]
  refine List.nodup_flatMap.mpr ⟨fun e he => Table.nodup_keys (hr.groups e he).2, ?_⟩
  refine hr.ascending.imp_of_mem fun he he' hlt id hid hid' => Std.ne_of_lt hlt ?_
  obtain ⟨entry, hm, rfl⟩ := List.mem_map.mp hid
  obtain ⟨entry', hm', heq⟩ := List.mem_map.mp hid'
  have hl' := hr.listed_of_mem he' hm'
  rw [heq] at hl'
  exact ho.path_eq (hr.listed_of_mem he hm).1 hl'.1

/-- The group in which nothing is found is not empty, unless there is none. -/
theorem Reflects.cancel_of_not_listed (hr : registry.Reflects r h) {path : Path} {id : ListenerId}
    (hl : ¬ Listed r path id h) : registry.cancel path id = (none, registry) := by
  have hnone : Table.get? id (registry.group path) = none := by
    rw [← Option.not_isSome_iff_eq_none, hr.listed]
    exact hl
  rw [Registry.cancel, hnone, Table.erase_eq_self hnone, group]
  cases hg : Table.get? path registry.watched with
  | none =>
    dsimp only [Option.getD_none]
    rw [if_pos List.isEmpty_nil, Table.erase_eq_self hg]
  | some g =>
    have hne : ¬ g.isEmpty := fun he =>
      (hr.groups _ (Table.mem_of_get? hg)).1 (List.isEmpty_iff.mp he)
    dsimp only [Option.getD_some]
    rw [if_neg hne, Table.insert_eq_self hr.ascending hg]

end Registry

namespace Hub

variable {s s₁ s' : Hub V C S N} {r : RegistryId} {registry left : Registry V C} {path : Path}
  {id : ListenerId} {l : Listener C}

theorem Step.cancelsListed (h : Step s s') (hs : s.Consistent) (hc : CancelsListed s.history) :
    CancelsListed s'.history := by
  cases h with
  | registered hreg path l =>
    rw [register, history_record]
    exact hc.concat fun _ _ _ heq => nomatch heq
  | @cancelled r registry left path id l hreg hcancel =>
    have hl : Table.get? id (registry.group path) = some l := (Prod.mk.inj hcancel).1
    rw [history_record]
    refine hc.concat fun r' path' id' heq => ?_
    cases heq
    exact ((hs.reflects r registry hreg).listed path id).mp (Option.isSome_of_eq_some hl)
  | taken => exact history_record _ _ ▸ hc.concat fun _ _ _ heq => nomatch heq
  | detached => exact history_record _ _ ▸ hc.concat fun _ _ _ heq => nomatch heq
  | noted => exact history_record _ _ ▸ hc.concat fun _ _ _ heq => nomatch heq
  | _ => exact hc

theorem Steps.cancelsListed (h : Steps s s') (hs : s.Orderly) (hc : CancelsListed s.history) :
    CancelsListed s'.history := by
  induction h with
  | refl => exact hc
  | tail hsteps hstep ih => exact hstep.cancelsListed (hs.steps hsteps).consistent ih

theorem invariant_cancelsListed :
    Invariant fun s : Hub V C S N => CancelsListed s.history where
  new _ := ⟨.nil, fun _ _ _ hm => nomatch hm⟩
  perform s hs hc q := (perform_steps s q).cancelsListed hs hc
  beginUpdate s r registry tree _ _ hc := by
    rw [history_beginUpdate]
    exact hc.concat fun _ _ _ heq => nomatch heq
  endUpdate s hs hc := (endUpdate_steps s).cancelsListed hs hc
  record s e he hc := by
    rw [history_record]
    refine hc.concat fun r path id heq => ?_
    rw [heq] at he
    cases he
  push s n d hc := by
    rw [history_push]
    exact hc

theorem Reachable.cancelsListed (hs : s.Reachable) : CancelsListed s.history :=
  invariant_cancelsListed.reachable hs

/-- The subscription is open, and fed by the registration. -/
def isFedBy (s : Hub V C S N) (n : SubscriptionId) (r : RegistryId) (path : Path)
    (id : ListenerId) : Bool :=
  (Table.get? n s.subscriptions).any fun sub =>
    sub.registry = r ∧ sub.path = path ∧ sub.listener = id

/-- The registrations that go when a listener is cancelled: its own one, and those of the
subscriptions that it owns, unless a dispatch under way keeps it alive. -/
def goesWith (s : Hub V C S N) (r : RegistryId) (path : Path) (id : ListenerId) (l : Listener C)
    (r' : RegistryId) (path' : Path) (id' : ListenerId) : Bool :=
  decide (r' = r ∧ path' = path ∧ id' = id) ||
    (!s.isDispatched r id && l.owned.any fun n => s.isFedBy n r' path' id')

theorem map_filter_eq_self {α : Type} {p : α → Bool} (hp : ∀ a, p a = true)
    (l? : Option (List α)) : l?.map (List.filter p) = l? := by
  cases l? with
  | none => rfl
  | some l => exact congrArg some (List.filter_eq_self.mpr fun a _ => hp a)

theorem close_of_get?_eq_none {n : SubscriptionId} (h : Table.get? n s.subscriptions = none) :
    s.close n = s := by
  rw [close, h]

theorem Consistent.map_erase_group? (hs : s.Consistent) (r : RegistryId) (path : Path)
    (id : ListenerId) : (s.group? r path).map (Table.erase id) =
      (s.group? r path).map (List.filter fun e => e.1 ≠ id) := by
  rw [group?, Option.map_map, Option.map_map]
  cases hreg : s.registry? r with
  | none => rfl
  | some registry =>
    exact congrArg some (Table.erase_eq_filter ((hs.reflects r registry hreg).group_ascending path))

theorem Consistent.group?_close (hs : s.Consistent) (n : SubscriptionId) (r : RegistryId)
    (path : Path) : (s.close n).group? r path =
      (s.group? r path).map (List.filter fun e => !s.isFedBy n r path e.1) := by
  cases hsub : Table.get? n s.subscriptions with
  | none =>
    rw [close_of_get?_eq_none hsub, map_filter_eq_self]
    simp [isFedBy, hsub]
  | some sub =>
    rw [Hub.group?_close hs hsub, hs.map_erase_group?]
    by_cases hat : r = sub.registry ∧ path = sub.path
    · simp [hat, isFedBy, hsub, eq_comm]
    · rw [if_neg hat, map_filter_eq_self]
      intro e
      have hother : ¬ (sub.registry = r ∧ sub.path = path ∧ sub.listener = e.1) := fun h =>
        hat ⟨h.1.symm, h.2.1.symm⟩
      simp only [isFedBy, hsub, Option.any_some, decide_eq_false hother, Bool.not_false]

theorem isFedBy_close (ha : Table.Ascending s.subscriptions) (n m : SubscriptionId)
    (r : RegistryId) (path : Path) (id : ListenerId) :
    (s.close n).isFedBy m r path id = (decide (m ≠ n) && s.isFedBy m r path id) := by
  cases hsub : Table.get? n s.subscriptions with
  | none =>
    rw [close_of_get?_eq_none hsub]
    by_cases hm : m = n
    · simp [hm, isFedBy, hsub]
    · simp [hm]
  | some sub =>
    rw [isFedBy, subscriptions_close ha hsub]
    by_cases hm : m = n
    · simp [hm]
    · simp [hm, isFedBy]

/-- Releasing a listener removes the registrations of the subscriptions that it owns. -/
theorem Streaming.group?_release (hs : s.Streaming) (l : Listener C) (r : RegistryId)
    (path : Path) : (s.release l).group? r path = (s.group? r path).map
      (List.filter fun e => !l.owned.any fun n => s.isFedBy n r path e.1) := by
  rw [release]
  induction l.owned generalizing s with
  | nil => exact (map_filter_eq_self (fun _ => rfl) _).symm
  | cons n rest ih =>
    have hclosed : (s.close n).Streaming := ((close_closings s n).acts.keeps hs).1
    rw [List.foldl_cons, ih hclosed, hs.consistent.group?_close, Option.map_map]
    congr 1
    funext g
    rw [Function.comp_apply, List.filter_filter]
    congr 1
    funext e
    -- what is left to be closed after the first one was fed by the same registrations before
    by_cases hfed : s.isFedBy n r path e.1 = true
    · simp [hfed]
    · have hrest : ∀ m, (s.close n).isFedBy m r path e.1 = s.isFedBy m r path e.1 := by
        intro m
        rw [isFedBy_close hs.ascending]
        by_cases hm : m = n
        · simp [hm, hfed]
        · simp [hm]
      simp [hfed, hrest]

theorem cancel_of_not_listed (hs : s.Consistent) (hreg : s.registry? r = some registry)
    (hl : ¬ Listed r path id s.history) : s.cancel r path id = (false, s) := by
  rw [cancel, hreg]
  dsimp only
  rw [unregister, (hs.reflects r registry hreg).cancel_of_not_listed hl]

/-- A listener that was cancelled is alive as long as it is dispatched to. -/
theorem Consistent.isAlive_cancelled (hs : s.Consistent) (hreg : s.registry? r = some registry)
    (hc : registry.cancel path id = (some l, left)) :
    isAlive ((s.setRegistry r left).record (.cancelled r path id)) r id = s.isDispatched r id := by
  have hs₁ := hs.step (.cancelled s hreg hc)
  have hleft : registry? ((s.setRegistry r left).record (.cancelled r path id)) r = some left := by
    rw [registry?_record, registry?_setRegistry, if_pos rfl]
  have hlisted : Listed r path id s.history :=
    ((hs.reflects r registry hreg).listed path id).mp
      (Option.isSome_of_eq_some (Prod.mk.inj hc).1)
  have hgone : ¬ left.isRegistered id = true := by
    rw [(hs₁.reflects r left hleft).isRegistered_iff]
    rintro ⟨path', hl⟩
    have hat := hs₁.issuedOnce.path_eq hl.1
      (history_record _ _ ▸ List.mem_append_left _ hlisted.1)
    rw [history_record, hat] at hl
    exact hl.2 (List.mem_append_right _ (List.mem_singleton_self _))
  rw [isAlive, hleft, Option.any_some, Bool.eq_false_of_not_eq_true hgone, Bool.false_or]
  rfl

theorem Streaming.cancel_of_listed (hs : s.Streaming) (hreg : s.registry? r = some registry)
    (hl : Table.get? id (registry.group path) = some l) :
    ∃ s', s.cancel r path id = (true, s') ∧ ∀ r' path', s'.group? r' path' =
      (s.group? r' path').map (List.filter fun e => !s.goesWith r path id l r' path' e.1) := by
  obtain ⟨left, hc⟩ : ∃ left, registry.cancel path id = (some l, left) := ⟨_, Prod.ext hl rfl⟩
  have hunregister : s.unregister r registry path id =
      (some l, (s.setRegistry r left).record (.cancelled r path id)) := by rw [unregister, hc]
  have halive := hs.consistent.isAlive_cancelled hreg hc
  have hs₁ := (Acts.keeps (.single (.closing (.cancelled s hreg hc))) hs).1
  have hgroup := fun r' path' =>
    group?_unregister hs.consistent hreg path id r' path'
  rw [hunregister] at hgroup
  generalize hafter : (s.setRegistry r left).record (.cancelled r path id) = s₁ at *
  have hfed : ∀ n r' path' id', s₁.isFedBy n r' path' id' = s.isFedBy n r' path' id' := by
    rw [← hafter]
    exact fun _ _ _ _ => rfl
  have hremoved : ∀ r' path', s₁.group? r' path' = (s.group? r' path').map
      (List.filter fun e => !decide (r' = r ∧ path' = path ∧ e.1 = id)) := by
    intro r' path'
    rw [hgroup, hs.consistent.map_erase_group?]
    by_cases hat : r' = r ∧ path' = path
    · simp [hat]
    · rw [if_neg hat, map_filter_eq_self]
      exact fun e => Bool.not_eq_true' _ ▸ decide_eq_false fun h => hat ⟨h.1, h.2.1⟩
  refine ⟨s₁.releaseIfGone r (id, l), ?_, fun r' path' => ?_⟩
  · rw [cancel, hreg]
    dsimp only
    rw [hunregister]
  · rw [releaseIfGone, halive]
    cases hd : s.isDispatched r id with
    | true => simp [hremoved, goesWith, hd]
    | false =>
      rw [if_neg Bool.false_ne_true, hs₁.group?_release, hremoved, Option.map_map]
      congr 1
      funext g
      rw [Function.comp_apply, List.filter_filter]
      congr 1
      funext e
      simp only [hfed, goesWith, hd, Bool.not_false, Bool.true_and, Bool.not_or, Bool.and_comm]

/-- What a registry holds, in terms of what was registered and cancelled. -/
structure Book (s : Hub V C S N) (r : RegistryId) (registry : Registry V C) : Prop where
  /-- Exactly the paths with listeners are in the table, each of them once. -/
  watched : ∀ path, path ∈ registry.watched.map Prod.fst ↔ 0 < registry.count path
  paths : (registry.watched.map Prod.fst).Nodup
  /-- The inspection form tells how many paths have listeners. -/
  inspect : ∀ paths : List Path, paths.Nodup → (∀ path, path ∈ paths ↔ 0 < registry.count path) →
    registry.inspect = "Registry \x7b name: " ++ Text.quoted registry.settings.name
      ++ ", current: "
      ++ (registry.current.map fun t => "Some(" ++ t.hash.inspect ++ ")").getD "None"
      ++ ", watched_paths: " ++ paths.length.repr ++ " \x7d"
  /-- A number is in the table once at most. -/
  numbers : (registry.registrations.map Prod.fst).Nodup
  /-- Numbers were issued in ascending order, and the next one is above all of them. -/
  issued : (issued r s.history ++ [registry.nextId]).Pairwise (· < ·)
  listen : ∀ path code owned, ∃ s', s.listen r path code owned = (some registry.nextId, s') ∧
    s'.history = s.history ++ [.registered r path registry.nextId]
  subscribe : ∀ path, ∃ n s', s.subscribe r path = (some (n, registry.nextId), s') ∧
    s'.history = s.history ++ [.registered r path registry.nextId]
  /-- The listeners at a path are those that were registered there and not removed. -/
  count : ∀ path, registry.count path + (removedFrom r path s.history).length =
    (registeredAt r path s.history).length
  /-- Who is there can be cancelled, and goes with the streams of its own. -/
  cancelled : ∀ path id, .registered r path id ∈ s.history → .cancelled r path id ∉ s.history →
    ∃ l s', Table.get? id (registry.group path) = some l ∧ s.cancel r path id = (true, s') ∧
      ∀ r' path', s'.group? r' path' =
        (s.group? r' path').map (List.filter fun e => !s.goesWith r path id l r' path' e.1)
  /-- Without streams of its own it goes alone, and the others stay in their order. -/
  alone : ∀ path id l, Table.get? id (registry.group path) = some l → l.owned = [] →
    ∃ s', s.cancel r path id = (true, s') ∧ ∀ r' path', s'.group? r' path' =
      if r' = r ∧ path' = path then (s.group? r' path').map (List.filter fun e => e.1 ≠ id)
      else s.group? r' path'
  /-- Whatever else is cancelled, nothing changes, in the table as well. -/
  refused : ∀ path id, .registered r path id ∉ s.history ∨ .cancelled r path id ∈ s.history →
    s.cancel r path id = (false, s) ∧ registry.cancel path id = (none, registry)

/-- Every registry keeps its book, whatever callers and callbacks do and in whatever order. -/
theorem Reachable.keeps_book (hs : s.Reachable) (hreg : s.registry? r = some registry) :
    s.Book r registry := by
  have hstreaming := hs.streaming
  have hc := hstreaming.consistent
  have ho := hs.orderly.inOrder
  have hr := hc.reflects r registry hreg
  have hpaths : (registry.watched.map Prod.fst).Nodup := Table.nodup_keys hr.ascending
  constructor
  case watched => exact fun path => hr.mem_watched_iff
  case paths => exact hpaths
  case inspect =>
    intro paths hnodup hmem
    have hperm : paths.Perm (registry.watched.map Prod.fst) :=
      (List.perm_ext_iff_of_nodup hnodup hpaths).mpr fun path => by
        rw [hmem, hr.mem_watched_iff]
    have hlength : registry.watched.length = paths.length := by
      rw [hperm.length_eq, List.length_map]
    rw [Registry.inspect_eq, hlength]
  case numbers => exact hr.nodup_registrations hc.issuedOnce
  case issued =>
    refine List.pairwise_append.mpr
      ⟨ho.issued_pairwise r, List.pairwise_singleton _ _, fun id hid next hnext => ?_⟩
    obtain ⟨e, he, hissue⟩ := List.mem_filterMap.mp hid
    obtain ⟨path, rfl⟩ := Entry.issue?_eq_some.mp hissue
    rw [List.mem_singleton.mp hnext]
    exact hr.issued _ he id rfl
  case listen =>
    intro path code owned
    rw [Hub.listen, hreg]
    exact ⟨_, rfl, history_record _ _⟩
  case subscribe =>
    intro path
    rw [Hub.subscribe, hreg]
    exact ⟨_, _, rfl, history_record _ _⟩
  case count =>
    intro path
    rw [← hs.cancelsListed.length_listeners ho r path, ← hr.map_group ho, List.length_map]
    rfl
  case cancelled =>
    intro path id hmade hkept
    obtain ⟨l, hl⟩ := Option.isSome_iff_exists.mp ((hr.listed path id).mpr ⟨hmade, hkept⟩)
    obtain ⟨s', hcancel, hgroup⟩ := hstreaming.cancel_of_listed hreg hl
    exact ⟨l, s', hl, hcancel, hgroup⟩
  case alone =>
    intro path id l hl howned
    obtain ⟨s', hcancel, hgroup⟩ := hstreaming.cancel_of_listed hreg hl
    refine ⟨s', hcancel, fun r' path' => ?_⟩
    rw [hgroup]
    by_cases hat : r' = r ∧ path' = path
    · simp [hat, goesWith, howned]
    · rw [if_neg hat, map_filter_eq_self]
      intro e
      have hother : ¬ (r' = r ∧ path' = path ∧ e.1 = id) := fun h => hat ⟨h.1, h.2.1⟩
      simp only [goesWith, howned, List.any_nil, Bool.and_false, Bool.or_false,
        decide_eq_false hother, Bool.not_false]
  case refused =>
    intro path id hgone
    have hl : ¬ Listed r path id s.history := fun hl => hgone.elim (· hl.1) hl.2
    exact ⟨cancel_of_not_listed hc hreg hl, hr.cancel_of_not_listed hl⟩

/-- A listener cancels itself while it is told of a change, and another one, at a path where nothing
changed, owns a stream of changes: when it is cancelled, the stream's registration goes with it. -/
theorem keeps_book_after_cancellations :
    let t := (Tree.empty ⟨.blake3, Encoding.utf8⟩ 0).replay 1 [.insert ["a"] "1"]
    let respond : Nat → Delivery String → Program String Nat Unit Unit Unit := fun _ _ =>
      .ask (.cancel 0 ["a"] 1) fun _ => .done ()
    let p : Program String Nat Unit Unit Unit :=
      .ask (.openRegistry ⟨"config", .blake3⟩) fun r => .ask (.listen r ["a"] 0 []) fun _ =>
        .ask (.subscribe r ["a"]) fun _ => .ask (.listen r ["b"] 0 [0]) fun _ =>
          .ask (.cancel r ["b"] 1) fun _ => .update r t fun _ => .done ()
    ∃ result s registry, run respond 1 p (new ()) = some (result, s) ∧
      s.registry? 0 = some registry ∧ s.Book 0 registry ∧ registry.count ["a"] = 1 ∧
      s.cancel 0 ["a"] 1 = (false, s) ∧
      ∃ s', s.cancel 0 ["b"] 3 = (true, s') ∧ s'.group? 0 ["a"] = some [] := by
  intro t respond p
  have hall : ((run respond 1 p (new ())).any fun (_, s) =>
      (s.registry? 0).any fun registry => (Table.get? 3 (registry.group ["b"])).any fun l =>
        decide (registry.count ["a"] = 1) && s.history.any (·.isCancellation 0 ["a"] 1) &&
        s.history.any (·.registration? = some (0, ["b"], 3)) &&
        (s.history.all fun e => !e.isCancellation 0 ["b"] 3) &&
        (registry.group ["a"]).all fun e => s.goesWith 0 ["b"] 3 l 0 ["a"] e.1) = true := by
    decide +kernel +zetaReduce
  obtain ⟨⟨result, s⟩, hrun, hall⟩ := (Option.any_eq_true _ _).mp hall
  obtain ⟨registry, hreg, hall⟩ := (Option.any_eq_true _ _).mp hall
  obtain ⟨l, hl, hall⟩ := (Option.any_eq_true _ _).mp hall
  simp only [Bool.and_eq_true, decide_eq_true_eq, List.any_eq_true, Entry.isCancellation_iff,
    Entry.registration?_eq_some, exists_eq_right, all_not_isCancellation_iff] at hall
  obtain ⟨⟨⟨⟨hcount, hgone⟩, hmade⟩, hkept⟩, howned⟩ := hall
  have hs : s.Reachable := reachable_run (.new ()) hrun
  have hbook : s.Book 0 registry := hs.keeps_book hreg
  obtain ⟨l', s', hl', hcancel, hgroup⟩ := hbook.cancelled ["b"] 3 hmade hkept
  cases hl.symm.trans hl'
  refine ⟨result, s, registry, hrun, hreg, hbook, hcount, (hbook.refused _ _ (.inr hgone)).1, s',
    hcancel, ?_⟩
  have hnone : (registry.group ["a"]).filter (fun e => !s.goesWith 0 ["b"] 3 l 0 ["a"] e.1) = [] :=
    List.filter_eq_nil_iff.mpr fun e he => by simp [List.all_eq_true.mp howned e he]
  rw [hgroup, group?, hreg, Option.map_some, Option.map_some, hnone]

end Hub

end ConfigTree
