import ConfigTree.Proofs.Dispatch
/-!
# Queues hold what was delivered and not taken

Every open subscription has a listener of its own: no other one feeds it, and that one does nothing
else (`Hub.Known`). So what was taken from its queue and what is left in it are together what was
delivered to that listener (`Hub.Streaming`). This holds whenever code runs, also in the middle of
an update: a delivery to a queue is complete before any code runs.
-/

namespace ConfigTree

variable {V C S N : Type}

/-- What the entry takes from the queue of a subscription. -/
def Entry.taken? (n : SubscriptionId) : Entry V N → Option (Delivery V)
  | taken n' d => if n' = n then some d else none
  | _ => none

/-- What was taken from the queue of a subscription. -/
def taken (n : SubscriptionId) (h : List (Entry V N)) : List (Delivery V) :=
  h.filterMap (Entry.taken? n)

theorem taken_append (n : SubscriptionId) (h h' : List (Entry V N)) :
    taken n (h ++ h') = taken n h ++ taken n h' := List.filterMap_append

/-- The entry neither delivers anything nor takes anything from a queue. -/
def Entry.IsQuiet (e : Entry V N) : Prop :=
  (∀ r id, e.delivery? r id = none) ∧ ∀ n, e.taken? n = none

section Quiet

variable {piece : List (Entry V N)} (hp : ∀ e ∈ piece, e.IsQuiet)

include hp

theorem deliveries_append_quiet (r : RegistryId) (id : ListenerId) (h : List (Entry V N)) :
    deliveries r id (h ++ piece) = deliveries r id h := by
  have hnone : deliveries r id piece = [] :=
    List.filterMap_eq_nil_iff.mpr fun e he => (hp e he).1 r id
  rw [deliveries_append, hnone, List.append_nil]

theorem taken_append_quiet (n : SubscriptionId) (h : List (Entry V N)) :
    taken n (h ++ piece) = taken n h := by
  have hnone : taken n piece = [] := List.filterMap_eq_nil_iff.mpr fun e he => (hp e he).2 n
  rw [taken_append, hnone, List.append_nil]

end Quiet

namespace Hub

/-- A listener that was registered, and feeds an open subscription exactly if it is the one of that
subscription. -/
structure Known (s : Hub V C S N) (r : RegistryId) (entry : ListenerId × Listener C) : Prop where
  registered : ∃ path, .registered r path entry.1 ∈ s.history
  numbered : ∀ n, entry.2.reaction = .feed n → n < s.nextSubscription
  feeds : ∀ n sub, Table.get? n s.subscriptions = some sub →
    (entry.2.reaction = .feed n ↔ sub.registry = r ∧ sub.listener = entry.1)

/-- Every open subscription has a listener of its own, and its queue is what was delivered to that
one and not taken. -/
structure Streaming (s : Hub V C S N) : Prop where
  consistent : s.Consistent
  ascending : Table.Ascending s.subscriptions
  numbered : ∀ n sub, Table.get? n s.subscriptions = some sub → n < s.nextSubscription
  untaken : ∀ n, s.nextSubscription ≤ n → taken n s.history = []
  unheard : ∀ r id, (∀ path, .registered r path id ∉ s.history) → deliveries r id s.history = []
  registered : ∀ n sub, Table.get? n s.subscriptions = some sub →
    .registered sub.registry sub.path sub.listener ∈ s.history
  queue_eq : ∀ n sub, Table.get? n s.subscriptions = some sub →
    taken n s.history ++ sub.queue = deliveries sub.registry sub.listener s.history
  known : ∀ r registry path entry, s.registry? r = some registry → entry ∈ registry.group path →
    s.Known r entry

theorem streaming_new (ambient : S) : (new ambient : Hub V C S N).Streaming where
  consistent := consistent_new ambient
  ascending := .nil
  numbered _ _ h := nomatch h
  untaken _ _ := rfl
  unheard _ _ _ := rfl
  registered _ _ h := nomatch h
  queue_eq _ _ h := nomatch h
  known _ _ _ _ h := nomatch h

variable {s s₁ s' : Hub V C S N}

/-- Queues go on to hold what was delivered and not taken, and known listeners stay known. -/
def Keeps (s s' : Hub V C S N) : Prop :=
  s'.Streaming ∧ ∀ r entry, s.Known r entry → s'.Known r entry

theorem Keeps.trans (h : Keeps s s₁) (h' : Keeps s₁ s') : Keeps s s' :=
  ⟨h'.1, fun r entry hk => h'.2 r entry (h.2 r entry hk)⟩

theorem Known.mono {r : RegistryId} {entry : ListenerId × Listener C} (h : s.Known r entry)
    (hh : s.history <+: s'.history) (hn : s.nextSubscription ≤ s'.nextSubscription)
    (hsub : ∀ n sub', Table.get? n s'.subscriptions = some sub' →
      ∃ sub, Table.get? n s.subscriptions = some sub ∧
        sub.registry = sub'.registry ∧ sub.listener = sub'.listener) : s'.Known r entry where
  registered := h.registered.imp fun _ hm => hh.subset hm
  numbered n hf := Nat.lt_of_lt_of_le (h.numbered n hf) hn
  feeds n sub' hget := by
    obtain ⟨sub, hold, hr, hl⟩ := hsub n sub' hget
    rw [← hr, ← hl]
    exact h.feeds n sub hold

/-- No queue changes, though subscriptions may be closed, and listeners that are new run
callbacks. -/
structure Spares (s s' : Hub V C S N) : Prop where
  history : ∃ piece, s'.history = s.history ++ piece ∧ ∀ e ∈ piece, e.IsQuiet
  nextSubscription_eq : s'.nextSubscription = s.nextSubscription
  subscriptions : ∀ n sub, Table.get? n s'.subscriptions = some sub →
    Table.get? n s.subscriptions = some sub
  ascending : Table.Ascending s.subscriptions → Table.Ascending s'.subscriptions
  groups : ∀ r registry' path entry, s'.registry? r = some registry' →
    entry ∈ registry'.group path →
    (∃ registry, s.registry? r = some registry ∧ entry ∈ registry.group path) ∨
      (∀ path', .registered r path' entry.1 ∉ s.history) ∧
        .registered r path entry.1 ∈ s'.history ∧ ∃ code, entry.2.reaction = .callback code

theorem Spares.keeps (h : Spares s s') (hs : s.Streaming) (hc : s'.Consistent) : Keeps s s' := by
  obtain ⟨piece, hh, hquiet⟩ := h.history
  have hgrows : s.history <+: s'.history := hh ▸ List.prefix_append _ _
  have hknown : ∀ r entry, s.Known r entry → s'.Known r entry := fun r entry hk =>
    hk.mono hgrows h.nextSubscription_eq.ge fun n sub hget =>
      ⟨sub, h.subscriptions n sub hget, rfl, rfl⟩
  refine ⟨⟨hc, h.ascending hs.ascending, ?_, ?_, ?_, ?_, ?_, ?_⟩, hknown⟩
  · intro n sub hget
    exact h.nextSubscription_eq ▸ hs.numbered n sub (h.subscriptions n sub hget)
  · intro n hn
    rw [hh, taken_append_quiet hquiet]
    exact hs.untaken n (h.nextSubscription_eq ▸ hn)
  · intro r id hno
    rw [hh, deliveries_append_quiet hquiet]
    exact hs.unheard r id fun path hm => hno path (hgrows.subset hm)
  · intro n sub hget
    exact hgrows.subset (hs.registered n sub (h.subscriptions n sub hget))
  · intro n sub hget
    rw [hh, taken_append_quiet hquiet, deliveries_append_quiet hquiet]
    exact hs.queue_eq n sub (h.subscriptions n sub hget)
  · intro r registry' path entry hreg hm
    rcases h.groups r registry' path entry hreg hm with ⟨registry, hold, hmem⟩ | ⟨hnew, hin, hcode⟩
    · exact hknown r entry (hs.known r registry path entry hold hmem)
    · obtain ⟨code, hcode⟩ := hcode
      refine ⟨⟨path, hin⟩, fun n hf => (nomatch hcode.symm.trans hf), fun n sub hget => ?_⟩
      have hsub := hs.registered n sub (h.subscriptions n sub hget)
      constructor
      · intro hf
        cases hcode.symm.trans hf
      · rintro ⟨rfl, hl⟩
        exact absurd (hl ▸ hsub) (hnew sub.path)

/-- An entry that is quiet. -/
theorem spares_record (s : Hub V C S N) {e : Entry V N} (he : e.IsQuiet) :
    Spares s (s.record e) where
  history := ⟨[e], history_record s e, fun _ hx => List.mem_singleton.mp hx ▸ he⟩
  nextSubscription_eq := rfl
  subscriptions _ _ h := h
  ascending h := h
  groups _ registry _ _ hreg hm := .inl ⟨registry, hreg, hm⟩

/-- Nothing changes but registries, and these only by groups that lose listeners. -/
theorem spares_of_groups (hh : s'.history = s.history)
    (hn : s'.nextSubscription = s.nextSubscription) (hs : s'.subscriptions = s.subscriptions)
    (hg : ∀ r registry' path entry, s'.registry? r = some registry' →
      entry ∈ registry'.group path →
      ∃ registry, s.registry? r = some registry ∧ entry ∈ registry.group path) : Spares s s' where
  history := ⟨[], hh.trans (List.append_nil _).symm, fun _ he => nomatch he⟩
  nextSubscription_eq := hn
  subscriptions _ _ h := hs ▸ h
  ascending h := hs ▸ h
  groups r registry' path entry hreg hm := .inl (hg r registry' path entry hreg hm)

/-- One registry changes, by a group that loses listeners or by a callback that is registered. -/
theorem spares_alter {r : RegistryId} {registry registry' : Registry V C} {e : Entry V N}
    (hreg : s.registry? r = some registry) (he : e.IsQuiet)
    (hg : ∀ path entry, entry ∈ registry'.group path → entry ∈ registry.group path ∨
      (∀ path', .registered r path' entry.1 ∉ s.history) ∧ e = .registered r path entry.1 ∧
        ∃ code, entry.2.reaction = .callback code) :
    Spares s ((s.setRegistry r registry').record e) where
  history := ⟨[e], history_record _ e, fun _ hx => List.mem_singleton.mp hx ▸ he⟩
  nextSubscription_eq := rfl
  subscriptions _ _ h := h
  ascending h := h
  groups r' x path entry hx hm := by
    rw [registry?_record, registry?_setRegistry] at hx
    split at hx
    · next hr =>
      cases hr
      cases hx
      rcases hg path entry hm with hold | ⟨hnew, rfl, hcode⟩
      · exact .inl ⟨registry, hreg, hold⟩
      · refine .inr ⟨hnew, ?_, hcode⟩
        rw [history_record]
        exact List.mem_append_right _ List.mem_cons_self
    · exact .inl ⟨x, hx, hm⟩

theorem spares_cancel (hs : s.Consistent) {r : RegistryId} {registry left : Registry V C}
    {path : Path} {id : ListenerId} {l : Listener C} (hreg : s.registry? r = some registry)
    (hc : registry.cancel path id = (some l, left)) :
    Spares s ((s.setRegistry r left).record (.cancelled r path id)) := by
  refine spares_alter hreg ⟨fun _ _ => rfl, fun _ => rfl⟩ fun path' entry hm => .inl ?_
  rw [Registry.group_cancel (hs.reflects r registry hreg).ascending hc] at hm
  split at hm
  · next hpath => exact hpath ▸ (Table.erase_sublist _ _).subset hm
  · exact hm

theorem spares_listen (hs : s.Consistent) {r : RegistryId} {registry : Registry V C}
    (hreg : s.registry? r = some registry) (path : Path) (code : C)
    (owned : List SubscriptionId) :
    Spares s (s.register r registry path ⟨.callback code, owned⟩) := by
  refine spares_alter hreg ⟨fun _ _ => rfl, fun _ => rfl⟩ fun path' entry hm => ?_
  rw [Registry.group_listen] at hm
  split at hm
  · next hpath =>
    rcases List.mem_append.mp hm with hm | hm
    · exact .inl (hpath ▸ hm)
    · cases List.mem_singleton.mp hm
      refine .inr ⟨fun path'' hold => ?_, by rw [hpath], code, rfl⟩
      exact Nat.lt_irrefl _ ((hs.reflects r registry hreg).issued _ hold _ rfl)
  · exact .inl hm

theorem spares_setRegistry {r : RegistryId} {registry registry' : Registry V C}
    (hreg : s.registry? r = some registry)
    (hg : ∀ path, registry'.group path = registry.group path) :
    Spares s (s.setRegistry r registry') := by
  refine spares_of_groups rfl rfl rfl fun r' x path entry hx hm => ?_
  rw [registry?_setRegistry] at hx
  split at hx
  · next hr =>
    cases hr
    cases hx
    exact ⟨registry, hreg, hg path ▸ hm⟩
  · exact ⟨x, hx, hm⟩

theorem spares_open (s : Hub V C S N) (settings : Settings) :
    Spares s (s.openRegistry settings).2 := by
  refine spares_of_groups rfl rfl rfl fun r x path entry hx hm => ?_
  have hget := (registry?_setRegistry s s.nextRegistry r (.new settings)).symm.trans hx
  split at hget
  · cases hget
    cases hm
  · exact ⟨x, hget, hm⟩

theorem spares_end (hs : s.Consistent) (r : RegistryId) :
    Spares s { s with registries := Table.erase r s.registries } :=
  spares_of_groups rfl rfl rfl fun _ x _ _ hx hm =>
    ⟨x, Table.get?_of_erase hs.ascending hx, hm⟩

theorem spares_closed (hs : s.Streaming) (n : SubscriptionId) :
    Spares s { s with subscriptions := Table.erase n s.subscriptions } where
  history := ⟨[], (List.append_nil _).symm, fun _ he => nomatch he⟩
  nextSubscription_eq := rfl
  subscriptions _ _ h := Table.get?_of_erase hs.ascending h
  ascending h := Table.ascending_erase h
  groups _ registry _ _ hreg hm := .inl ⟨registry, hreg, hm⟩

theorem Closing.spares (h : Closing s s') (hs : s.Streaming) : Spares s s' := by
  cases h with
  | cancelled hreg hc => exact spares_cancel hs.consistent hreg hc
  | closed n => exact spares_closed hs n
  | detached name path id => exact spares_record s ⟨fun _ _ => rfl, fun _ => rfl⟩

/-- The next number of a registry is not in use. -/
theorem Consistent.not_registered_nextId (hs : s.Consistent) {r : RegistryId}
    {registry : Registry V C} (hreg : s.registry? r = some registry) (path : Path) :
    .registered r path registry.nextId ∉ s.history := fun hm =>
  Nat.lt_irrefl _ ((hs.reflects r registry hreg).issued _ hm _ rfl)

section Subscribing

variable {r : RegistryId} {registry : Registry V C} {path : Path}

theorem history_openSubscription (s : Hub V C S N) (r : RegistryId) (registry : Registry V C)
    (path : Path) : (s.openSubscription r registry path).history =
      s.history ++ [.registered r path registry.nextId] := history_record _ _

theorem isQuiet_registered (r : RegistryId) (path : Path) (id : ListenerId) :
    ∀ e ∈ [(.registered r path id : Entry V N)], e.IsQuiet :=
  fun _ he => List.mem_singleton.mp he ▸ ⟨fun _ _ => rfl, fun _ => rfl⟩

/-- A subscription that is open now is the new one or an earlier one. -/
theorem Streaming.get?_openSubscription (hs : s.Streaming) {n : SubscriptionId}
    {sub : Subscription V}
    (h : Table.get? n (s.openSubscription r registry path).subscriptions = some sub) :
    n = s.nextSubscription ∧ sub = ⟨r, path, registry.nextId, []⟩ ∨
      n < s.nextSubscription ∧ Table.get? n s.subscriptions = some sub := by
  have hget : Table.get? n (s.openSubscription r registry path).subscriptions =
      if n = s.nextSubscription then some ⟨r, path, registry.nextId, []⟩
      else Table.get? n s.subscriptions := Table.get?_insert ..
  rw [hget] at h
  split at h
  · next hnew => exact .inl ⟨hnew, (Option.some.inj h).symm⟩
  · exact .inr ⟨hs.numbered n sub h, h⟩

theorem Streaming.known_openSubscription (hs : s.Streaming)
    (hreg : s.registry? r = some registry) {r' : RegistryId} {entry : ListenerId × Listener C}
    (hk : s.Known r' entry) : (s.openSubscription r registry path).Known r' entry where
  registered := by
    rw [history_openSubscription]
    exact hk.registered.imp fun _ hm => List.mem_append_left _ hm
  numbered n hf := Nat.lt_succ_of_lt (hk.numbered n hf)
  feeds n sub hsub := by
    rcases hs.get?_openSubscription hsub with ⟨rfl, rfl⟩ | ⟨-, hold⟩
    · constructor
      · intro hf
        exact absurd (hk.numbered _ hf) (Nat.lt_irrefl _)
      · rintro ⟨rfl, hl⟩
        obtain ⟨path', hm⟩ := hk.registered
        rw [← hl] at hm
        exact absurd hm (hs.consistent.not_registered_nextId hreg path')
    · exact hk.feeds n sub hold

/-- The new listener feeds the new subscription only. -/
theorem Streaming.known_new (hs : s.Streaming) (hreg : s.registry? r = some registry) :
    (s.openSubscription r registry path).Known r
      (registry.nextId, ⟨.feed s.nextSubscription, []⟩) where
  registered := by
    rw [history_openSubscription]
    exact ⟨path, List.mem_append_right _ List.mem_cons_self⟩
  numbered n hf := by
    cases hf
    exact Nat.lt_succ_self _
  feeds n sub hsub := by
    rcases hs.get?_openSubscription hsub with ⟨rfl, rfl⟩ | ⟨hlt, hold⟩
    · exact ⟨fun _ => ⟨rfl, rfl⟩, fun _ => rfl⟩
    · constructor
      · intro hf
        cases hf
        exact absurd hlt (Nat.lt_irrefl _)
      · rintro ⟨rfl, hl⟩
        have hm := hs.registered n sub hold
        rw [hl] at hm
        exact absurd hm (hs.consistent.not_registered_nextId hreg sub.path)

/-- A listener and the subscription that it feeds come into being together. -/
theorem Streaming.openSubscription (hs : s.Streaming) (hreg : s.registry? r = some registry)
    (path : Path) : Keeps s (s.openSubscription r registry path) := by
  have hquiet := isQuiet_registered (V := V) (N := N) r path registry.nextId
  have hknown : ∀ r' entry, s.Known r' entry →
      (s.openSubscription r registry path).Known r' entry :=
    fun _ _ hk => hs.known_openSubscription hreg hk
  refine ⟨⟨hs.consistent.steps (Act.subscribed s hreg path).steps,
    Table.ascending_insert hs.ascending, ?_, ?_, ?_, ?_, ?_, ?_⟩, hknown⟩
  · intro n sub hsub
    rcases hs.get?_openSubscription hsub with ⟨rfl, -⟩ | ⟨hlt, -⟩
    · exact Nat.lt_succ_self _
    · exact Nat.lt_succ_of_lt hlt
  · intro n hle
    rw [history_openSubscription, taken_append_quiet hquiet]
    exact hs.untaken n ((Nat.le_succ _).trans hle)
  · intro r' id hno
    rw [history_openSubscription] at hno ⊢
    rw [deliveries_append_quiet hquiet]
    exact hs.unheard r' id fun path' hm => hno path' (List.mem_append_left _ hm)
  · intro n sub hsub
    rw [history_openSubscription]
    rcases hs.get?_openSubscription hsub with ⟨-, rfl⟩ | ⟨-, hold⟩
    · exact List.mem_append_right _ List.mem_cons_self
    · exact List.mem_append_left _ (hs.registered n sub hold)
  · intro n sub hsub
    rw [history_openSubscription, taken_append_quiet hquiet, deliveries_append_quiet hquiet]
    rcases hs.get?_openSubscription hsub with ⟨rfl, rfl⟩ | ⟨-, hold⟩
    · rw [hs.untaken _ (Nat.le_refl _),
        hs.unheard r registry.nextId (hs.consistent.not_registered_nextId hreg)]
      rfl
    · exact hs.queue_eq n sub hold
  · intro r' x path' entry hx hm
    have hget := (registry?_setRegistry s r r' _).symm.trans hx
    split at hget
    · next hr =>
      cases hr
      cases hget
      rw [Registry.group_listen] at hm
      split at hm
      · rcases List.mem_append.mp hm with hm | hm
        · exact hknown r entry (hs.known r registry path entry hreg hm)
        · cases List.mem_singleton.mp hm
          exact hs.known_new hreg
      · exact hknown r entry (hs.known r registry path' entry hreg hm)
    · exact hknown r' entry (hs.known r' x path' entry hget hm)

end Subscribing

/-- The oldest delivery is taken from a queue. -/
theorem Streaming.take (hs : s.Streaming) {n : SubscriptionId} {sub : Subscription V}
    {d : Delivery V} {queue : List (Delivery V)}
    (hsub : Table.get? n s.subscriptions = some sub) (hq : sub.queue = d :: queue) :
    Keeps s (({ s with subscriptions := Table.insert n { sub with queue } s.subscriptions }
      : Hub V C S N).record (.taken n d)) := by
  have hget : ∀ m x, Table.get? m (Table.insert n { sub with queue } s.subscriptions) = some x →
      m = n ∧ x = { sub with queue } ∨ m ≠ n ∧ Table.get? m s.subscriptions = some x := by
    intro m x hm
    rw [Table.get?_insert] at hm
    split at hm
    · next hmn => exact .inl ⟨hmn, (Option.some.inj hm).symm⟩
    · next hmn => exact .inr ⟨hmn, hm⟩
  have htaken : ∀ m, taken m (s.history ++ [.taken n d]) =
      taken m s.history ++ if n = m then [d] else [] := by
    intro m
    rw [taken_append]
    by_cases hm : n = m
    · simp [ConfigTree.taken, Entry.taken?, hm]
    · simp [ConfigTree.taken, Entry.taken?, hm]
  have hdeliveries : ∀ r id, deliveries r id (s.history ++ [.taken n d]) =
      deliveries r id s.history := fun r id => by
    rw [deliveries_append]
    exact List.append_nil _
  have hknown : ∀ r entry, s.Known r entry → (({ s with
      subscriptions := Table.insert n { sub with queue } s.subscriptions }
        : Hub V C S N).record (.taken n d)).Known r entry := by
    intro r entry hk
    refine hk.mono (history_grows_record _ _) (Nat.le_refl _) fun m x hm => ?_
    rcases hget m x hm with ⟨rfl, rfl⟩ | ⟨-, hold⟩
    · exact ⟨sub, hsub, rfl, rfl⟩
    · exact ⟨x, hold, rfl, rfl⟩
  refine ⟨⟨hs.consistent.steps (Act.taken s hsub hq).steps, Table.ascending_insert hs.ascending,
    ?_, ?_, ?_, ?_, ?_, ?_⟩, hknown⟩
  · intro m x hm
    rcases hget m x hm with ⟨rfl, -⟩ | ⟨-, hold⟩
    · exact hs.numbered m sub hsub
    · exact hs.numbered m x hold
  · intro m hle
    have hne : n ≠ m := fun hnm => Nat.not_lt.mpr hle (hnm ▸ hs.numbered n sub hsub)
    rw [history_record]
    exact (htaken m).trans (by rw [if_neg hne, List.append_nil]; exact hs.untaken m hle)
  · intro r id hno
    rw [history_record]
    refine (hdeliveries r id).trans (hs.unheard r id fun path hm => hno path ?_)
    exact (history_grows_record _ _).subset hm
  · intro m x hm
    refine (history_grows_record _ _).subset ?_
    rcases hget m x hm with ⟨rfl, rfl⟩ | ⟨-, hold⟩
    · exact hs.registered m sub hsub
    · exact hs.registered m x hold
  · intro m x hm
    rw [history_record]
    refine Eq.trans (congrArg (· ++ x.queue) (htaken m)) (Eq.trans ?_ (hdeliveries _ _).symm)
    rcases hget m x hm with ⟨rfl, rfl⟩ | ⟨hne, hold⟩
    · rw [if_pos rfl, List.append_assoc, ← hs.queue_eq m sub hsub, hq]
      rfl
    · rw [if_neg (Ne.symm hne), List.append_nil]
      exact hs.queue_eq m x hold
  · exact fun r registry path entry hreg hm =>
      hknown r entry (hs.known r registry path entry hreg hm)

theorem deliveries_concat_invoked (r : RegistryId) (id : ListenerId) (h : List (Entry V N))
    (u : Update) (path : Path) (id' : ListenerId) (d : Delivery V) :
    deliveries r id (h ++ [.invoked u path id' d]) =
      deliveries r id h ++ if u.registry = r ∧ id' = id then [d] else [] := by
  rw [deliveries_append]
  by_cases hu : u.registry = r ∧ id' = id
  · simp [deliveries, Entry.delivery?, hu]
  · simp [deliveries, Entry.delivery?, hu]

/-- A listener is invoked, and what it feeds is fed. -/
theorem Streaming.invoke (hs : s.Streaming) {u : Update} {path : Path} {d : Delivery V}
    {entry : ListenerId × Listener C} (hk : s.Known u.registry entry) (hc : s'.Consistent)
    (hh : s'.history = s.history ++ [.invoked u path entry.1 d])
    (hn : s'.nextSubscription = s.nextSubscription) (hr : s'.registries = s.registries)
    (ha : Table.Ascending s'.subscriptions)
    (hsub : ∀ n sub', Table.get? n s'.subscriptions = some sub' →
      ∃ sub, Table.get? n s.subscriptions = some sub ∧ sub'.registry = sub.registry ∧
        sub'.path = sub.path ∧ sub'.listener = sub.listener ∧
        (entry.2.reaction = .feed n → sub'.queue = sub.queue ++ [d]) ∧
        (entry.2.reaction ≠ .feed n → sub'.queue = sub.queue)) : Keeps s s' := by
  have hgrows : s.history <+: s'.history := hh ▸ List.prefix_append _ _
  have hreg : ∀ r, s'.registry? r = s.registry? r := fun r => congrArg (Table.get? r) hr
  have htaken : ∀ n, taken n s'.history = taken n s.history := fun n => by
    rw [hh, taken_append]
    exact List.append_nil _
  have hknown : ∀ r entry', s.Known r entry' → s'.Known r entry' := fun r entry' hk' =>
    hk'.mono hgrows hn.ge fun n sub' hget => by
      obtain ⟨sub, hold, hr', -, hl, -⟩ := hsub n sub' hget
      exact ⟨sub, hold, hr'.symm, hl.symm⟩
  refine ⟨⟨hc, ha, ?_, ?_, ?_, ?_, ?_, ?_⟩, hknown⟩
  · intro n sub' hget
    obtain ⟨sub, hold, -⟩ := hsub n sub' hget
    exact hn ▸ hs.numbered n sub hold
  · intro n hle
    rw [htaken]
    exact hs.untaken n (hn ▸ hle)
  · intro r id hno
    have hother : ¬ (u.registry = r ∧ entry.1 = id) := by
      rintro ⟨rfl, rfl⟩
      obtain ⟨path', hm⟩ := hk.registered
      exact hno path' (hgrows.subset hm)
    rw [hh, deliveries_concat_invoked, if_neg hother, List.append_nil]
    exact hs.unheard r id fun path' hm => hno path' (hgrows.subset hm)
  · intro n sub' hget
    obtain ⟨sub, hold, hr', hp, hl, -⟩ := hsub n sub' hget
    rw [hr', hp, hl]
    exact hgrows.subset (hs.registered n sub hold)
  · intro n sub' hget
    obtain ⟨sub, hold, hr', -, hl, hfed, hunfed⟩ := hsub n sub' hget
    have hfeeds := hk.feeds n sub hold
    rw [htaken, hr', hl, hh, deliveries_concat_invoked, ← hs.queue_eq n sub hold]
    by_cases hf : entry.2.reaction = .feed n
    · obtain ⟨hsr, hsl⟩ := hfeeds.mp hf
      rw [hfed hf, if_pos ⟨hsr.symm, hsl.symm⟩, List.append_assoc]
    · rw [hunfed hf, if_neg fun he => hf (hfeeds.mpr ⟨he.1.symm, he.2.symm⟩), List.append_nil]
  · intro r registry path' entry' hget hm
    rw [hreg] at hget
    exact hknown r entry' (hs.known r registry path' entry' hget hm)

theorem Streaming.call (hs : s.Streaming) {u : Update} (path : Path) (d : Delivery V)
    {entry : ListenerId × Listener C} {code : C} (hk : s.Known u.registry entry)
    (hcode : entry.2.reaction = .callback code) :
    Keeps s (s.record (.invoked u path entry.1 d)) := by
  refine hs.invoke hk (hs.consistent.record rfl) (history_record _ _) rfl rfl hs.ascending
    fun n sub hget => ⟨sub, hget, rfl, rfl, rfl, fun hf => ?_, fun _ => rfl⟩
  cases hcode.symm.trans hf

/-- What is in the queues after a delivery to one of them. -/
theorem get?_push (s : Hub V C S N) (n m : SubscriptionId) (d : Delivery V) :
    Table.get? m (s.push n d).subscriptions = (Table.get? m s.subscriptions).map fun sub =>
      if m = n then { sub with queue := sub.queue ++ [d] } else sub := by
  rw [push]
  split
  · next hclosed =>
    by_cases hm : m = n
    · rw [hm, hclosed]
      rfl
    · simp [hm]
  · next sub hopen =>
    rw [Table.get?_insert]
    by_cases hm : m = n
    · rw [hm, hopen]
      simp
    · simp [hm]

theorem ascending_push (h : Table.Ascending s.subscriptions) (n : SubscriptionId)
    (d : Delivery V) : Table.Ascending (s.push n d).subscriptions := by
  rw [push]
  split
  · exact h
  · exact Table.ascending_insert h

theorem nextSubscription_push (s : Hub V C S N) (n : SubscriptionId) (d : Delivery V) :
    (s.push n d).nextSubscription = s.nextSubscription := by
  rw [push]
  split <;> rfl

theorem registries_push (s : Hub V C S N) (n : SubscriptionId) (d : Delivery V) :
    (s.push n d).registries = s.registries := by
  rw [push]
  split <;> rfl

theorem Streaming.feed (hs : s.Streaming) {u : Update} (path : Path) (d : Delivery V)
    {entry : ListenerId × Listener C} {n : SubscriptionId} (hk : s.Known u.registry entry)
    (hfeed : entry.2.reaction = .feed n) :
    Keeps s ((s.record (.invoked u path entry.1 d)).push n d) := by
  have hrecord : (s.record (.invoked u path entry.1 d)).Consistent := hs.consistent.record rfl
  have hascending : Table.Ascending (s.record (.invoked u path entry.1 d)).subscriptions :=
    hs.ascending
  refine hs.invoke hk (hrecord.push n d) ((history_push _ n d).trans (history_record _ _))
    (nextSubscription_push _ n d) (registries_push _ n d) (ascending_push hascending n d) ?_
  intro m sub' hget
  rw [get?_push] at hget
  obtain ⟨sub, hold, rfl⟩ := Option.map_eq_some_iff.mp hget
  refine ⟨sub, hold, ?_⟩
  by_cases hm : m = n
  · rw [if_pos hm]
    exact ⟨rfl, rfl, rfl, fun _ => rfl, fun hne => absurd (hm ▸ hfeed) hne⟩
  · rw [if_neg hm]
    refine ⟨rfl, rfl, rfl, fun hf => ?_, fun _ => rfl⟩
    cases hfeed.symm.trans hf
    exact absurd rfl hm

theorem Act.keeps (h : Act s s') (hs : s.Streaming) : Keeps s s' := by
  have hc : s'.Consistent := hs.consistent.steps h.steps
  cases h with
  | opened settings => exact (spares_open s settings).keeps hs hc
  | @handled r registry hreg handles =>
    have hspares : Spares s (s.setRegistry r { registry with handles }) :=
      spares_setRegistry hreg fun _ => rfl
    exact hspares.keeps hs hc
  | ended r => exact (spares_end hs.consistent r).keeps hs hc
  | listened hreg path code owned =>
    exact (spares_listen hs.consistent hreg path code owned).keeps hs hc
  | subscribed hreg path => exact hs.openSubscription hreg path
  | closing h => exact (h.spares hs).keeps hs hc
  | taken hsub hq => exact hs.take hsub hq
  | noted n => exact (spares_record s ⟨fun _ _ => rfl, fun _ => rfl⟩).keeps hs hc
  | ambient a =>
    have hspares : Spares s { s with ambient := a } :=
      spares_of_groups rfl rfl rfl fun _ x _ _ hx hm => ⟨x, hx, hm⟩
    exact hspares.keeps hs hc

theorem Acts.keeps (h : Acts s s') (hs : s.Streaming) : Keeps s s' := by
  induction h with
  | refl => exact ⟨hs, fun _ _ hk => hk⟩
  | tail _ hact ih => exact ih.trans (hact.keeps ih.1)

theorem Streaming.beginUpdate (hs : s.Streaming) {r : RegistryId} {registry : Registry V C}
    (hreg : s.registry? r = some registry) (tree : Tree V) :
    Keeps s (s.beginUpdate r registry tree) := by
  have hspares : Spares s ((s.setRegistry r { registry with current := some tree }).record
      (.applied (s.nextUpdateOf r registry) tree (registry.pending tree).length)) :=
    spares_alter hreg ⟨fun _ _ => rfl, fun _ => rfl⟩ fun _ _ hm => .inl hm
  have hbegun : Spares s (s.beginUpdate r registry tree) :=
    ⟨hspares.history, hspares.nextSubscription_eq, hspares.subscriptions, hspares.ascending,
      hspares.groups⟩
  exact hbegun.keeps hs (hs.consistent.beginUpdate hreg tree)

theorem Streaming.endUpdate (hs : s.Streaming) : Keeps s s.endUpdate := by
  rcases endUpdate_cases s with ⟨-, he⟩ | ⟨d, outer, s₁, -, hclosings, he⟩
  · rw [he]
    exact ⟨hs, fun _ _ hk => hk⟩
  · have hpopped : Spares s { s with dispatches := outer } :=
      spares_of_groups rfl rfl rfl fun _ x _ _ hx hm => ⟨x, hx, hm⟩
    have hkeeps := hpopped.keeps hs (hs.consistent.congr rfl rfl rfl)
    have hacts : Acts { s with dispatches := outer } (s₁.endIfUnused d.registry) :=
      hclosings.acts.trans (endIfUnused_acts s₁ d.registry)
    rw [he]
    exact hkeeps.trans (hacts.keeps hkeeps.1)

theorem Streaming.record (hs : s.Streaming) {e : Entry V N} (he : e.IsQuiet)
    (ha : e.alters? = none) : Keeps s (s.record e) :=
  (spares_record s he).keeps hs (hs.consistent.record ha)

/-- The listeners that are to be invoked are known. -/
def Task.Known : Task V C → Hub V C S N → Prop
  | .code, _ => True
  | .calls u ahead _, s => ∀ path d entry, .invoke path d entry ∈ ahead →
    Hub.Known s u.registry entry

theorem Task.Known.of_keeps {u : Update} {ahead : List (Call V C)} {tally tally' : Tally}
    {c : Call V C} (h : Task.Known (.calls u (c :: ahead) tally) s) (hkeeps : Keeps s s') :
    Task.Known (.calls u ahead tally') s' :=
  fun path d entry hm => hkeeps.2 _ _ (h path d entry (List.mem_cons_of_mem _ hm))

/-- The calls of an update go to listeners that are known. -/
theorem Streaming.known_calls (hs : s.Streaming) {r : RegistryId} {registry : Registry V C}
    (hreg : s.registry? r = some registry) (tree : Tree V) (tally : Tally) :
    Task.Known (.calls (s.nextUpdateOf r registry) (registry.calls tree) tally)
      (s.beginUpdate r registry tree) := fun path _ entry hm =>
  (hs.beginUpdate hreg tree).2 r entry (hs.known r registry path entry hreg
    ((hs.consistent.reflects r registry hreg).mem_group_of_call hm))

/-- Queues hold what was delivered and not taken, all along every run. -/
theorem Runs.keeps {task : Task V C} (h : Runs task s s') (hs : s.Streaming)
    (hk : task.Known s) : Keeps s s' := by
  induction h with
  | stopped => exact ⟨hs, fun _ _ hk => hk⟩
  | asked q _ ih =>
    have hasked := (perform_acts _ q).keeps hs
    exact hasked.trans (ih hasked.1 trivial)
  | @updated s s₁ s' r registry tree tally hreg _ _ ihc ih =>
    have hbegun := hs.beginUpdate hreg tree
    have hcalled := ihc hbegun.1 (hs.known_calls hreg tree tally)
    have hended := hcalled.1.endUpdate
    exact hbegun.trans (hcalled.trans (hended.trans (ih hended.1 trivial)))
  | finished => exact ⟨hs, fun _ _ hk => hk⟩
  | @announced s s' u path isPresent ahead tally _ ih =>
    have hreached : Keeps s (s.record (.reached u path isPresent)) :=
      hs.record ⟨fun _ _ => rfl, fun _ => rfl⟩ rfl
    exact hreached.trans (ih hreached.1 (hk.of_keeps hreached))
  | @fed s s' u path d entry subscription ahead tally hfeed _ ih =>
    have hfed := hs.feed path d (hk _ _ _ List.mem_cons_self) hfeed
    exact hfed.trans (ih hfed.1 (hk.of_keeps hfed))
  | @returned s s₁ s' u path d entry code ahead tally hcode _ _ ihc ih =>
    have hcalled := hs.call path d (hk _ _ _ List.mem_cons_self) hcode
    have hreturned := hcalled.trans (ihc hcalled.1 trivial)
    exact hreturned.trans (ih hreturned.1 (hk.of_keeps hreturned))
  | @failed s s₁ s' u path d entry code ahead tally hcode reason _ _ ihc ih =>
    have hcalled := hs.call path d (hk _ _ _ List.mem_cons_self) hcode
    have hran := hcalled.trans (ihc hcalled.1 trivial)
    have hrecorded : Keeps s₁ (s₁.record (.failed u path entry.1 reason)) :=
      hran.1.record ⟨fun _ _ => rfl, fun _ => rfl⟩ rfl
    have hfailed := hran.trans hrecorded
    exact hfailed.trans (ih hfailed.1 (hk.of_keeps hfailed))

theorem Reachable.streaming (hs : s.Reachable) : s.Streaming := by
  induction hs with
  | new ambient => exact streaming_new ambient
  | ran _ h ih => exact (h.keeps ih trivial).1
  | @called s s₁ r registry tree early late tally path d entry code _ hreg hcalls hcode h ih =>
    have hknown := ih.known_calls hreg tree tally
    rw [hcalls] at hknown
    have hkeeps := h.keeps (ih.beginUpdate hreg tree).1 fun path' d' entry' hm =>
      hknown path' d' entry' (List.mem_append_left _ hm)
    have hentry := hknown path d entry (List.mem_append_right _ List.mem_cons_self)
    exact (hkeeps.1.call path d (hkeeps.2 _ _ hentry) hcode).1

end Hub

end ConfigTree
