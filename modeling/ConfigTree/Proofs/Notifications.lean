import ConfigTree.Proofs.Callbacks
/-!
# Each change is delivered once

An update owes each registered listener one delivery if the subtree at its path changed, and none
otherwise. Callbacks may register, cancel and fail while the owed deliveries are made, as long as
they apply no snapshot themselves. So accounts are settled at the end of every program.
-/

namespace ConfigTree

variable {V C S N : Type}

/-- The invocations that an update has ahead of it. -/
def Update.invocations (u : Update) (pending : List (Pending V C)) : List (Entry V N) :=
  pending.flatMap fun p => p.listeners.map fun (id, _) => .invoked u p.path id p.delivery

theorem invocations_cons (u : Update) (p : Pending V C) (pending : List (Pending V C)) :
    (u.invocations (p :: pending) : List (Entry V N)) =
      p.listeners.map (fun (id, _) => .invoked u p.path id p.delivery) ++ u.invocations pending :=
  List.flatMap_cons

theorem deliveries_invocations_other {u : Update} {r : RegistryId} (hr : r ≠ u.registry)
    (id : ListenerId) (pending : List (Pending V C)) :
    deliveries r id (u.invocations pending : List (Entry V N)) = [] := by
  refine List.filterMap_eq_nil_iff.mpr fun e he => ?_
  obtain ⟨p, -, he⟩ := List.mem_flatMap.mp he
  obtain ⟨entry, -, rfl⟩ := List.mem_map.mp he
  exact if_neg fun hu => hr hu.1.symm

/-- A listener occurs once in its group. -/
theorem deliveries_group (u : Update) (path : Path) (id : ListenerId) (d : Delivery V)
    {group : Group C} (hg : Table.Ascending group) :
    deliveries u.registry id
        (group.map fun (id', _) => (.invoked u path id' d : Entry V N)) =
      if (Table.get? id group).isSome then [d] else [] := by
  induction group with
  | nil => rfl
  | cons entry rest ih =>
    obtain ⟨hlt, hrest⟩ := List.pairwise_cons.mp hg
    rw [List.map_cons, ← List.singleton_append, deliveries_append, ih hrest, Table.get?]
    by_cases hid : id = entry.1
    · have hnone : Table.get? id rest = none := Table.get?_eq_none_of_lt (hid ▸ hlt)
      simp [deliveries, Entry.delivery?, hid, hid ▸ hnone]
    · simp [deliveries, Entry.delivery?, hid, Ne.symm hid]

theorem deliveries_invocations (u : Update) (registry : Registry V C) (tree : Tree V)
    (id : ListenerId) (hg : ∀ e ∈ registry.watched, Table.Ascending e.2) :
    deliveries u.registry id (u.invocations (registry.pending tree) : List (Entry V N)) =
      registry.watched.flatMap fun (path, group) =>
        if (Table.get? id group).isSome then (Delivery.between? registry.current tree path).toList
        else [] := by
  rw [Registry.pending]
  generalize registry.watched = watched at hg
  induction watched with
  | nil => rfl
  | cons e rest ih =>
    obtain ⟨he, hrest⟩ := List.forall_mem_cons.mp hg
    rw [List.flatMap_cons, ← ih hrest, List.filterMap_cons]
    cases hd : Delivery.between? registry.current tree e.1 with
    | none => simp [hd]
    | some d =>
      have hgroup := deliveries_group u e.1 id d he (N := N)
      simp [hd, invocations_cons, deliveries_append, hgroup]

namespace Registry

variable {registry : Registry V C} {h : List (Entry V N)} {u : Update}

theorem Reflects.deliveries_of_unlisted (hr : registry.Reflects u.registry h) (tree : Tree V)
    {id : ListenerId} (hout : ∀ path, ¬ Listed u.registry path id h) :
    deliveries u.registry id (u.invocations (registry.pending tree) : List (Entry V N)) = [] := by
  rw [deliveries_invocations u registry tree id fun e he => (hr.groups e he).2]
  refine List.flatMap_eq_nil_iff.mpr fun e he => if_neg fun hsome => hout e.1 ?_
  rw [← hr.group_eq he] at hsome
  exact (hr.listed e.1 id).mp hsome

theorem Reflects.deliveries_of_listed (hr : registry.Reflects u.registry h) (ho : IssuedOnce h)
    (tree : Tree V) {path : Path} {id : ListenerId} (hl : Listed u.registry path id h) :
    deliveries u.registry id (u.invocations (registry.pending tree) : List (Entry V N)) =
      change path ((current? u.registry h).bind (Tree.hash? · path)) tree := by
  have hsome := (hr.listed path id).mpr hl
  obtain ⟨group, hgroup⟩ : ∃ group, Table.get? path registry.watched = some group := by
    cases hg : Table.get? path registry.watched with
    | none => simp [Registry.group, hg, Table.get?] at hsome
    | some group => exact ⟨group, rfl⟩
  rw [hr.group_eq (Table.mem_of_get? hgroup)] at hsome
  rw [deliveries_invocations u registry tree id fun e he => (hr.groups e he).2,
    Table.flatMap_eq_of_get? hr.ascending hgroup]
  · refine (if_pos hsome).trans ?_
    rw [toList_between?, hr.current]
  · intro e he hpath
    refine if_neg fun hsome' => hpath ?_
    rw [← hr.group_eq he] at hsome'
    exact ho.path_eq ((hr.listed e.1 id).mp hsome').1 hl.1

end Registry

namespace Hub

/-- Registries and journal agree, and accounts are settled up to what is owed. -/
structure Accounted (owed : List (Entry V N)) (s : Hub V C S N) : Prop where
  consistent : s.Consistent
  settled : Settled s.history owed

variable {s s' : Hub V C S N} {owed : List (Entry V N)}

theorem accounted_new (ambient : S) : Accounted [] (new ambient : Hub V C S N) where
  consistent := consistent_new ambient
  settled := ⟨fun _ _ _ => rfl, fun _ _ _ before _ hs => by
    cases before <;> cases hs⟩

/-- An entry that neither applies a snapshot nor delivers nor registers. -/
theorem Accounted.record (h : Accounted owed s) {e : Entry V N} (ha : e.alters? = none)
    (hd : ∀ r id, e.delivery? r id = none) : Accounted owed (s.record e) where
  consistent := h.consistent.record ha
  settled := by
    rw [history_record]
    refine h.settled.concat (fun r => Entry.snapshot?_eq_none ?_) ?_ ?_
    · rw [ha]
      exact fun hn => nomatch hn
    · intro r id
      simp [deliveries, hd]
    · intro r path id heq
      rw [heq] at ha
      cases ha

theorem Accounted.step (h : Accounted owed s) (hstep : Step s s') : Accounted owed s' := by
  refine ⟨h.consistent.step hstep, ?_⟩
  cases hstep with
  | opened settings => exact h.settled
  | handled hreg handles => exact h.settled
  | ended r => exact h.settled
  | @registered r registry hreg path l =>
    rw [register, history_record]
    refine h.settled.concat (fun _ => rfl) (fun _ _ => rfl) fun r' path' id heq path'' hm => ?_
    cases heq
    exact Nat.lt_irrefl _ ((h.consistent.reflects r registry hreg).issued _ hm _ rfl)
  | cancelled hreg hc =>
    rw [history_record]
    exact h.settled.concat (fun _ => rfl) (fun _ _ => rfl) fun _ _ _ heq => nomatch heq
  | subscribed r path id => exact h.settled
  | closed subscription => exact h.settled
  | @taken subscription _ d _ hsub hq =>
    exact (h.record (e := .taken subscription d) rfl fun _ _ => rfl).settled
  | dispatched hd => exact h.settled
  | detached name path id => exact (h.record rfl fun _ _ => rfl).settled
  | noted n => exact (h.record rfl fun _ _ => rfl).settled
  | ambient a => exact h.settled

theorem Accounted.steps (h : Accounted owed s) (hsteps : Steps s s') : Accounted owed s' := by
  induction hsteps with
  | refl => exact h
  | tail _ hstep ih => exact ih.step hstep

/-- An owed delivery is made. -/
theorem Accounted.invoked {u : Update} {path : Path} {id : ListenerId} {d : Delivery V}
    (h : Accounted (.invoked u path id d :: owed) s) :
    Accounted owed (s.record (.invoked u path id d)) where
  consistent := h.consistent.record rfl
  settled := by
    rw [history_record]
    exact h.settled.concat (fun _ => rfl) (fun _ _ => rfl) fun _ _ _ heq => nomatch heq

/-- Queues are not in the account. -/
theorem Accounted.push (h : Accounted owed s) (subscription : SubscriptionId) (d : Delivery V) :
    Accounted owed (s.push subscription d) := by
  rw [Hub.push]
  split
  · exact h
  · exact ⟨h.consistent.congr rfl rfl rfl, h.settled⟩

theorem Accounted.beginUpdate (h : Accounted [] s) {r : RegistryId} {registry : Registry V C}
    (hreg : s.registry? r = some registry) (tree : Tree V) :
    Accounted ((s.nextUpdateOf r registry).invocations (registry.pending tree))
      (s.beginUpdate r registry tree) where
  consistent := h.consistent.beginUpdate hreg tree
  settled := by
    have hr := h.consistent.reflects r registry hreg
    have ho := h.consistent.issuedOnce
    have happlied := h.settled.applied ho (s.nextUpdateOf r registry) tree
      (registry.pending tree).length
      (fun r' id hne => deliveries_invocations_other hne id (registry.pending tree))
      (fun id hout => Registry.Reflects.deliveries_of_unlisted hr tree hout)
      (fun path id hl => Registry.Reflects.deliveries_of_listed hr ho tree hl)
    rw [← history_record] at happlied
    exact happlied

/-- Callbacks return, and do nothing but make requests. -/
def Calm (invoke : Invoke V C S N) : Prop :=
  ∀ code d s, ∃ result s', invoke code d s = some (result, s') ∧ Steps s s'

variable {invoke : Invoke V C S N}

theorem Accounted.deliver (hi : Calm invoke) {u : Update} {path : Path} {d : Delivery V}
    {entry : ListenerId × Listener C} (h : Accounted (.invoked u path entry.1 d :: owed) s) :
    ∃ succeeded s', deliver invoke u path d entry s = some (succeeded, s') ∧
      Accounted owed s' := by
  have hinvoked := h.invoked
  rw [Hub.deliver]
  cases hreact : entry.2.reaction with
  | feed subscription => exact ⟨true, _, rfl, hinvoked.push subscription d⟩
  | callback code =>
    obtain ⟨result, s', hrun, hsteps⟩ := hi code d (s.record (.invoked u path entry.1 d))
    have hafter := hinvoked.steps hsteps
    dsimp only
    rw [hrun]
    cases result with
    | ok a => exact ⟨true, s', rfl, hafter⟩
    | error reason => exact ⟨false, _, rfl, hafter.record rfl fun _ _ => rfl⟩

theorem Accounted.deliverGroup (hi : Calm invoke) {u : Update} {path : Path} {d : Delivery V}
    {group : Group C}
    (h : Accounted (group.map (fun (id, _) => .invoked u path id d) ++ owed) s) :
    ∃ tally s', deliverGroup invoke u path d group s = some (tally, s') ∧ Accounted owed s' := by
  induction group generalizing s with
  | nil => exact ⟨⟨0, 0⟩, s, rfl, h⟩
  | cons entry rest ih =>
    obtain ⟨succeeded, s₁, hrun, h₁⟩ := Accounted.deliver hi h
    obtain ⟨tally, s₂, hrest, h₂⟩ := ih h₁
    refine ⟨tally.count succeeded, s₂, ?_, h₂⟩
    rw [Hub.deliverGroup, hrun]
    dsimp only
    rw [hrest]

theorem Accounted.deliverAll (hi : Calm invoke) {u : Update} {pending : List (Pending V C)}
    (h : Accounted (u.invocations pending) s) :
    ∃ tally s', deliverAll invoke u pending s = some (tally, s') ∧ Accounted [] s' := by
  induction pending generalizing s with
  | nil => exact ⟨⟨0, 0⟩, s, rfl, h⟩
  | cons p rest ih =>
    rw [invocations_cons] at h
    have hreached := h.record (e := .reached u p.path p.delivery.isPresent) rfl fun _ _ => rfl
    obtain ⟨tally, s₁, hrun, h₁⟩ := Accounted.deliverGroup hi hreached
    obtain ⟨others, s₂, hrest, h₂⟩ := ih h₁
    refine ⟨tally.add others, s₂, ?_, h₂⟩
    rw [Hub.deliverAll, hrun]
    dsimp only
    rw [hrest]

theorem Accounted.update (hi : Calm invoke) (h : Accounted [] s) (r : RegistryId) (tree : Tree V) :
    ∃ summary s', update invoke r tree s = some (summary, s') ∧ Accounted [] s' := by
  rw [Hub.update]
  cases hreg : s.registry? r with
  | none => exact ⟨_, s, rfl, h⟩
  | some registry =>
    obtain ⟨tally, s', hrun, h'⟩ := Accounted.deliverAll hi (h.beginUpdate hreg tree)
    dsimp only
    rw [hrun]
    exact ⟨_, s'.endUpdate, rfl, h'.steps (endUpdate_steps s')⟩

theorem Accounted.exec {α : Type} (hi : Calm invoke) (h : Accounted [] s)
    (p : Program V C S N α) :
    ∃ result s', exec invoke p s = some (result, s') ∧ Accounted [] s' := by
  induction p generalizing s with
  | done a => exact ⟨.ok a, s, rfl, h⟩
  | ask q next ih => exact ih (q.perform s).1 (h.steps (perform_steps s q))
  | update r tree next ih =>
    obtain ⟨summary, s₁, hrun, h₁⟩ := h.update hi r tree
    rw [Hub.exec, hrun]
    exact ih summary h₁
  | fail reason => exact ⟨.error reason, s, rfl, h⟩

theorem calm_invokeWithin {respond : C → Delivery V → Program V C S N Unit}
    (hq : ∀ code d, (respond code d).Quiet) (depth : Nat) :
    Calm (invokeWithin respond (depth + 1)) :=
  fun code d s => exec_quiet (invokeWithin respond depth) (hq code d) s

/-- Whatever a program does, and whatever callbacks do that apply no snapshots themselves: a
listener is called with, in order, the new state of the subtree at its path for each snapshot that
was applied while it was registered and in which the hash there differs from the one before. The
first of these hashes is that of the snapshot that was current when it was registered. As long as it
is registered, the last hash it knows is that of the current snapshot. Calls are those of the
evaluation, in which a callback is evaluated on its payload, and each is for what the listener was
registered for. A program may end anywhere, so this holds between all requests and updates of a
longer one. -/
theorem run_delivers_changes {α : Type} {respond : C → Delivery V → Program V C S N Unit}
    (hq : ∀ code d, (respond code d).Quiet) (ambient : S) (depth : Nat)
    (p : Program V C S N α) :
    ∃ result s trace, run respond (depth + 1) p (new ambient) = some (result, s) ∧
      Evaluates respond (.program p result) (new ambient) trace s ∧ Tells s.history trace ∧
      (∀ r path id reaction, .listened r path id reaction ∈ trace →
        .registered r path id ∈ s.history ∧ CalledFor trace r id path reaction) ∧
      ∀ r path id before after, s.history = before ++ .registered r path id :: after →
        let seen := (current? r before).bind (Tree.hash? · path)
        (∃ reaction, .listened r path id reaction ∈ trace) ∧
          payloads r id trace =
            changes path seen (snapshots r (whileRegistered r path id after)) ∧
          ∀ registry, s.registry? r = some registry → .cancelled r path id ∉ after →
            latest Delivery.hash? seen (payloads r id trace) =
              registry.current.bind (Tree.hash? · path) := by
  obtain ⟨result, s, hrun, h⟩ := (accounted_new ambient).exec (calm_invokeWithin hq depth) p
  obtain ⟨trace, hevaluates⟩ := run_evaluates hrun
  have ho : (new ambient : Hub V C S N).Orderly := orderly_new ambient
  obtain ⟨piece, hhistory, htells⟩ := hevaluates.traced ho
  obtain rfl : s.history = piece := hhistory
  refine ⟨result, s, trace, hrun, hevaluates, htells, fun r path id reaction hl =>
    ⟨htells.registered_mem_iff.mpr ⟨reaction, hl⟩, hevaluates.calledFor_of_listened ho hl⟩,
    fun r path id before after hsplit => ?_⟩
  have hmem : .registered r path id ∈ s.history := by
    rw [hsplit]
    exact List.mem_append_right _ List.mem_cons_self
  have hheard := h.settled.heard r path id before after hsplit
  rw [List.append_nil, ← htells.payloads_eq] at hheard
  refine ⟨htells.registered_mem_iff.mp hmem, hheard, fun registry hreg hc => ?_⟩
  rw [hheard, latest_changes, whileRegistered_eq hc, ← hash?_current? hsplit,
    (h.consistent.reflects r registry hreg).current]

/-- The listener at the root cancels the one at `a` before that one is reached for the first
snapshot. It still hears of that snapshot, which it notes and where it fails, and of none after it;
the one at the root goes on. -/
theorem run_delivers_changes_until_cancelled :
    let scheme : Scheme String := ⟨.blake3, Encoding.utf8⟩
    let t := (Tree.empty scheme 0).replay 1 [.insert ["a"] "1"]
    let u := t.replay 2 [.insert ["a"] "2"]
    let respond : Nat → Delivery String → Program String Nat (List (Option Hash)) Unit Unit :=
      fun code d =>
        if code = 0 then
          .ask .ambient fun (heard : List (Option Hash)) =>
            .ask (.setAmbient (heard ++ [d.hash?])) fun _ => .fail none
        else .ask (.cancel 0 ["a"] 1) fun _ => .done ()
    let p : Program String Nat (List (Option Hash)) Unit Nat :=
      .ask (.openRegistry ⟨"config", .blake3⟩) fun r =>
        .ask (.listen r ["a"] 0 []) fun _ => .ask (.listen r [] 1 []) fun _ => .follow r [t, u]
    (∀ code d, (respond code d).Quiet) ∧
      ∃ result s trace registry after, run respond 1 p (new []) = some (result, s) ∧
        Evaluates respond (.program p result) (new []) trace s ∧
        s.history = .registered 0 ["a"] 1 :: .registered 0 [] 2 :: after ∧
        s.registry? 0 = some registry ∧ .cancelled 0 [] 2 ∉ after ∧
        payloads 0 1 trace =
          changes ["a"] none (snapshots 0 (whileRegistered 0 ["a"] 1 after)) ∧
        (payloads 0 1 trace).map Delivery.hash? = [t.hash? ["a"]] ∧
        s.ambient = [t.hash? ["a"]] ∧
        (snapshots 0 s.history).map Tree.hash = [t.hash, u.hash] ∧
        latest Delivery.hash? none (payloads 0 2 trace) =
          registry.current.bind (Tree.hash? · []) := by
  intro scheme t u respond p
  have hq : ∀ code d, (respond code d).Quiet := by
    intro code d
    by_cases hcode : code = 0
    · simp [respond, hcode, Program.Quiet]
    · simp [respond, hcode, Program.Quiet]
  have hall : ((run respond 1 p (new [])).any fun x => decide (
      (x.2.history.take 2).map Entry.registration? = [some (0, ["a"], 1), some (0, [], 2)] ∧
      ((x.2.history.drop 2).all fun e => !e.isCancellation 0 [] 2) = true ∧
      (Hub.registry? x.2 0).isSome = true ∧
      (deliveries 0 1 x.2.history).map Delivery.hash? = [t.hash? ["a"]] ∧
      x.2.ambient = [t.hash? ["a"]] ∧
      (snapshots 0 x.2.history).map Tree.hash = [t.hash, u.hash])) = true := by
    decide +kernel +zetaReduce
  obtain ⟨result, s, trace, hrun, hevaluates, htells, -, h⟩ := run_delivers_changes hq [] 0 p
  rw [hrun, Option.any_some] at hall
  obtain ⟨hstart, hkept, hsome, hhashes, hnoted, happlied⟩ := of_decide_eq_true hall
  obtain ⟨registry, hreg⟩ := Option.isSome_iff_exists.mp hsome
  have hs := Entry.eq_registered_cons_cons hstart
  have hnone := all_not_isCancellation_iff.mp hkept
  obtain ⟨-, hheard, -⟩ := h 0 ["a"] 1 [] _ hs
  obtain ⟨-, -, hroot⟩ := h 0 [] 2 [.registered 0 ["a"] 1] _ hs
  rw [← htells.payloads_eq] at hhashes
  exact ⟨hq, result, s, trace, registry, _, hrun, hevaluates, hs, hreg, hnone, hheard, hhashes,
    hnoted, happlied, hroot registry hreg hnone⟩

end Hub

end ConfigTree
