import ConfigTree.Proofs.Callbacks
import ConfigTree.Proofs.Queues
import Mathlib.Data.List.Induction
/-!
# Updates that are overtaken

A callback may apply a snapshot while the update that invoked it still has calls ahead of it. That
update goes on afterwards with what it found when it began, so the listeners it calls then hear the
newer snapshot first and the older one last (`Overtaken`). Nobody misses the newer one: every
snapshot in which the subtree at a path has another hash is told to those registered there before
its update ends (`Nested.told`), and nothing else is told to them (`Nested.heard`).
-/

namespace ConfigTree

variable {V C S N : Type}

namespace Entry

theorem snapshot?_eq_some {r : RegistryId} {e : Entry V N} {tree : Tree V} :
    e.snapshot? r = some tree ↔ ∃ u changed, u.registry = r ∧ e = .applied u tree changed := by
  cases e <;> simp [snapshot?]

theorem invocation?_eq_some {u : Update} {e : Entry V N} {path : Path} {id : ListenerId}
    {d : Delivery V} : e.invocation? u = some (path, id, d) ↔ e = .invoked u path id d := by
  cases e <;> simp [invocation?]

theorem delivery?_eq_some {r : RegistryId} {id : ListenerId} {e : Entry V N} {d : Delivery V} :
    e.delivery? r id = some d ↔ ∃ u path, u.registry = r ∧ e = .invoked u path id d := by
  cases e <;> simp [delivery?, and_assoc]

end Entry

/-- The hash at a path in the snapshot that is current. -/
def hashNow? (r : RegistryId) (path : Path) (h : List (Entry V N)) : Option Hash :=
  (current? r h).bind (Tree.hash? · path)

/-- The newest snapshot since one was applied has another hash at the path than that one. -/
def Overtaken (r : RegistryId) (path : Path) (tree : Tree V) (since : List (Entry V N)) : Prop :=
  latest (Tree.hash? · path) (tree.hash? path) (snapshots r since) ≠ tree.hash? path

section HashNow

variable {r : RegistryId}

theorem hashNow?_append (r : RegistryId) (path : Path) (h h' : List (Entry V N)) :
    hashNow? r path (h ++ h') =
      latest (Tree.hash? · path) (hashNow? r path h) (snapshots r h') :=
  hash?_current?_append r path h h'

theorem hashNow?_concat {path : Path} {h : List (Entry V N)} {e : Entry V N}
    (he : e.snapshot? r = none) :
    hashNow? r path (h ++ [e]) = hashNow? r path h := by
  rw [hashNow?, hashNow?, current?, current?, snapshots_concat he]

theorem hashNow?_concat_applied (path : Path) (h : List (Entry V N)) {u : Update}
    (hu : u.registry = r) (tree : Tree V) (changed : Nat) :
    hashNow? r path (h ++ [.applied u tree changed]) = tree.hash? path := by
  rw [hashNow?, current?, snapshots_concat_applied hu, List.getLast?_concat, Option.bind_some]

/-- After a piece of the journal the hash is as before, or as in the last snapshot that changed
it. -/
theorem hashNow?_append_cases (r : RegistryId) (path : Path) (h piece : List (Entry V N)) :
    hashNow? r path (h ++ piece) = hashNow? r path h ∨
      ∃ before u tree changed after, piece = before ++ .applied u tree changed :: after ∧
        u.registry = r ∧ hashNow? r path (h ++ before) ≠ tree.hash? path ∧
        hashNow? r path (h ++ piece) = tree.hash? path := by
  induction piece using List.reverseRecOn with
  | nil => exact .inl (by rw [List.append_nil])
  | append_singleton piece e ih =>
    rw [← List.append_assoc]
    by_cases hsame : hashNow? r path (h ++ piece ++ [e]) = hashNow? r path (h ++ piece)
    · rw [hsame]
      refine ih.imp_right ?_
      rintro ⟨before, u, tree, changed, after, rfl, hu, hne, he⟩
      exact ⟨before, u, tree, changed, after ++ [e], by simp, hu, hne, he⟩
    · cases hsnap : e.snapshot? r with
      | none => exact absurd (hashNow?_concat hsnap) hsame
      | some tree =>
        obtain ⟨u, changed, hu, rfl⟩ := Entry.snapshot?_eq_some.mp hsnap
        have hnow := hashNow?_concat_applied path (h ++ piece) hu tree changed
        have hne : hashNow? r path (h ++ piece) ≠ tree.hash? path := fun he =>
          hsame (hnow.trans he.symm)
        exact .inr ⟨piece, u, tree, changed, [], rfl, hu, hne, hnow⟩

end HashNow

section Nested

variable {h piece before after : List (Entry V N)} {u : Update} {tree : Tree V} {changed : Nat}
  {path : Path} {id : ListenerId}

/-- An update tells its snapshot to everybody registered at a path where it changes the hash. -/
theorem Nested.told (hn : Nested h piece) (hs : piece = before ++ .applied u tree changed :: after)
    (hl : Listed u.registry path id (h ++ before))
    (hne : hashNow? u.registry path (h ++ before) ≠ tree.hash? path) :
    Delivery.ofSubtree? (tree.subtree? path) ∈ deliveries u.registry id after := by
  obtain ⟨paths, during, rest, rfl, -, hperf, -, -⟩ := hn _ _ _ _ _ hs
  have hid : id ∈ listeners u.registry path (h ++ before) := mem_listeners.mpr hl
  have hpath : path ∈ paths := (hperf.mem_iff path).mpr ⟨List.ne_nil_of_mem hid, hne⟩
  have hcall : (path, id, Delivery.ofSubtree? (tree.subtree? path)) ∈ invocations u during := by
    rw [hperf.invoked]
    exact List.mem_flatMap.mpr ⟨path, hpath, List.mem_map.mpr ⟨id, hid, rfl⟩⟩
  obtain ⟨e, he, hinvoked⟩ := List.mem_filterMap.mp hcall
  refine List.mem_filterMap.mpr ⟨e, List.mem_append_left _ he, ?_⟩
  exact Entry.delivery?_eq_some.mpr ⟨u, path, rfl, Entry.invocation?_eq_some.mp hinvoked⟩

/-- What an update tells a listener is the state in its snapshot at the path at which the listener
was registered, where it changes the hash. -/
theorem Nested.heard (hn : Nested h piece) (hs : piece = before ++ .applied u tree changed :: after)
    {d : Delivery V} (hm : .invoked u path id d ∈ piece) :
    Listed u.registry path id (h ++ before) ∧
      hashNow? u.registry path (h ++ before) ≠ tree.hash? path ∧
      d = Delivery.ofSubtree? (tree.subtree? path) := by
  obtain ⟨paths, during, rest, rfl, -, hperf, -, hother⟩ := hn _ _ _ _ _ hs
  have hduring : .invoked u path id d ∈ during := by
    have hrest : .invoked u path id d ∉ before ++ rest := fun hm => hother _ hm rfl
    rw [hs] at hm
    simp only [List.mem_append, List.mem_cons, reduceCtorEq, false_or] at hm hrest
    tauto
  have hcall : (path, id, d) ∈ invocations u during :=
    List.mem_filterMap.mpr ⟨_, hduring, Entry.invocation?_eq_some.mpr rfl⟩
  rw [hperf.invoked] at hcall
  obtain ⟨path', hpath, hcall⟩ := List.mem_flatMap.mp hcall
  obtain ⟨id', hid, he⟩ := List.mem_map.mp hcall
  cases he
  exact ⟨mem_listeners.mp hid, ((hperf.mem_iff path).mp hpath).2, rfl⟩

end Nested

/-- The update began in the piece. -/
def Begun (u : Update) (piece : List (Entry V N)) : Prop :=
  ∃ tree changed, .applied u tree changed ∈ piece

theorem Begun.mono {u : Update} {piece piece' : List (Entry V N)} (h : Begun u piece)
    (hg : piece <+: piece') : Begun u piece' :=
  h.imp fun _ h => h.imp fun _ hm => hg.subset hm

/-- What the piece tells of an update comes after the update began, in the same piece. -/
def Rooted (piece : List (Entry V N)) : Prop :=
  ∀ before e after u, piece = before ++ e :: after → e.update? = some u → Begun u (before ++ [e])

theorem rooted_nil : Rooted ([] : List (Entry V N)) := by
  intro before e after u hs
  simp at hs

theorem Rooted.concat {piece : List (Entry V N)} {e : Entry V N} (hp : Rooted piece)
    (he : ∀ u, e.update? = some u → Begun u (piece ++ [e])) : Rooted (piece ++ [e]) := by
  intro before x after u hs hu
  rcases concat_eq_append_cons hs with ⟨rfl, rfl, -⟩ | ⟨after', -, hs⟩
  · exact he u hu
  · exact hp before x after' u hs hu

/-- What a listener heard last in a piece of the journal. -/
theorem exists_last_delivery {r : RegistryId} {id : ListenerId} {piece : List (Entry V N)}
    {told : List (Delivery V)} {d : Delivery V} (hd : deliveries r id piece = told ++ [d]) :
    ∃ before u path after, piece = before ++ .invoked u path id d :: after ∧ u.registry = r ∧
      deliveries r id after = [] := by
  obtain ⟨before, rest, rfl, -, hrest⟩ := List.filterMap_eq_append_iff.mp hd
  obtain ⟨skipped, e, after, rfl, hskipped, he, hafter⟩ := List.filterMap_eq_cons_iff.mp hrest
  obtain ⟨u, path, hu, rfl⟩ := Entry.delivery?_eq_some.mp he
  exact ⟨before ++ skipped, u, path, after, (List.append_assoc ..).symm, hu, hafter⟩

section Heard

variable {h piece : List (Entry V N)} {r : RegistryId} {path : Path} {id : ListenerId}
  (hn : Nested h piece) (hl : Listed r path id h) (hc : .cancelled r path id ∉ piece)

include hl hc in
theorem listed_of_not_cancelled {before after : List (Entry V N)} (hs : piece = before ++ after) :
    Listed r path id (h ++ before) := by
  refine ⟨List.mem_append_left _ hl.1, fun hm => ?_⟩
  rcases List.mem_append.mp hm with hm | hm
  · exact hl.2 hm
  · exact hc (hs ▸ List.mem_append_left _ hm)

include hn hl hc

/-- While a listener hears nothing, the hash at its path stays the same. -/
theorem hashNow?_of_unheard {before after : List (Entry V N)} (hs : piece = before ++ after)
    (hd : deliveries r id after = []) :
    hashNow? r path (h ++ piece) = hashNow? r path (h ++ before) := by
  rw [hs, ← List.append_assoc]
  rcases hashNow?_append_cases r path (h ++ before) after with
    hsame | ⟨start, u, tree, changed, rest, rfl, rfl, hne, -⟩
  · exact hsame
  · have hcut : piece = (before ++ start) ++ .applied u tree changed :: rest := by
      rw [hs, List.append_assoc]
    rw [List.append_assoc] at hne
    have htold := hn.told hcut (listed_of_not_cancelled hl hc hcut) hne
    rw [deliveries_append] at hd
    have hnone : deliveries u.registry id rest = [] := (List.append_eq_nil_iff.mp hd).2
    rw [hnone] at htold
    cases htold

/-- Once the hash at its path changed, a listener was told the state that is there in the end. -/
theorem told_of_applied {before after : List (Entry V N)} {u : Update} {tree : Tree V}
    {changed : Nat} (hs : piece = before ++ .applied u tree changed :: after) (hu : u.registry = r)
    (hne : hashNow? r path (h ++ before) ≠ tree.hash? path) :
    ∃ d ∈ deliveries r id piece, d.hash? = hashNow? r path (h ++ piece) := by
  -- whichever snapshot changed the hash last, the listener was told of it
  have hlast : ∀ before v tree' changed' after,
      piece = before ++ .applied v tree' changed' :: after → v.registry = r →
      hashNow? r path (h ++ before) ≠ tree'.hash? path →
      hashNow? r path (h ++ piece) = tree'.hash? path →
      ∃ d ∈ deliveries r id piece, d.hash? = hashNow? r path (h ++ piece) := by
    rintro before v tree' changed' after hs rfl hne he
    have htold := hn.told hs (listed_of_not_cancelled hl hc hs) hne
    refine ⟨_, ?_, (hash?_ofSubtree? tree' path).trans he.symm⟩
    rw [hs, deliveries_append]
    exact List.mem_append_right _ htold
  have hnow := hashNow?_concat_applied path (h ++ before) hu tree changed
  have hcut : h ++ piece = h ++ before ++ [.applied u tree changed] ++ after := by simp [hs]
  rcases hashNow?_append_cases r path (h ++ before ++ [.applied u tree changed]) after with
    hsame | ⟨start, v, tree', changed', rest, rfl, hv, hne', he⟩
  · exact hlast before u tree changed after hs hu hne (by rw [hcut, hsame, hnow])
  · refine hlast (before ++ .applied u tree changed :: start) v tree' changed' rest (by simp [hs])
      hv ?_ (hcut ▸ he)
    simpa using hne'

end Heard

/-- The last delivery to a listener in a piece of the journal. An update makes it, which applied the
snapshot earlier in the piece. -/
structure LastHeard (piece : List (Entry V N)) (r : RegistryId) (path : Path) (id : ListenerId)
    (d : Delivery V) (tree : Tree V) (since : List (Entry V N)) : Prop where
  delivered : ∃ before u changed after, u.registry = r ∧
    piece = before ++ .applied u tree changed :: (since ++ .invoked u path id d :: after) ∧
    deliveries r id after = []
  delivery_eq : d = Delivery.ofSubtree? (tree.subtree? path)

/-- What a listener hears last is out of date exactly if the update that tells it was overtaken, and
it heard the newest state at its path in any case. -/
theorem Rooted.lastHeard {h piece : List (Entry V N)} {r : RegistryId} {path : Path}
    {id : ListenerId} (hp : Rooted piece) (hn : Nested h piece) (ho : IssuedOnce (h ++ piece))
    (hl : Listed r path id h) (hc : .cancelled r path id ∉ piece) {told : List (Delivery V)}
    {d : Delivery V} (hd : deliveries r id piece = told ++ [d]) :
    (∃ d' ∈ told ++ [d], d'.hash? = hashNow? r path (h ++ piece)) ∧
      ∃ tree since, LastHeard piece r path id d tree since ∧
        (d.hash? = hashNow? r path (h ++ piece) ↔ ¬ Overtaken r path tree since) := by
  rw [← hd]
  -- the update that made the last delivery began in the piece, so it is known what it tells
  obtain ⟨start, u, path', after, hs, rfl, hnone⟩ := exists_last_delivery hd
  obtain ⟨tree, changed, hbegun⟩ := hp _ _ _ u hs rfl
  have hmem : .applied u tree changed ∈ start := by simpa using hbegun
  obtain ⟨before, since, rfl⟩ := List.append_of_mem hmem
  have hcut : piece =
      before ++ .applied u tree changed :: (since ++ .invoked u path' id d :: after) := by simp [hs]
  obtain ⟨hl', hne, hstate⟩ := hn.heard hcut (hs ▸ List.mem_append_right _ List.mem_cons_self)
  obtain rfl : path = path' := by
    refine ho.path_eq (List.mem_append_left _ hl.1) ?_
    rw [hcut, ← List.append_assoc]
    exact List.mem_append_left _ hl'.1
  refine ⟨told_of_applied hn hl hc hcut rfl hne, tree, since,
    ⟨⟨before, u, changed, after, rfl, hcut, hnone⟩, hstate⟩, ?_⟩
  -- nothing is heard after the last delivery, so the hash is that of the newest snapshot before it
  have hpast : piece =
      (before ++ [.applied u tree changed] ++ since ++ [.invoked u path id d]) ++ after := by
    simp [hs]
  have hnow : hashNow? u.registry path (h ++ piece) =
      latest (Tree.hash? · path) (tree.hash? path) (snapshots u.registry since) := by
    rw [hashNow?_of_unheard hn hl hc hpast hnone, ← List.append_assoc, hashNow?_concat rfl,
      ← List.append_assoc, hashNow?_append, ← List.append_assoc, hashNow?_concat_applied _ _ rfl]
  rw [hstate, hash?_ofSubtree?, hnow, Overtaken, not_not, eq_comm]

namespace Hub

/-- The piece is what was added to the journal since `h`, and what it tells of updates comes after
their beginning. -/
structure RootedSince (h piece : List (Entry V N)) (s : Hub V C S N) : Prop where
  history_eq : s.history = h ++ piece
  rooted : Rooted piece

variable {s s₁ s' : Hub V C S N} {h piece : List (Entry V N)}

theorem RootedSince.concat (hr : RootedSince h piece s) {e : Entry V N}
    (hh : s'.history = s.history ++ [e]) (he : ∀ u, e.update? = some u → Begun u (piece ++ [e])) :
    RootedSince h (piece ++ [e]) s' :=
  ⟨by rw [hh, hr.history_eq, List.append_assoc], hr.rooted.concat he⟩

theorem RootedSince.steps (hr : RootedSince h piece s) (hsteps : Steps s s') :
    ∃ piece', piece <+: piece' ∧ RootedSince h piece' s' := by
  induction hsteps with
  | refl => exact ⟨piece, List.prefix_refl _, hr⟩
  | tail _ hstep ih =>
    obtain ⟨piece', hg, hr'⟩ := ih
    rcases hstep.history_eq with hh | ⟨e, hh, hnone, -⟩
    · exact ⟨piece', hg, hh.trans hr'.history_eq, hr'.rooted⟩
    · refine ⟨piece' ++ [e], hg.trans (List.prefix_append _ _), hr'.concat hh fun u hu => ?_⟩
      rw [hnone] at hu
      cases hu

/-- An entry of an update that began in the piece. -/
theorem RootedSince.record (hr : RootedSince h piece s) {u : Update} (hb : Begun u piece)
    {e : Entry V N} (he : e.update? = some u) : RootedSince h (piece ++ [e]) (s.record e) := by
  refine hr.concat (history_record s e) fun v hv => ?_
  rw [he] at hv
  cases hv
  exact hb.mono (List.prefix_append _ _)

theorem RootedSince.beginUpdate (hr : RootedSince h piece s) (r : RegistryId)
    (registry : Registry V C) (tree : Tree V) :
    RootedSince h
        (piece ++ [.applied (s.nextUpdateOf r registry) tree (registry.pending tree).length])
        (s.beginUpdate r registry tree) ∧
      Begun (s.nextUpdateOf r registry)
        (piece ++ [.applied (s.nextUpdateOf r registry) tree (registry.pending tree).length]) := by
  have hbegun : Begun (s.nextUpdateOf r registry)
      (piece ++ [.applied (s.nextUpdateOf r registry) tree (registry.pending tree).length]) :=
    ⟨tree, _, List.mem_append_right _ (List.mem_singleton_self _)⟩
  refine ⟨hr.concat (history_beginUpdate s r registry tree) fun u hu => ?_, hbegun⟩
  cases hu
  exact hbegun

/-- The update whose calls are made began in the piece. -/
def Task.BegunIn (piece : List (Entry V N)) : Task V C → Prop
  | .code => True
  | .calls u .. => Begun u piece

/-- Whatever runs, an update is told of only after it began: its calls are made while it is under
way, and what callbacks do meanwhile is told of other updates. -/
theorem Runs.rootedSince {task : Task V C} (hrun : Runs task s s') (hr : RootedSince h piece s)
    (hb : task.BegunIn piece) : ∃ piece', piece <+: piece' ∧ RootedSince h piece' s' := by
  induction hrun generalizing piece with
  | stopped => exact ⟨piece, List.prefix_refl _, hr⟩
  | asked q _ ih =>
    obtain ⟨p, hg, hp⟩ := hr.steps (perform_steps _ q)
    obtain ⟨p', hg', hp'⟩ := ih hp trivial
    exact ⟨p', hg.trans hg', hp'⟩
  | @updated s s₁ s' r registry tree tally hreg _ _ ihc ih =>
    have hbegun := hr.beginUpdate r registry tree
    obtain ⟨p, hg, hp⟩ := ihc hbegun.1 hbegun.2
    obtain ⟨p', hg', hp'⟩ := hp.steps (endUpdate_steps s₁)
    obtain ⟨p'', hg'', hp''⟩ := ih hp' trivial
    exact ⟨p'', (List.prefix_append _ _).trans (hg.trans (hg'.trans hg'')), hp''⟩
  | finished => exact ⟨piece, List.prefix_refl _, hr⟩
  | @announced _ _ u path isPresent _ _ _ ih =>
    have hgrows := List.prefix_append piece [.reached u path isPresent]
    obtain ⟨p, hg, hp⟩ := ih (hr.record (e := .reached ..) hb rfl) (hb.mono hgrows)
    exact ⟨p, hgrows.trans hg, hp⟩
  | @fed s _ u path d entry n _ _ _ _ ih =>
    have hgrows := List.prefix_append piece [.invoked u path entry.1 d]
    have hfed := hr.record (e := .invoked u path entry.1 d) hb rfl
    obtain ⟨p, hg, hp⟩ := ih ⟨(history_push _ n d).trans hfed.history_eq, hfed.rooted⟩
      (hb.mono hgrows)
    exact ⟨p, hgrows.trans hg, hp⟩
  | returned _ _ _ ihc ih =>
    obtain ⟨p, hg, hp⟩ := ihc (hr.record (e := .invoked ..) hb rfl) trivial
    have hgrows := (List.prefix_append _ _).trans hg
    obtain ⟨p', hg', hp'⟩ := ih hp (hb.mono hgrows)
    exact ⟨p', hgrows.trans hg', hp'⟩
  | @failed _ _ _ u path _ entry _ _ _ _ reason _ _ ihc ih =>
    obtain ⟨p, hg, hp⟩ := ihc (hr.record (e := .invoked ..) hb rfl) trivial
    have hgrows := (List.prefix_append _ _).trans hg
    have hgrows' := hgrows.trans (List.prefix_append p [.failed u path entry.1 reason])
    obtain ⟨p', hg', hp'⟩ := ih (hp.record (hb.mono hgrows) rfl) (hb.mono hgrows')
    exact ⟨p', hgrows'.trans hg', hp'⟩

/-- What code adds to the journal. -/
theorem Runs.nested_rooted (hrun : Runs .code s s') (ho : s.Orderly) :
    ∃ piece, s'.history = s.history ++ piece ∧ Nested s.history piece ∧ Rooted piece := by
  obtain ⟨piece, hext⟩ := hrun.adds ho
  obtain ⟨piece', -, hr⟩ := hrun.rootedSince ⟨(List.append_nil _).symm, rooted_nil⟩ trivial
  obtain rfl := List.append_cancel_left (hext.history_eq.symm.trans hr.history_eq)
  exact ⟨piece, hext.history_eq, hext.nested, hr.rooted⟩

/-- A listener is registered at a path before and after an update, and is called meanwhile, possibly
by updates that callbacks make. Every call is for what it was registered for. One of them tells it
the state in which the path is left. What it is told last is that state too, unless the update that
tells it was overtaken at the path. A stream holds what its listener is told, in this order. -/
theorem Reachable.update_tells_newest (hs : s.Reachable) {r : RegistryId}
    {registry registry' : Registry V C} (hreg : s.registry? r = some registry)
    {respond : C → Delivery V → Program V C S N Unit} {depth : Nat} {tree : Tree V}
    {summary : UpdateSummary}
    (h : update (invokeWithin respond depth) r tree s = some (summary, s'))
    (hreg' : s'.registry? r = some registry') {path : Path} {id : ListenerId} {l : Listener C}
    (hin : (id, l) ∈ registry.group path)
    (hin' : id ∈ (registry'.group path).map Prod.fst) :
    ∃ piece trace, Evaluates respond (.program (.apply r tree) (.ok summary)) s trace s' ∧
      s'.history = s.history ++ piece ∧ Tells piece trace ∧
      CalledFor trace r id path l.reaction ∧
      ∀ told d, payloads r id trace = told ++ [d] →
        (∀ n sub, Table.get? n s'.subscriptions = some sub → sub.registry = r →
          sub.listener = id → (taken n s'.history ++ sub.queue).getLast? = some d) ∧
        (∃ d' ∈ told ++ [d], d'.hash? = registry'.current.bind (Tree.hash? · path)) ∧
        ∃ tree' since, LastHeard piece r path id d tree' since ∧
          (d.hash? = registry'.current.bind (Tree.hash? · path) ↔
            ¬ Overtaken r path tree' since) := by
  obtain ⟨tally, trace, s₁, hcalls, rfl, rfl⟩ := update_evaluates hreg h
  have hevaluates := Evaluates.apply hreg hcalls
  have hrun : Runs .code s s₁.endUpdate := hevaluates.runs
  have ho := hs.orderly
  have hs' := (hs.ran hrun).streaming
  have hr' := hs'.consistent.reflects r registry' hreg'
  have hheld : s.Holds r path (id, l) := ⟨registry, hreg, hin⟩
  obtain ⟨piece, hhistory, hnested, hrooted⟩ := hrun.nested_rooted ho
  obtain ⟨piece', hpiece, htells⟩ := hevaluates.traced ho
  obtain rfl := List.append_cancel_left (hhistory.symm.trans hpiece)
  have hl : Listed r path id s.history := hheld.listed ho.consistent
  have hl' : Listed r path id s₁.endUpdate.history := by
    rw [← mem_listeners, ← hr'.map_group (hs.ran hrun).orderly.inOrder]
    exact hin'
  refine ⟨piece, trace, hevaluates, hhistory, htells, hevaluates.calledFor_of_holds ho hheld,
    fun told d hd => ?_⟩
  rw [htells.payloads_eq] at hd
  constructor
  · rintro n sub hsub rfl rfl
    rw [hs'.queue_eq n sub hsub, hhistory, deliveries_append, hd, ← List.append_assoc,
      List.getLast?_concat]
  · rw [hr'.current]
    rw [hhistory] at hl' ⊢
    exact hrooted.lastHeard hnested (hhistory ▸ hs'.consistent.issuedOnce) hl
      (fun hm => hl'.2 (List.mem_append_right _ hm)) hd

/-- A listener at `a` applies another snapshot as soon as it hears of the first one. The stream at
`b`, where both agree, is left with what is there. -/
theorem update_tells_newest_beside :
    let scheme : Scheme String := ⟨.blake3, Encoding.utf8⟩
    let t := (Tree.empty scheme 0).replay 1 [.insert ["a"] "1", .insert ["b"] "1"]
    let t' := t.replay 3 [.insert ["a"] "2"]
    let respond : Nat → Delivery String → Program String Nat Unit Unit Unit := fun _ _ =>
      .update 0 t' fun _ => .done ()
    let p : Program String Nat Unit Unit Unit :=
      .ask (.openRegistry ⟨"config", .blake3⟩) fun r => .ask (.listen r ["a"] 0 []) fun _ =>
        .ask (.subscribe r ["b"]) fun _ => .done ()
    ∃ result s s' summary registry' piece trace d tree' since,
      run respond 2 p (new ()) = some (result, s) ∧
      update (invokeWithin respond 2) 0 t s = some (summary, s') ∧
      Evaluates respond (.program (.apply 0 t) (.ok summary)) s trace s' ∧
      s'.registry? 0 = some registry' ∧
      s'.history = s.history ++ piece ∧ payloads 0 2 trace = [d] ∧
      LastHeard piece 0 ["b"] 2 d tree' since ∧ ¬ Overtaken 0 ["b"] tree' since ∧
      d.hash? = registry'.current.bind (Tree.hash? · ["b"]) ∧
      registry'.current.map Tree.hash = some t'.hash := by
  intro scheme t t' respond p
  have hall : ((run respond 2 p (new ())).any fun x =>
      (Hub.registry? x.2 0).any fun registry =>
      (update (invokeWithin respond 2) 0 t x.2).any fun y =>
      (Hub.registry? y.2 0).any fun registry' => decide (
        2 ∈ (registry.group ["b"]).map Prod.fst ∧ 2 ∈ (registry'.group ["b"]).map Prod.fst ∧
        (deliveries 0 2 (y.2.history.drop x.2.history.length)).map Delivery.hash? =
          [registry'.current.bind (Tree.hash? · ["b"])] ∧
        registry'.current.map Tree.hash = some t'.hash)) = true := by
    decide +kernel +zetaReduce
  obtain ⟨⟨result, s⟩, hrun, hall⟩ := (Option.any_eq_true _ _).mp hall
  obtain ⟨registry, hreg, hall⟩ := (Option.any_eq_true _ _).mp hall
  obtain ⟨⟨summary, s'⟩, hupdate, hall⟩ := (Option.any_eq_true _ _).mp hall
  obtain ⟨registry', hreg', hall⟩ := (Option.any_eq_true _ _).mp hall
  obtain ⟨hin, hin', hdeliveries, hcurrent⟩ := of_decide_eq_true hall
  obtain ⟨⟨_, l⟩, hmem, rfl⟩ := List.mem_map.mp hin
  obtain ⟨piece, trace, hevaluates, hhistory, htells, -, hlast⟩ :=
    (reachable_run (.new ()) hrun).update_tells_newest hreg hupdate hreg' hmem hin'
  rw [hhistory, List.drop_left, ← htells.payloads_eq] at hdeliveries
  obtain ⟨d, hd, hhash⟩ := List.map_eq_singleton_iff.mp hdeliveries
  obtain ⟨-, -, tree', since, hheard, hagrees⟩ := hlast [] d hd
  exact ⟨result, s, s', summary, registry', piece, trace, d, tree', since, hrun, hupdate,
    hevaluates, hreg', hhistory, hd, hheard, hagrees.mp hhash, hhash, hcurrent⟩

/-- The same with the stream at `a`: it is told the second snapshot first, and left with the first
one although the second one is current. -/
theorem stream_left_behind :
    let scheme : Scheme String := ⟨.blake3, Encoding.utf8⟩
    let t := (Tree.empty scheme 0).replay 1 [.insert ["a"] "1"]
    let t' := (Tree.empty scheme 2).replay 3 [.insert ["a"] "2"]
    let respond : Nat → Delivery String → Program String Nat Unit Unit Unit := fun _ _ =>
      .update 0 t' fun _ => .done ()
    let p : Program String Nat Unit Unit Unit :=
      .ask (.openRegistry ⟨"config", .blake3⟩) fun r => .ask (.listen r ["a"] 0 []) fun _ =>
        .ask (.subscribe r ["a"]) fun _ => .done ()
    ∃ result s s' summary registry registry' sub,
      run respond 2 p (new ()) = some (result, s) ∧ s.dispatches = [] ∧
      s.registry? 0 = some registry ∧ (registry.group ["a"]).map Prod.fst = [1, 2] ∧
      update (invokeWithin respond 2) 0 t s = some (summary, s') ∧
      s'.registry? 0 = some registry' ∧ (registry'.group ["a"]).map Prod.fst = [1, 2] ∧
      Table.get? 0 s'.subscriptions = some sub ∧ sub.listener = 2 ∧
      sub.queue.map Delivery.hash? = [t'.hash? ["a"], t.hash? ["a"]] ∧
      registry'.current.bind (Tree.hash? · ["a"]) = t'.hash? ["a"] ∧
      t.hash? ["a"] ≠ t'.hash? ["a"] := by
  intro scheme t t' respond p
  have hall : ((run respond 2 p (new ())).any fun x =>
      (Hub.registry? x.2 0).any fun registry =>
      (update (invokeWithin respond 2) 0 t x.2).any fun y =>
      (Hub.registry? y.2 0).any fun registry' =>
      (Table.get? 0 (Hub.subscriptions y.2)).any fun sub => decide (
        x.2.dispatches.isEmpty = true ∧
        (registry.group ["a"]).map Prod.fst = [1, 2] ∧
        (registry'.group ["a"]).map Prod.fst = [1, 2] ∧ sub.listener = 2 ∧
        sub.queue.map Delivery.hash? = [t'.hash? ["a"], t.hash? ["a"]] ∧
        registry'.current.bind (Tree.hash? · ["a"]) = t'.hash? ["a"] ∧
        t.hash? ["a"] ≠ t'.hash? ["a"])) = true := by
    decide +kernel +zetaReduce
  obtain ⟨⟨result, s⟩, hrun, hall⟩ := (Option.any_eq_true _ _).mp hall
  obtain ⟨registry, hreg, hall⟩ := (Option.any_eq_true _ _).mp hall
  obtain ⟨⟨summary, s'⟩, hupdate, hall⟩ := (Option.any_eq_true _ _).mp hall
  obtain ⟨registry', hreg', hall⟩ := (Option.any_eq_true _ _).mp hall
  obtain ⟨sub, hsub, hall⟩ := (Option.any_eq_true _ _).mp hall
  obtain ⟨hidle, hgroup, hgroup', hlistener, hqueue, hcurrent, hne⟩ := of_decide_eq_true hall
  exact ⟨result, s, s', summary, registry, registry', sub, hrun, List.isEmpty_iff.mp hidle, hreg,
    hgroup, hupdate, hreg', hgroup', hsub, hlistener, hqueue, hcurrent, hne⟩

end Hub

end ConfigTree
