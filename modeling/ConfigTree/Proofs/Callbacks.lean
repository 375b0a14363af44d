import ConfigTree.Proofs.Dispatch
/-!
# Whom an update calls

Traces tell which listeners an update called and with what outcome (`tellings`, `outcomes`). These
are the calls that were fixed when it began, since what callbacks do meanwhile is told of other
updates. A listener is always called to do what it was registered to do (`Hub.Evaluates.booked`).
-/

namespace ConfigTree

variable {V C S N : Type}

namespace Happening

/-- Whom the update called, and what the listener does with the delivery. -/
def telling? (u : Update) : Happening V C → Option (Path × ListenerId × Reaction C × Delivery V)
  | told u' path id reaction d _ => if u' = u then some (path, id, reaction, d) else none
  | _ => none

def outcome? (u : Update) : Happening V C → Option (Except Failure Unit)
  | told u' _ _ _ _ outcome => if u' = u then some outcome else none
  | _ => none

end Happening

/-- The calls that an update made, in order. -/
def tellings (u : Update) (trace : List (Happening V C)) :
    List (Path × ListenerId × Reaction C × Delivery V) := trace.filterMap (Happening.telling? u)

/-- Their outcomes. -/
def outcomes (u : Update) (trace : List (Happening V C)) : List (Except Failure Unit) :=
  trace.filterMap (Happening.outcome? u)

/-- An update of which a piece of the journal says nothing made no calls. -/
theorem Tells.tellings_eq_nil {piece : List (Entry V N)} {trace : List (Happening V C)}
    (h : Tells piece trace) {u : Update} (hu : ∀ e ∈ piece, e.update? ≠ some u) :
    tellings u trace = [] ∧ outcomes u trace = [] := by
  have hother : ∀ v path id reaction d outcome,
      .told v path id reaction d outcome ∈ trace → v ≠ u := by
    rintro v path id reaction d outcome hm rfl
    exact hu _ (h.invoked_mem hm) rfl
  constructor
  · refine List.filterMap_eq_nil_iff.mpr fun x hx => ?_
    cases x with
    | listened => rfl
    | told => exact if_neg (hother _ _ _ _ _ _ hx)
  · refine List.filterMap_eq_nil_iff.mpr fun x hx => ?_
    cases x with
    | listened => rfl
    | told => exact if_neg (hother _ _ _ _ _ _ hx)

/-- An update made the calls that it had ahead of it, and the tally counts their outcomes. -/
structure Reported (u : Update) (ahead : List (Call V C)) (tally : Tally)
    (trace : List (Happening V C)) : Prop where
  tellings_eq : tellings u trace = ahead.filterMap Call.telling?
  delivered_eq : tally.delivered = (outcomes u trace).countP (·.isOk)
  failed_eq : tally.failed = (outcomes u trace).countP (!·.isOk)

section Reported

variable {u : Update} {ahead : List (Call V C)} {tally : Tally}
  {during after : List (Happening V C)}

/-- A listener is called, and its callback calls nobody for the same update. -/
theorem Reported.call (h : Reported u ahead tally after)
    (hd : tellings u during = [] ∧ outcomes u during = []) (path : Path) (d : Delivery V)
    (entry : ListenerId × Listener C) (outcome : Except Failure Unit) :
    Reported u (.invoke path d entry :: ahead) (tally.count outcome.isOk)
      (.told u path entry.1 entry.2.reaction d outcome :: (during ++ after)) := by
  have htelling : Happening.telling? u
      (.told u path entry.1 entry.2.reaction d outcome : Happening V C) =
      some (path, entry.1, entry.2.reaction, d) := if_pos rfl
  have houtcome : Happening.outcome? u
      (.told u path entry.1 entry.2.reaction d outcome : Happening V C) = some outcome := if_pos rfl
  have htellings : tellings u
      (.told u path entry.1 entry.2.reaction d outcome :: (during ++ after)) =
      (path, entry.1, entry.2.reaction, d) :: tellings u after := by
    rw [tellings, List.filterMap_cons_some htelling, List.filterMap_append, ← tellings, hd.1]
    rfl
  have houtcomes : outcomes u
      (.told u path entry.1 entry.2.reaction d outcome :: (during ++ after)) =
      outcome :: outcomes u after := by
    rw [outcomes, List.filterMap_cons_some houtcome, List.filterMap_append, ← outcomes, hd.2]
    rfl
  constructor
  · rw [htellings, h.tellings_eq]
    rfl
  · rw [houtcomes, List.countP_cons, ← h.delivered_eq]
    cases outcome <;> rfl
  · rw [houtcomes, List.countP_cons, ← h.failed_eq]
    cases outcome <;> rfl

end Reported

namespace Hub

variable {respond : C → Delivery V → Program V C S N Unit} {job : Job V C S N}
  {trace : List (Happening V C)} {s s₁ s' : Hub V C S N}

/-- What is evaluated while no update is under way calls nobody for an earlier one. -/
theorem Evaluates.tellings_eq_nil {α : Type} {p : Program V C S N α} {result : Except Failure α}
    (h : Evaluates respond (.program p result) s trace s') (hs : s.Orderly) {u : Update}
    (hu : u.number < s.nextUpdate) : tellings u trace = [] ∧ outcomes u trace = [] := by
  obtain ⟨piece, hextends⟩ := h.runs.adds hs
  obtain ⟨piece', hh, htells⟩ := h.traced hs
  obtain rfl := List.append_cancel_left (hextends.history_eq.symm.trans hh)
  exact htells.tellings_eq_nil (hextends.update?_ne hu)

/-- The calls of a job are reported. -/
def Job.Reports (s : Hub V C S N) (trace : List (Happening V C)) : Job V C S N → Prop
  | .program .. => True
  | .calls u ahead tally => u.number < s.nextUpdate → Reported u ahead tally trace

theorem Evaluates.reports (h : Evaluates respond job s trace s') (hs : s.Orderly) :
    job.Reports s trace := by
  induction h with
  | finished => exact fun _ => ⟨rfl, rfl, rfl⟩
  | announced _ ih =>
    intro hu
    obtain ⟨htellings, hdelivered, hfailed⟩ := ih (hs.record rfl) hu
    exact ⟨htellings, hdelivered, hfailed⟩
  | @fed u path d entry n _ _ s _ _ _ _ ih =>
    intro hu
    have hpushed : (s.record (.invoked u path entry.1 d)).Orderly := hs.record rfl
    have hlt : u.number < ((s.record (.invoked u path entry.1 d)).push n d).nextUpdate := by
      rw [nextUpdate_push]
      exact hu
    have hnone : tellings u ([] : List (Happening V C)) = [] ∧
        outcomes u ([] : List (Happening V C)) = [] := ⟨rfl, rfl⟩
    exact (ih (hpushed.push n d) hlt).call hnone path d entry (.ok ())
  | @returned u path d entry _ _ _ s _ _ _ _ _ hcallback _ _ ih =>
    intro hu
    have hcalled : (s.record (.invoked u path entry.1 d)).Orderly := hs.record rfl
    have hran := hcallback.runs
    obtain ⟨piece, hextends⟩ := hran.adds hcalled
    exact (ih (hran.orderly hcalled) (Nat.lt_of_lt_of_le hu hextends.nextUpdate_le)).call
      (hcallback.tellings_eq_nil hcalled hu) path d entry (.ok ())
  | @failed u path d entry _ reason _ _ s _ _ _ _ _ hcallback _ _ ih =>
    intro hu
    have hcalled : (s.record (.invoked u path entry.1 d)).Orderly := hs.record rfl
    have hran := hcallback.runs
    obtain ⟨piece, hextends⟩ := hran.adds hcalled
    have hlt := Nat.lt_of_lt_of_le hu hextends.nextUpdate_le
    exact (ih ((hran.orderly hcalled).record rfl) hlt).call
      (hcallback.tellings_eq_nil hcalled hu) path d entry (.error reason)
  | _ => trivial

end Hub

section Book

variable (book : RegistryId → Path → ListenerId → Reaction C → Prop)

/-- If it is a registration, it is in the book. -/
def Happening.IsNoted : Happening V C → Prop
  | listened r path id reaction => book r path id reaction
  | told .. => True

/-- It is in the book, and so is who was called. -/
def Happening.IsBooked : Happening V C → Prop
  | listened r path id reaction => book r path id reaction
  | told u path id reaction _ _ => book u.registry path id reaction

variable {book}

theorem Request.isBooked_of_isNoted {q : Request V C S N} {reply : q.Reply} {x : Happening V C}
    (hx : x ∈ q.registers reply) (h : x.IsNoted book) : x.IsBooked book := by
  cases x with
  | listened => exact h
  | told =>
    rw [registers.eq_def] at hx
    split at hx
    · cases List.mem_singleton.mp hx
    · cases List.mem_singleton.mp hx
    · cases hx

namespace Hub

variable (book) in
/-- Whoever is registered is in the book, with what it is to do. -/
def Booked (s : Hub V C S N) : Prop :=
  ∀ r path entry, s.Holds r path entry → book r path entry.1 entry.2.reaction

variable (book) in
/-- Whom a job has to call is in the book. -/
def Job.Booked : Job V C S N → Prop
  | .program .. => True
  | .calls u ahead _ => ∀ path d entry, .invoke path d entry ∈ ahead →
    book u.registry path entry.1 entry.2.reaction

variable {s s' : Hub V C S N}

theorem Booked.sheds (h : s.Booked book) (hsheds : Sheds s s') : s'.Booked book :=
  fun r path entry hheld => h r path entry (hsheds.held r path entry hheld)

theorem Booked.perform (h : s.Booked book) (hs : s.Consistent) (q : Request V C S N)
    (hq : ∀ x ∈ q.registers (q.perform s).1, x.IsNoted book) : (q.perform s).2.Booked book := by
  rcases perform_cases hs q with ⟨-, hsheds⟩ | ⟨r, registry, path, l, hreg, hone, hregistries, -⟩
  · exact h.sheds hsheds
  · rintro r' path' entry ⟨registry', hreg', hm⟩
    unfold registry? at hreg'
    rw [hregistries] at hreg'
    have hheld : (s.setRegistry r (registry.listen path l)).Holds r' path' entry :=
      ⟨registry', hreg', hm⟩
    have hheld' := holds_setRegistry_iff.mp hheld
    split at hheld'
    · next hr =>
      cases hr
      rw [Registry.group_listen] at hheld'
      split at hheld'
      · next hpath =>
        cases hpath
        rcases List.mem_append.mp hheld' with hold | hnew
        · exact h r path entry ⟨registry, hreg, hold⟩
        · cases List.mem_singleton.mp hnew
          exact hq (.listened r path registry.nextId l.reaction) (hone ▸ List.mem_singleton_self _)
      · exact h r path' entry ⟨registry, hreg, hheld'⟩
    · exact h r' path' entry hheld'

theorem Booked.beginUpdate (h : s.Booked book) {r : RegistryId} {registry : Registry V C}
    (hreg : s.registry? r = some registry) (tree : Tree V) :
    (s.beginUpdate r registry tree).Booked book := by
  intro r' path entry hheld
  have hheld' := (holds_setRegistry_iff (s := s)).mp hheld
  split at hheld'
  · next hr => exact h r' path entry ⟨registry, hr ▸ hreg, hheld'⟩
  · exact h r' path entry hheld'

theorem Booked.push (h : s.Booked book) (n : SubscriptionId) (d : Delivery V) :
    (s.push n d).Booked book := by
  rw [Hub.push]
  split
  · exact h
  · exact h

/-- Listeners are called to do what they were registered to do: if the book has all registrations,
those before an evaluation and those in its trace, it has whom the trace says was called. -/
theorem Evaluates.booked {respond : C → Delivery V → Program V C S N Unit} {job : Job V C S N}
    {trace : List (Happening V C)} (h : Evaluates respond job s trace s') (hs : s.Orderly)
    (hl : ∀ x ∈ trace, x.IsNoted book) (hb : s.Booked book) (hj : job.Booked book) :
    s'.Booked book ∧ ∀ x ∈ trace, x.IsBooked book := by
  induction h with
  | done => exact ⟨hb, fun _ hx => nomatch hx⟩
  | fail => exact ⟨hb, fun _ hx => nomatch hx⟩
  | @ask _ q _ _ s _ _ _ ih =>
    obtain ⟨hfirst, hrest⟩ := List.forall_mem_append.mp hl
    have hasked := hb.perform hs.consistent q hfirst
    obtain ⟨hb', hbooked⟩ := ih (hs.steps (perform_steps s q)) hrest hasked trivial
    exact ⟨hb', List.forall_mem_append.mpr
      ⟨fun x hx => Request.isBooked_of_isNoted hx (hfirst x hx), hbooked⟩⟩
  | idle _ _ ih => exact ih hs hl hb trivial
  | @update _ r registry tree _ _ _ s s₁ _ _ _ hreg hcalls _ ihc ih =>
    obtain ⟨hduring, hafter⟩ := List.forall_mem_append.mp hl
    have hbegun := hs.beginUpdate hreg tree
    have hcalled := hcalls.runs.orderly hbegun
    have hr := hs.consistent.reflects r registry hreg
    obtain ⟨hb₁, hbooked⟩ := ihc hbegun hduring (hb.beginUpdate hreg tree) fun path d entry hm =>
      hb r path entry ⟨registry, hreg, hr.mem_group_of_call hm⟩
    obtain ⟨hb', hbooked'⟩ := ih (hcalled.steps (endUpdate_steps s₁)) hafter
      (hb₁.sheds (endUpdate_sheds hcalled.consistent)) trivial
    exact ⟨hb', List.forall_mem_append.mpr ⟨hbooked, hbooked'⟩⟩
  | finished => exact ⟨hb, fun _ hx => nomatch hx⟩
  | announced _ ih =>
    exact ih (hs.record rfl) hl hb fun path d entry hm =>
      hj path d entry (List.mem_cons_of_mem _ hm)
  | @fed u path d entry n _ _ s _ _ _ _ ih =>
    have hpushed : (s.record (.invoked u path entry.1 d)).Orderly := hs.record rfl
    have hb₁ : (s.record (.invoked u path entry.1 d)).Booked book := hb
    obtain ⟨hb', hbooked⟩ := ih (hpushed.push n d) (List.forall_mem_cons.mp hl).2
      (hb₁.push n d) fun path d entry hm => hj path d entry (List.mem_cons_of_mem _ hm)
    exact ⟨hb', List.forall_mem_cons.mpr ⟨hj path d entry List.mem_cons_self, hbooked⟩⟩
  | @returned u path d entry _ _ _ s _ _ _ _ _ hcallback _ ihc ih =>
    obtain ⟨hduring, hafter⟩ := List.forall_mem_append.mp (List.forall_mem_cons.mp hl).2
    have hcalled : (s.record (.invoked u path entry.1 d)).Orderly := hs.record rfl
    obtain ⟨hb₁, hbooked⟩ := ihc hcalled hduring hb trivial
    obtain ⟨hb', hbooked'⟩ := ih (hcallback.runs.orderly hcalled) hafter hb₁
      fun path d entry hm => hj path d entry (List.mem_cons_of_mem _ hm)
    exact ⟨hb', List.forall_mem_cons.mpr ⟨hj path d entry List.mem_cons_self,
      List.forall_mem_append.mpr ⟨hbooked, hbooked'⟩⟩⟩
  | @failed u path d entry _ reason _ _ s _ _ _ _ _ hcallback _ ihc ih =>
    obtain ⟨hduring, hafter⟩ := List.forall_mem_append.mp (List.forall_mem_cons.mp hl).2
    have hcalled : (s.record (.invoked u path entry.1 d)).Orderly := hs.record rfl
    obtain ⟨hb₁, hbooked⟩ := ihc hcalled hduring hb trivial
    obtain ⟨hb', hbooked'⟩ := ih ((hcallback.runs.orderly hcalled).record rfl) hafter hb₁
      fun path d entry hm => hj path d entry (List.mem_cons_of_mem _ hm)
    exact ⟨hb', List.forall_mem_cons.mpr ⟨hj path d entry List.mem_cons_self,
      List.forall_mem_append.mpr ⟨hbooked, hbooked'⟩⟩⟩

end Hub

end Book

/-- Whenever the listener was called, it was as one of this path and with this reaction. -/
def CalledFor (trace : List (Happening V C)) (r : RegistryId) (id : ListenerId) (path : Path)
    (reaction : Reaction C) : Prop :=
  ∀ u path' reaction' d outcome, .told u path' id reaction' d outcome ∈ trace →
    u.registry = r → path' = path ∧ reaction' = reaction

namespace Hub

variable {respond : C → Delivery V → Program V C S N Unit} {α : Type} {p : Program V C S N α}
  {result : Except Failure α} {trace : List (Happening V C)} {s s' : Hub V C S N}
  {r : RegistryId} {path : Path} {id : ListenerId}

theorem Holds.listed {entry : ListenerId × Listener C} (h : s.Holds r path entry)
    (hs : s.Consistent) : Listed r path entry.1 s.history := by
  obtain ⟨registry, hreg, hm⟩ := h
  have hr := hs.reflects r registry hreg
  exact (hr.listed path entry.1).mp
    (Option.isSome_of_eq_some (Table.get?_of_mem (hr.group_ascending path) hm))

/-- A number stands for one listener at one path. -/
theorem Holds.unique {l l' : Listener C} {path' : Path} (h : s.Holds r path (id, l))
    (h' : s.Holds r path' (id, l')) (hs : s.Consistent) : path' = path ∧ l' = l := by
  obtain rfl := hs.issuedOnce.path_eq (h'.listed hs).1 (h.listed hs).1
  obtain ⟨registry, hreg, hm⟩ := h
  obtain ⟨registry', hreg', hm'⟩ := h'
  cases hreg.symm.trans hreg'
  have hg := (hs.reflects r registry hreg).group_ascending path'
  have hl := (Table.get?_of_mem hg hm').symm.trans (Table.get?_of_mem hg hm)
  exact ⟨rfl, Option.some.inj hl⟩

/-- Registered in a state, or in a trace. -/
def Enrolled (s : Hub V C S N) (trace : List (Happening V C)) (r : RegistryId) (path : Path)
    (id : ListenerId) (reaction : Reaction C) : Prop :=
  (∃ l, s.Holds r path (id, l) ∧ l.reaction = reaction) ∨ .listened r path id reaction ∈ trace

/-- Who is called was registered when the evaluation began, or in it. -/
theorem Evaluates.isBooked (h : Evaluates respond (.program p result) s trace s')
    (hs : s.Orderly) : ∀ x ∈ trace, x.IsBooked (s.Enrolled trace) := by
  have hnoted : ∀ x ∈ trace, x.IsNoted (s.Enrolled trace) := fun x hx => by
    cases x with
    | listened => exact .inr hx
    | told => trivial
  exact (h.booked hs hnoted (fun _ _ entry hheld => .inl ⟨entry.2, hheld, rfl⟩) trivial).2

/-- A listener that is registered in an evaluation was not registered before. -/
theorem Evaluates.not_holds_of_listened (h : Evaluates respond (.program p result) s trace s')
    (hs : s.Orderly) {reaction : Reaction C} (hm : .listened r path id reaction ∈ trace)
    {path' : Path} {l : Listener C} : ¬ s.Holds r path' (id, l) := by
  intro hheld
  obtain ⟨piece, hh, htells⟩ := h.traced hs
  have honce := (h.runs.orderly hs).consistent.issuedOnce
  rw [hh] at honce
  have hnew := htells.registered_mem_iff.mpr ⟨reaction, hm⟩
  have hold := (hheld.listed hs.consistent).1
  exact (List.pairwise_append.mp honce).2.2 _ hold _ hnew r path id rfl rfl

/-- What a listener does when it is called is what it was registered to do before. -/
theorem Evaluates.calledFor_of_holds (h : Evaluates respond (.program p result) s trace s')
    (hs : s.Orderly) {l : Listener C} (hheld : s.Holds r path (id, l)) :
    CalledFor trace r id path l.reaction := by
  rintro u path' reaction' d outcome hm rfl
  rcases h.isBooked hs _ hm with ⟨l', hheld', rfl⟩ | hlistened
  · obtain ⟨rfl, rfl⟩ := hheld.unique hheld' hs.consistent
    exact ⟨rfl, rfl⟩
  · exact absurd hheld (h.not_holds_of_listened hs hlistened)

/-- What a listener does when it is called is what it was registered to do meanwhile. -/
theorem Evaluates.calledFor_of_listened (h : Evaluates respond (.program p result) s trace s')
    (hs : s.Orderly) {reaction : Reaction C} (hl : .listened r path id reaction ∈ trace) :
    CalledFor trace r id path reaction := by
  rintro u path' reaction' d outcome hm rfl
  rcases h.isBooked hs _ hm with ⟨l', hheld', rfl⟩ | hlistened
  · exact absurd hheld' (h.not_holds_of_listened hs hl)
  · obtain ⟨piece, hh, htells⟩ := h.traced hs
    have honce := (h.runs.orderly hs).consistent.issuedOnce
    rw [hh] at honce
    exact htells.listened_unique (List.pairwise_append.mp honce).2.1 hlistened hl

/-- An update that returns, in any state and whatever callbacks do: who is registered where is fixed
when it begins, and so is the snapshot that it replaces, which are those of the registry. It calls
exactly the listeners registered then at the paths that changed, even if they are cancelled
meanwhile, and none that is registered meanwhile: the callbacks of these listeners are evaluated on
the new state at their path, as the trace has it and the journal tells. Updates that begin meanwhile
have higher numbers; they do the same from their own beginning, and are over before anything else
goes on. The summary counts the changed paths and the update's own calls, failed and not. -/
theorem Reachable.update_performs (hs : s.Reachable) {r : RegistryId} {registry : Registry V C}
    (hreg : s.registry? r = some registry) {depth : Nat} {tree : Tree V} {summary : UpdateSummary}
    (h : update (invokeWithin respond depth) r tree s = some (summary, s')) :
    registry.current = current? r s.history ∧
    (∀ path, (registry.group path).map Prod.fst = listeners r path s.history ∧
      (listeners r path s.history).Pairwise (· < ·)) ∧
    ∃ paths during trace,
      Evaluates respond (.program (.apply r tree) (.ok summary)) s trace s' ∧
      s'.history =
        s.history ++ .applied (s.nextUpdateOf r registry) tree paths.length :: during ∧
      Tells during trace ∧
      (tellings (s.nextUpdateOf r registry) trace = paths.flatMap fun path =>
        (registry.group path).map fun (id, l) =>
          (path, id, l.reaction, Delivery.ofSubtree? (tree.subtree? path))) ∧
      Performed s.history (s.nextUpdateOf r registry) tree paths during ∧
      Nested (s.history ++ [.applied (s.nextUpdateOf r registry) tree paths.length]) during ∧
      (∀ v tree' changed, .applied v tree' changed ∈ during →
        (s.nextUpdateOf r registry).number < v.number) ∧
      summary.changedPaths = paths.length ∧
      summary.delivered = (outcomes (s.nextUpdateOf r registry) trace).countP (·.isOk) ∧
      summary.failed = (outcomes (s.nextUpdateOf r registry) trace).countP (!·.isOk) ∧
      summary.failed = (failures (s.nextUpdateOf r registry) during).length ∧
      summary.delivered + summary.failed =
        (invocations (s.nextUpdateOf r registry) during).length := by
  have ho := hs.orderly
  have hr := ho.consistent.reflects r registry hreg
  have hbegun := ho.beginUpdate hreg tree
  obtain ⟨tally, trace, s₁, hcalls, rfl, rfl⟩ := update_evaluates hreg h
  obtain ⟨during, hd, hperf, hmakes⟩ := extends_update ho hreg (hcalls.runs.adds hbegun)
  have hreports : Reported (s.nextUpdateOf r registry) (registry.calls tree) tally trace :=
    hcalls.reports hbegun (Nat.lt_succ_self s.nextUpdate)
  have hevaluates := Evaluates.apply hreg hcalls
  have hlength : ((registry.pending tree).map Pending.path).length =
      (registry.pending tree).length := List.length_map _
  have hhistory := (hd.update hlength hperf).history_eq
  obtain ⟨piece, hpiece, htells⟩ := hevaluates.traced ho
  obtain rfl := List.append_cancel_left (hpiece.symm.trans hhistory)
  have hduring : Tells during trace := by
    cases htells with
    | other _ htells => exact htells
  have hnested := hd.nested
  rw [history_beginUpdate, ← hlength] at hnested
  have hmade : tally.delivered + tally.failed =
      (invocations (s.nextUpdateOf r registry) during).length := by
    rw [hmakes.invoked]
    exact hmakes.made_eq
  exact ⟨hr.current, fun path => ⟨hr.map_group ho.inOrder path,
    ho.inOrder.listeners_pairwise r path⟩, _, during, trace, hevaluates, hhistory, hduring,
    hreports.tellings_eq.trans (hr.tellings_calls tree), hperf, hnested, hd.begun, hlength.symm,
    hreports.delivered_eq, hreports.failed_eq, hmakes.failed_eq, hmade⟩

/-- The listener at the root, when it is called first, cancels the second one at `a`, registers a
third one there and applies another snapshot. The first one at `a` fails both times. The other two
note what they are told: the third one hears of the second snapshot, and then the second one, though
it is cancelled, of the first snapshot. -/
theorem update_performs_reentered :
    let scheme : Scheme String := ⟨.blake3, Encoding.utf8⟩
    let t := (Tree.empty scheme 0).replay 1 [.insert ["a"] "1"]
    let t' := t.replay 2 [.insert ["a"] "2"]
    let respond : Nat → Delivery String →
        Program String Nat (Bool × List (Option Hash)) Unit Unit := fun code d =>
      .ask .ambient fun (again, heard) =>
        if code = 0 then
          if again then .done () else
            .ask (.setAmbient (true, heard)) fun _ => .ask (.cancel 0 ["a"] 3) fun _ =>
              .ask (.listen 0 ["a"] 2 []) fun _ => .update 0 t' fun _ => .done ()
        else if code = 1 then .fail none
        else .ask (.setAmbient (again, heard ++ [d.hash?])) fun _ => .done ()
    let p : Program String Nat (Bool × List (Option Hash)) Unit Unit :=
      .ask (.openRegistry ⟨"config", .blake3⟩) fun r => .ask (.listen r [] 0 []) fun _ =>
        .ask (.listen r ["a"] 1 []) fun _ => .ask (.listen r ["a"] 2 []) fun _ => .done ()
    let outer : Update := ⟨0, 0, "config"⟩
    let inner : Update := ⟨1, 0, "config"⟩
    ∃ s s' summary paths during trace,
      run respond 2 p (new (false, [])) = some (.ok (), s) ∧
      update (invokeWithin respond 2) 0 t s = some (summary, s') ∧
      Evaluates respond (.program (.apply 0 t) (.ok summary)) s trace s' ∧
      s'.history = s.history ++ .applied outer t paths.length :: during ∧
      Tells during trace ∧
      Performed s.history outer t paths during ∧
      Nested (s.history ++ [.applied outer t paths.length]) during ∧
      (invocations outer during).map (fun (path, id, _) => (path, id)) =
        [([], 1), (["a"], 2), (["a"], 3)] ∧
      (invocations inner during).map (fun (path, id, _) => (path, id)) =
        [([], 1), (["a"], 2), (["a"], 4)] ∧
      s'.ambient.2 = [t'.hash? ["a"], t.hash? ["a"]] ∧
      summary = ⟨2, 2, 1⟩ ∧ (outcomes outer trace).countP (!·.isOk) = 1 := by
  intro scheme t t' respond p outer inner
  have hall : ((run respond 2 p (new (false, []))).any fun x =>
      (Hub.registry? x.2 0).any fun registry =>
      (update (invokeWithin respond 2) 0 t x.2).any fun y =>
      decide (x.1.isOk = true ∧ x.2.nextUpdateOf 0 registry = outer ∧ y.1 = ⟨2, 2, 1⟩ ∧
        (invocations outer (y.2.history.drop (x.2.history.length + 1))).map
          (fun (path, id, _) => (path, id)) = [([], 1), (["a"], 2), (["a"], 3)] ∧
        (invocations inner (y.2.history.drop (x.2.history.length + 1))).map
          (fun (path, id, _) => (path, id)) = [([], 1), (["a"], 2), (["a"], 4)] ∧
        y.2.ambient.2 = [t'.hash? ["a"], t.hash? ["a"]])) = true := by
    decide +kernel +zetaReduce
  obtain ⟨⟨result, s⟩, hrun, hall⟩ := (Option.any_eq_true _ _).mp hall
  obtain ⟨registry, hreg, hall⟩ := (Option.any_eq_true _ _).mp hall
  obtain ⟨⟨summary, s'⟩, hupdate, hall⟩ := (Option.any_eq_true _ _).mp hall
  obtain ⟨hok, hu, hsummary, houter, hinner, hheard⟩ := of_decide_eq_true hall
  obtain ⟨-, -, paths, during, trace, hevaluates, hhistory, htells, -, hperf, hnested, -, -, -,
    hfailed, -⟩ := (reachable_run (.new (false, [])) hrun).update_performs hreg hupdate
  have hresult : result = .ok () := by
    cases result with
    | ok => rfl
    | error => cases hok
  have hduring : s'.history.drop (s.history.length + 1) = during := by
    rw [hhistory, List.drop_append]
    simp
  rw [hduring] at houter hinner
  rw [hu] at hhistory hperf hnested hfailed
  have hone : summary.failed = 1 := congrArg UpdateSummary.failed hsummary
  exact ⟨s, s', summary, paths, during, trace, hresult ▸ hrun, hupdate, hevaluates, hhistory,
    htells, hperf, hnested, houter, hinner, hheard, hsummary, hfailed.symm.trans hone⟩

end Hub

end ConfigTree
