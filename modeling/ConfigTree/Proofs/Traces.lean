import ConfigTree.Proofs.Course
import ConfigTree.Proofs.Changes
/-!
# The journal tells the trace

What an evaluation adds to the journal and its trace agree (`Tells`): listeners are registered in
the same order, and every entry for a call stands where the update called that listener. If a
callback was called, what its evaluation wrote comes next, and then a failure exactly if it failed.
So what the journal says was delivered to a listener is what it was told (`Tells.payloads_eq`).
-/

namespace ConfigTree

variable {V C S N : Type}

namespace Entry

/-- The entry tells of a registration or of a call. -/
def isTelling : Entry V N → Bool
  | registered .. | invoked .. | failed .. => true
  | _ => false

/-- The call of which the entry tells. -/
def call? : Entry V N → Option (Update × Path × ListenerId × Delivery V)
  | invoked u path id d => some (u, path, id, d)
  | _ => none

end Entry

/-- A piece of the journal tells a trace. -/
inductive Tells : List (Entry V N) → List (Happening V C) → Prop
  | nil : Tells [] []
  | other {e : Entry V N} {piece : List (Entry V N)} {trace : List (Happening V C)}
      (he : e.isTelling = false) (h : Tells piece trace) : Tells (e :: piece) trace
  | listened {r : RegistryId} {path : Path} {id : ListenerId} {reaction : Reaction C}
      {piece : List (Entry V N)} {trace : List (Happening V C)} (h : Tells piece trace) :
      Tells (.registered r path id :: piece) (.listened r path id reaction :: trace)
  | succeeded {u : Update} {path : Path} {id : ListenerId} {reaction : Reaction C}
      {d : Delivery V} {called piece : List (Entry V N)} {during trace : List (Happening V C)}
      (hc : Tells called during) (h : Tells piece trace) :
      Tells (.invoked u path id d :: (called ++ piece))
        (.told u path id reaction d (.ok ()) :: (during ++ trace))
  | failed {u : Update} {path : Path} {id : ListenerId} {reaction : Reaction C} {d : Delivery V}
      {reason : Failure} {called piece : List (Entry V N)} {during trace : List (Happening V C)}
      (hc : Tells called during) (h : Tells piece trace) :
      Tells (.invoked u path id d :: (called ++ .failed u path id reason :: piece))
        (.told u path id reaction d (.error reason) :: (during ++ trace))

section Tells

variable {piece piece' : List (Entry V N)} {trace trace' : List (Happening V C)}

theorem Tells.append (h : Tells piece trace) (h' : Tells piece' trace') :
    Tells (piece ++ piece') (trace ++ trace') := by
  induction h with
  | nil => exact h'
  | other he _ ih => exact .other he ih
  | listened _ ih => exact .listened ih
  | succeeded hc _ _ ih =>
    rw [List.cons_append, List.cons_append, List.append_assoc, List.append_assoc]
    exact .succeeded hc ih
  | failed hc _ _ ih =>
    rw [List.cons_append, List.cons_append, List.append_assoc, List.append_assoc]
    exact .failed hc ih

theorem tells_nil_of_silent (h : ∀ e ∈ piece, e.isTelling = false) :
    Tells piece ([] : List (Happening V C)) := by
  induction piece with
  | nil => exact .nil
  | cons e rest ih =>
    obtain ⟨he, hrest⟩ := List.forall_mem_cons.mp h
    exact .other he (ih hrest)

/-- What is read off registrations and calls is the same in both. -/
theorem Tells.filterMap_eq {β : Type} {f : Entry V N → Option β} {g : Happening V C → Option β}
    (h : Tells piece trace) (ho : ∀ e : Entry V N, e.isTelling = false → f e = none)
    (hl : ∀ r path id reaction, f (.registered r path id) = g (.listened r path id reaction))
    (ht : ∀ u path id reaction d outcome,
      f (.invoked u path id d) = g (.told u path id reaction d outcome))
    (hf : ∀ u path id text, f (.failed u path id text) = none) :
    piece.filterMap f = trace.filterMap g := by
  induction h with
  | nil => rfl
  | other he _ ih => rw [List.filterMap_cons_none (ho _ he), ih]
  | listened _ ih => rw [List.filterMap_cons, List.filterMap_cons, ← hl, ih]
  | succeeded _ _ ihc ih =>
    rw [List.filterMap_cons, List.filterMap_cons, ← ht, List.filterMap_append,
      List.filterMap_append, ihc, ih]
  | failed _ _ ihc ih =>
    rw [List.filterMap_cons, List.filterMap_cons, ← ht, List.filterMap_append,
      List.filterMap_append, ihc, List.filterMap_cons_none (hf ..), ih]

end Tells

namespace Happening

/-- The registration that was made. -/
def registration? : Happening V C → Option (RegistryId × Path × ListenerId)
  | listened r path id _ => some (r, path, id)
  | _ => none

/-- The call that was made. -/
def call? : Happening V C → Option (Update × Path × ListenerId × Delivery V)
  | told u path id _ d _ => some (u, path, id, d)
  | _ => none

/-- What a listener was told. -/
def payload? (r : RegistryId) (id : ListenerId) : Happening V C → Option (Delivery V)
  | told u _ id' _ d _ => if u.registry = r ∧ id' = id then some d else none
  | _ => none

end Happening

/-- The payloads with which a listener was called, in order. -/
def payloads (r : RegistryId) (id : ListenerId) (trace : List (Happening V C)) :
    List (Delivery V) := trace.filterMap (Happening.payload? r id)

section Readings

variable {piece : List (Entry V N)} {trace : List (Happening V C)}

theorem Tells.payloads_eq (h : Tells piece trace) (r : RegistryId) (id : ListenerId) :
    payloads r id trace = deliveries r id piece :=
  (h.filterMap_eq (fun e he => by cases e <;> trivial) (fun _ _ _ _ => rfl)
    (fun _ _ _ _ _ _ => rfl) fun _ _ _ _ => rfl).symm

theorem Tells.invoked_mem (h : Tells piece trace) {u : Update} {path : Path} {id : ListenerId}
    {reaction : Reaction C} {d : Delivery V} {outcome : Except Failure Unit}
    (hm : .told u path id reaction d outcome ∈ trace) : .invoked u path id d ∈ piece := by
  have hcalls : piece.filterMap Entry.call? = trace.filterMap Happening.call? :=
    h.filterMap_eq (fun e he => by cases e <;> trivial) (fun _ _ _ _ => rfl)
      (fun _ _ _ _ _ _ => rfl) fun _ _ _ _ => rfl
  have hcall : (u, path, id, d) ∈ trace.filterMap Happening.call? :=
    List.mem_filterMap.mpr ⟨_, hm, rfl⟩
  rw [← hcalls] at hcall
  obtain ⟨e, he, hinvoked⟩ := List.mem_filterMap.mp hcall
  cases e <;> cases hinvoked
  exact he

theorem Tells.registrations_eq (h : Tells piece trace) :
    piece.filterMap Entry.registration? = trace.filterMap Happening.registration? :=
  h.filterMap_eq (fun e he => by cases e <;> trivial) (fun _ _ _ _ => rfl)
    (fun _ _ _ _ _ _ => rfl) fun _ _ _ _ => rfl

theorem Tells.registered_mem_iff (h : Tells piece trace) {r : RegistryId} {path : Path}
    {id : ListenerId} :
    .registered r path id ∈ piece ↔ ∃ reaction, .listened r path id reaction ∈ trace := by
  have hmem : (r, path, id) ∈ piece.filterMap Entry.registration? ↔
      (r, path, id) ∈ trace.filterMap Happening.registration? := by rw [h.registrations_eq]
  rw [List.mem_filterMap, List.mem_filterMap] at hmem
  constructor
  · intro hm
    obtain ⟨x, hx, he⟩ := hmem.mp ⟨_, hm, rfl⟩
    cases x with
    | listened r' path' id' reaction =>
      cases he
      exact ⟨reaction, hx⟩
    | told => cases he
  · rintro ⟨reaction, hx⟩
    obtain ⟨e, hm, he⟩ := hmem.mpr ⟨_, hx, rfl⟩
    exact Entry.registration?_eq_some.mp he ▸ hm

/-- A number stands for one registration. -/
theorem Tells.listened_unique (h : Tells piece trace) (ho : IssuedOnce piece) {r : RegistryId}
    {path path' : Path} {id : ListenerId} {reaction reaction' : Reaction C}
    (hm : .listened r path id reaction ∈ trace) (hm' : .listened r path' id reaction' ∈ trace) :
    path = path' ∧ reaction = reaction' := by
  have hentries : (piece.filterMap Entry.registration?).Pairwise
      fun x y => (x.1, x.2.2) ≠ (y.1, y.2.2) := by
    refine List.pairwise_filterMap.mpr (ho.imp ?_)
    rintro e e' hne ⟨r, path, id⟩ he ⟨r', path', id'⟩ he' heq
    obtain ⟨rfl, rfl⟩ := Prod.mk.inj heq
    cases Entry.registration?_eq_some.mp he
    exact hne r path' id (Entry.registration?_eq_some.mp he') rfl
  rw [h.registrations_eq] at hentries
  have hdistinct := List.pairwise_filterMap.mp hentries
  obtain ⟨early, late, hs⟩ := List.append_of_mem hm
  rw [hs] at hdistinct hm'
  obtain ⟨-, hlate, hearly⟩ := List.pairwise_append.mp hdistinct
  rcases List.mem_append.mp hm' with he | he
  · exact (hearly _ he _ List.mem_cons_self (r, path', id) rfl (r, path, id) rfl rfl).elim
  rcases List.mem_cons.mp he with he | he
  · cases he
    exact ⟨rfl, rfl⟩
  · exact ((List.pairwise_cons.mp hlate).1 _ he (r, path, id) rfl (r, path', id) rfl rfl).elim

end Readings

namespace Hub

/-- A listener is registered at a path. -/
def Holds (s : Hub V C S N) (r : RegistryId) (path : Path) (entry : ListenerId × Listener C) :
    Prop := ∃ registry, s.registry? r = some registry ∧ entry ∈ registry.group path

/-- Nobody is registered or called, and who is registered was so before. -/
structure Sheds (s s' : Hub V C S N) : Prop where
  silent : ∃ piece, s'.history = s.history ++ piece ∧ ∀ e ∈ piece, e.isTelling = false
  held : ∀ r path entry, s'.Holds r path entry → s.Holds r path entry

variable {s s₁ s' : Hub V C S N}

theorem sheds_of_eq (hh : s'.history = s.history)
    (hr : ∀ r path entry, s'.Holds r path entry → s.Holds r path entry) : Sheds s s' :=
  ⟨⟨[], hh.trans (List.append_nil _).symm, fun _ he => nomatch he⟩, hr⟩

theorem sheds_refl (s : Hub V C S N) : Sheds s s := sheds_of_eq rfl fun _ _ _ h => h

theorem sheds_of_entry {e : Entry V N} (hh : s'.history = s.history ++ [e])
    (he : e.isTelling = false)
    (hr : ∀ r path entry, s'.Holds r path entry → s.Holds r path entry) : Sheds s s' :=
  ⟨⟨[e], hh, fun _ hx => List.mem_singleton.mp hx ▸ he⟩, hr⟩

theorem Sheds.trans (h : Sheds s s₁) (h' : Sheds s₁ s') : Sheds s s' := by
  obtain ⟨piece, hh, hp⟩ := h.silent
  obtain ⟨piece', hh', hp'⟩ := h'.silent
  refine ⟨⟨piece ++ piece', by rw [hh', hh, List.append_assoc], fun e he => ?_⟩,
    fun r path entry hheld => h.held r path entry (h'.held r path entry hheld)⟩
  exact (List.mem_append.mp he).elim (hp e) (hp' e)

theorem holds_setRegistry_iff {r r' : RegistryId} {registry : Registry V C} {path : Path}
    {entry : ListenerId × Listener C} : (s.setRegistry r registry).Holds r' path entry ↔
      if r' = r then entry ∈ registry.group path else s.Holds r' path entry := by
  rw [Holds, registry?_setRegistry]
  split
  · simp
  · rfl

/-- The number of handles does not matter to listeners. -/
theorem setHandles_sheds {r : RegistryId} {registry : Registry V C}
    (hreg : s.registry? r = some registry) (handles : Nat) :
    Sheds s (s.setRegistry r { registry with handles }) := by
  refine sheds_of_eq rfl fun r' path entry hheld => ?_
  have hheld' := holds_setRegistry_iff.mp hheld
  split at hheld'
  · next hr => exact ⟨registry, hr ▸ hreg, hheld'⟩
  · exact hheld'

theorem Closing.sheds (h : Closing s s') (hs : s.Consistent) : Sheds s s' := by
  cases h with
  | @cancelled r registry left path id l hreg hc =>
    refine sheds_of_entry (history_record _ _) rfl fun r' path' entry hheld => ?_
    have hheld' := holds_setRegistry_iff.mp hheld
    split at hheld'
    · next hr =>
      rw [Registry.group_cancel (hs.reflects r registry hreg).ascending hc] at hheld'
      refine ⟨registry, hr ▸ hreg, ?_⟩
      split at hheld'
      · next hpath => exact hpath ▸ (Table.erase_sublist _ _).subset hheld'
      · exact hheld'
    · exact hheld'
  | closed subscription => exact sheds_of_eq rfl fun _ _ _ h => h
  | detached name path id => exact sheds_of_entry (history_record _ _) rfl fun _ _ _ h => h

theorem Closings.sheds (h : Closings s s') (hs : s.Consistent) : Sheds s s' := by
  induction h with
  | refl => exact sheds_refl s
  | tail hpre hclosing ih =>
    have hmid : Closings s _ := hpre
    exact ih.trans (hclosing.sheds (hs.steps hmid.acts.steps))

theorem endIfUnused_sheds (hs : s.Consistent) (r : RegistryId) : Sheds s (s.endIfUnused r) := by
  rcases endIfUnused_cases s r with ⟨he, -⟩ | ⟨-, hclosings⟩
  · rw [he]
    exact sheds_refl s
  · have hended : Sheds s { s with registries := Table.erase r s.registries } :=
      sheds_of_eq rfl fun r' path entry ⟨registry, hreg, hm⟩ =>
        ⟨registry, Table.get?_of_erase hs.ascending hreg, hm⟩
    exact hended.trans (hclosings.sheds (hs.endRegistry r))

theorem endUpdate_sheds (hs : s.Consistent) : Sheds s s.endUpdate := by
  rcases endUpdate_cases s with ⟨-, he⟩ | ⟨d, outer, s₁, h, hclosings, he⟩
  · rw [he]
    exact sheds_refl s
  · have hs' : Hub.Consistent { s with dispatches := outer } := hs.congr rfl rfl rfl
    have hover : Sheds s { s with dispatches := outer } := sheds_of_eq rfl fun _ _ _ h => h
    rw [he]
    exact (hover.trans (hclosings.sheds hs')).trans
      (endIfUnused_sheds (hs'.steps hclosings.acts.steps) d.registry)

/-- What a request does to listeners: it registers the one that its reply tells, or none. -/
theorem perform_cases (hs : s.Consistent) (q : Request V C S N) :
    (q.registers (q.perform s).1 = [] ∧ Sheds s (q.perform s).2) ∨
      ∃ r registry path l, s.registry? r = some registry ∧
        q.registers (q.perform s).1 = [.listened r path registry.nextId l.reaction] ∧
        (q.perform s).2.registries = (s.register r registry path l).registries ∧
        (q.perform s).2.history = s.history ++ [.registered r path registry.nextId] := by
  cases q with
  | openRegistry settings =>
    refine .inl ⟨rfl, sheds_of_eq rfl fun r path entry hheld => ?_⟩
    have hheld' := (holds_setRegistry_iff (s := s)).mp hheld
    split at hheld'
    · cases hheld'
    · exact hheld'
  | addHandle r =>
    refine .inl ⟨rfl, ?_⟩
    rw [Request.perform, addHandle]
    split
    · exact sheds_refl s
    · next registry hreg => exact setHandles_sheds hreg _
  | dropHandle r =>
    refine .inl ⟨rfl, ?_⟩
    rw [Request.perform, dropHandle]
    split
    · exact sheds_refl s
    · next registry hreg =>
      exact (setHandles_sheds hreg _).trans (endIfUnused_sheds (hs.setHandles hreg _) r)
  | look r => exact .inl ⟨rfl, sheds_refl s⟩
  | listen r path code owned =>
    rw [Request.perform, listen]
    cases hreg : s.registry? r with
    | none => exact .inl ⟨rfl, sheds_refl s⟩
    | some registry =>
      exact .inr ⟨r, registry, path, ⟨.callback code, owned⟩, hreg, rfl, rfl, history_record _ _⟩
  | cancel r path id => exact .inl ⟨rfl, (cancel_closings s r path id).sheds hs⟩
  | subscribe r path =>
    rw [Request.perform, subscribe]
    cases hreg : s.registry? r with
    | none => exact .inl ⟨rfl, sheds_refl s⟩
    | some registry =>
      exact .inr ⟨r, registry, path, ⟨.feed s.nextSubscription, []⟩, hreg, rfl, rfl,
        history_record _ _⟩
  | poll subscription =>
    refine .inl ⟨rfl, ?_⟩
    rw [Request.perform, poll]
    split
    · exact sheds_refl s
    · split
      · exact sheds_of_entry (history_record _ _) rfl fun _ _ _ h => h
      · exact sheds_refl s
  | close subscription => exact .inl ⟨rfl, (close_closings s subscription).sheds hs⟩
  | ambient => exact .inl ⟨rfl, sheds_refl s⟩
  | setAmbient a => exact .inl ⟨rfl, sheds_of_eq rfl fun _ _ _ h => h⟩
  | note n => exact .inl ⟨rfl, sheds_of_entry (history_record _ _) rfl fun _ _ _ h => h⟩

/-- What was added to the journal from one state to another tells the trace. -/
def Traced (s s' : Hub V C S N) (trace : List (Happening V C)) : Prop :=
  ∃ piece, s'.history = s.history ++ piece ∧ Tells piece trace

variable {trace trace' : List (Happening V C)}

theorem Traced.trans (h : Traced s s₁ trace) (h' : Traced s₁ s' trace') :
    Traced s s' (trace ++ trace') := by
  obtain ⟨piece, hh, hp⟩ := h
  obtain ⟨piece', hh', hp'⟩ := h'
  exact ⟨piece ++ piece', by rw [hh', hh, List.append_assoc], hp.append hp'⟩

theorem Sheds.traced (h : Sheds s s') : Traced s s' ([] : List (Happening V C)) := by
  obtain ⟨piece, hh, hp⟩ := h.silent
  exact ⟨piece, hh, tells_nil_of_silent hp⟩

theorem traced_record (s : Hub V C S N) {e : Entry V N} (he : e.isTelling = false) :
    Traced s (s.record e) ([] : List (Happening V C)) :=
  ⟨[e], history_record s e, .other he .nil⟩

theorem perform_traced (hs : s.Consistent) (q : Request V C S N) :
    Traced s (q.perform s).2 (q.registers (q.perform s).1) := by
  rcases perform_cases hs q with ⟨hnone, hsheds⟩ | ⟨r, registry, path, l, -, hone, -, hh⟩
  · exact hnone ▸ hsheds.traced
  · exact ⟨_, hh, hone ▸ .listened .nil⟩

/-- A call that succeeds, between what its callback does and the calls after it. -/
theorem Traced.succeeded {u : Update} {path : Path} {id : ListenerId} {reaction : Reaction C}
    {d : Delivery V} (hc : Traced (s.record (.invoked u path id d)) s₁ trace)
    (h : Traced s₁ s' trace') :
    Traced s s' (.told u path id reaction d (.ok ()) :: (trace ++ trace')) := by
  obtain ⟨called, hh, hp⟩ := hc
  obtain ⟨piece, hh', hp'⟩ := h
  refine ⟨_, ?_, .succeeded hp hp'⟩
  rw [hh', hh, history_record]
  simp

/-- A call that fails. -/
theorem Traced.failed {u : Update} {path : Path} {id : ListenerId} {reaction : Reaction C}
    {d : Delivery V} {reason : Failure} (hc : Traced (s.record (.invoked u path id d)) s₁ trace)
    (h : Traced (s₁.record (.failed u path id reason)) s' trace') :
    Traced s s' (.told u path id reaction d (.error reason) :: (trace ++ trace')) := by
  obtain ⟨called, hh, hp⟩ := hc
  obtain ⟨piece, hh', hp'⟩ := h
  refine ⟨_, ?_, .failed hp hp'⟩
  rw [hh', history_record, hh, history_record]
  simp

/-- Whatever is evaluated, the journal tells its trace. -/
theorem Evaluates.traced {respond : C → Delivery V → Program V C S N Unit} {job : Job V C S N}
    (h : Evaluates respond job s trace s') (hs : s.Orderly) : Traced s s' trace := by
  induction h with
  | done a s => exact (sheds_refl s).traced
  | fail reason s => exact (sheds_refl s).traced
  | @ask _ q _ _ s _ _ _ ih =>
    exact (perform_traced hs.consistent q).trans (ih (hs.steps (perform_steps s q)))
  | idle _ _ ih => exact ih hs
  | @update _ r registry tree _ _ _ s s₁ _ _ _ hreg hcalls _ ihc ih =>
    have hbegun := hs.beginUpdate hreg tree
    have hcalled := hcalls.runs.orderly hbegun
    have hbegins : Traced s (s.beginUpdate r registry tree) ([] : List (Happening V C)) :=
      ⟨_, history_beginUpdate s r registry tree, .other rfl .nil⟩
    have hends := (endUpdate_sheds hcalled.consistent).traced
    exact (hbegins.trans (ihc hbegun)).trans
      (hends.trans (ih (hcalled.steps (endUpdate_steps s₁))))
  | finished u s => exact (sheds_refl s).traced
  | @announced u path isPresent _ _ s _ _ _ ih =>
    exact (traced_record s (e := .reached u path isPresent) rfl).trans (ih (hs.record rfl))
  | @fed u path d entry n _ _ s _ _ _ _ ih =>
    have hpushed := hs.record (e := .invoked u path entry.1 d) rfl
    have hpush : Traced (s.record (.invoked u path entry.1 d))
        ((s.record (.invoked u path entry.1 d)).push n d) ([] : List (Happening V C)) :=
      ⟨[], (history_push _ n d).trans (List.append_nil _).symm, .nil⟩
    exact hpush.succeeded (ih (hpushed.push n d))
  | @returned u path d entry _ _ _ s _ _ _ _ _ hcallback _ ihc ih =>
    have hcalled : (s.record (.invoked u path entry.1 d)).Orderly := hs.record rfl
    exact (ihc hcalled).succeeded (ih (hcallback.runs.orderly hcalled))
  | @failed u path d entry _ _ _ _ s _ _ _ _ _ hcallback _ ihc ih =>
    have hcalled : (s.record (.invoked u path entry.1 d)).Orderly := hs.record rfl
    exact (ihc hcalled).failed (ih ((hcallback.runs.orderly hcalled).record rfl))

end Hub

end ConfigTree
