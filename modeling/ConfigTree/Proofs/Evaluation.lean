import ConfigTree.Registry.Run
/-!
# Programs as they are evaluated

What a program does, told without a bound on the nesting (`Hub.Evaluates`): it makes its requests,
an update makes its calls one after another, and the call of a callback is the evaluation of the
callback's own program on the delivery. The evaluation keeps a trace, of who was registered to do
what, and of every call with its outcome. Runs within a bound are such evaluations
(`Hub.run_evaluates`).
-/

namespace ConfigTree

/-- What an update does next. -/
inductive Call (V C : Type) where
  /-- It reaches a changed path. -/
  | announce (path : Path) (isPresent : Bool)
  | invoke (path : Path) (d : Delivery V) (entry : ListenerId × Listener C)

/-- What has to be done about one changed path. -/
def Pending.calls {V C : Type} (p : Pending V C) : List (Call V C) :=
  .announce p.path p.delivery.isPresent :: p.listeners.map (.invoke p.path p.delivery)

namespace Registry

/-- The calls that a new snapshot leads to. -/
def calls {V C : Type} (registry : Registry V C) (tree : Tree V) : List (Call V C) :=
  (registry.pending tree).flatMap Pending.calls

end Registry

/-- What concerns a listener in an evaluation. -/
inductive Happening (V C : Type) where
  /-- A caller registered it, and was given its number. -/
  | listened (r : RegistryId) (path : Path) (id : ListenerId) (reaction : Reaction C)
  /-- An update called it, with this outcome. -/
  | told (u : Update) (path : Path) (id : ListenerId) (reaction : Reaction C) (d : Delivery V)
      (outcome : Except Failure Unit)

namespace Request

variable {V C S N : Type}

/-- Whom the request registers, by its reply. -/
def registers : (q : Request V C S N) → q.Reply → List (Happening V C)
  | listen r path code _, some id => [.listened r path id (.callback code)]
  | subscribe r path, some (n, id) => [.listened r path id (.feed n)]
  | _, _ => []

end Request

namespace Hub

variable {V C S N α : Type}

/-- What is to be evaluated, and its result. -/
inductive Job (V C S N : Type) : Type 1 where
  | program {α : Type} (p : Program V C S N α) (result : Except Failure α)
  /-- An update that has calls ahead of it, of which so many succeed and fail. -/
  | calls (u : Update) (ahead : List (Call V C)) (tally : Tally)

/-- The evaluation of a job leads from one state to another, with a trace. A callback of code `code`
is evaluated as the program `respond code d` on the delivery `d`. -/
inductive Evaluates (respond : C → Delivery V → Program V C S N Unit) :
    Job V C S N → Hub V C S N → List (Happening V C) → Hub V C S N → Prop
  | done {α : Type} (a : α) (s : Hub V C S N) :
      Evaluates respond (.program (.done a) (.ok a)) s [] s
  | fail {α : Type} (reason : Failure) (s : Hub V C S N) :
      Evaluates respond (.program (.fail reason : Program V C S N α) (.error reason)) s [] s
  | ask {α : Type} {q : Request V C S N} {next : q.Reply → Program V C S N α}
      {result : Except Failure α} {s s' : Hub V C S N} {trace : List (Happening V C)}
      (h : Evaluates respond (.program (next (q.perform s).1) result) (q.perform s).2 trace s') :
      Evaluates respond (.program (.ask q next) result) s
        (q.registers (q.perform s).1 ++ trace) s'
  /-- There is no such registry. -/
  | idle {α : Type} {r : RegistryId} {tree : Tree V} {next : UpdateSummary → Program V C S N α}
      {result : Except Failure α} {s s' : Hub V C S N} {trace : List (Happening V C)}
      (hreg : s.registry? r = none)
      (h : Evaluates respond (.program (next ⟨0, 0, 0⟩) result) s trace s') :
      Evaluates respond (.program (.update r tree next) result) s trace s'
  | update {α : Type} {r : RegistryId} {registry : Registry V C} {tree : Tree V}
      {next : UpdateSummary → Program V C S N α} {result : Except Failure α} {tally : Tally}
      {s s₁ s' : Hub V C S N} {during after : List (Happening V C)}
      (hreg : s.registry? r = some registry)
      (hcalls : Evaluates respond (.calls (s.nextUpdateOf r registry) (registry.calls tree) tally)
        (s.beginUpdate r registry tree) during s₁)
      (h : Evaluates respond
        (.program (next ⟨(registry.pending tree).length, tally.delivered, tally.failed⟩) result)
        s₁.endUpdate after s') :
      Evaluates respond (.program (.update r tree next) result) s (during ++ after) s'
  | finished (u : Update) (s : Hub V C S N) : Evaluates respond (.calls u [] ⟨0, 0⟩) s [] s
  | announced {u : Update} {path : Path} {isPresent : Bool} {ahead : List (Call V C)}
      {tally : Tally} {s s' : Hub V C S N} {trace : List (Happening V C)}
      (h : Evaluates respond (.calls u ahead tally) (s.record (.reached u path isPresent)) trace
        s') :
      Evaluates respond (.calls u (.announce path isPresent :: ahead) tally) s trace s'
  /-- The delivery is appended to the queue of a subscription. -/
  | fed {u : Update} {path : Path} {d : Delivery V} {entry : ListenerId × Listener C}
      {subscription : SubscriptionId} {ahead : List (Call V C)} {tally : Tally}
      {s s' : Hub V C S N} {trace : List (Happening V C)}
      (hfeed : entry.2.reaction = .feed subscription)
      (h : Evaluates respond (.calls u ahead tally)
        ((s.record (.invoked u path entry.1 d)).push subscription d) trace s') :
      Evaluates respond (.calls u (.invoke path d entry :: ahead) (tally.count true)) s
        (.told u path entry.1 entry.2.reaction d (.ok ()) :: trace) s'
  /-- The callback is evaluated and succeeds. -/
  | returned {u : Update} {path : Path} {d : Delivery V} {entry : ListenerId × Listener C}
      {code : C} {ahead : List (Call V C)} {tally : Tally} {s s₁ s' : Hub V C S N}
      {during after : List (Happening V C)} (hcode : entry.2.reaction = .callback code)
      (hcallback : Evaluates respond (.program (respond code d) (.ok ()))
        (s.record (.invoked u path entry.1 d)) during s₁)
      (h : Evaluates respond (.calls u ahead tally) s₁ after s') :
      Evaluates respond (.calls u (.invoke path d entry :: ahead) (tally.count true)) s
        (.told u path entry.1 entry.2.reaction d (.ok ()) :: (during ++ after)) s'
  /-- The callback is evaluated and fails. -/
  | failed {u : Update} {path : Path} {d : Delivery V} {entry : ListenerId × Listener C}
      {code : C} {reason : Failure} {ahead : List (Call V C)} {tally : Tally}
      {s s₁ s' : Hub V C S N} {during after : List (Happening V C)}
      (hcode : entry.2.reaction = .callback code)
      (hcallback : Evaluates respond (.program (respond code d) (.error reason))
        (s.record (.invoked u path entry.1 d)) during s₁)
      (h : Evaluates respond (.calls u ahead tally)
        (s₁.record (.failed u path entry.1 reason)) after s') :
      Evaluates respond (.calls u (.invoke path d entry :: ahead) (tally.count false)) s
        (.told u path entry.1 entry.2.reaction d (.error reason) :: (during ++ after)) s'

variable {respond : C → Delivery V → Program V C S N Unit}

/-- An update, by itself. -/
theorem Evaluates.apply {r : RegistryId} {registry : Registry V C} {tree : Tree V} {tally : Tally}
    {s s₁ : Hub V C S N} {trace : List (Happening V C)} (hreg : s.registry? r = some registry)
    (hcalls : Evaluates respond (.calls (s.nextUpdateOf r registry) (registry.calls tree) tally)
      (s.beginUpdate r registry tree) trace s₁) :
    Evaluates respond (.program (.apply r tree)
        (.ok ⟨(registry.pending tree).length, tally.delivered, tally.failed⟩))
      s trace s₁.endUpdate := by
  have hupdate : Evaluates respond (.program (.update r tree .done)
      (.ok ⟨(registry.pending tree).length, tally.delivered, tally.failed⟩))
      s (trace ++ []) s₁.endUpdate := .update hreg hcalls (.done _ _)
  rw [List.append_nil] at hupdate
  exact hupdate

section Programs

variable {invoke : Invoke V C S N}
  (hi : ∀ code d s result s', invoke code d s = some (result, s') →
    ∃ trace, Evaluates respond (.program (respond code d) result) s trace s')

include hi

theorem deliver_evaluates {u : Update} {path : Path} {d : Delivery V}
    {entry : ListenerId × Listener C} {ahead : List (Call V C)} {tally : Tally}
    {succeeded : Bool} {s s₁ s' : Hub V C S N} {after : List (Happening V C)}
    (h : deliver invoke u path d entry s = some (succeeded, s₁))
    (hrest : Evaluates respond (.calls u ahead tally) s₁ after s') :
    ∃ trace, Evaluates respond
      (.calls u (.invoke path d entry :: ahead) (tally.count succeeded)) s trace s' := by
  rw [deliver] at h
  cases hreact : entry.2.reaction with
  | feed subscription =>
    rw [hreact] at h
    cases h
    exact ⟨_, .fed hreact hrest⟩
  | callback code =>
    rw [hreact] at h
    dsimp only at h
    split at h
    · cases h
    · next hrun =>
      cases h
      obtain ⟨during, hcallback⟩ := hi _ _ _ _ _ hrun
      exact ⟨_, .returned hreact hcallback hrest⟩
    · next hrun =>
      cases h
      obtain ⟨during, hcallback⟩ := hi _ _ _ _ _ hrun
      exact ⟨_, .failed hreact hcallback hrest⟩

theorem deliverGroup_evaluates {u : Update} {path : Path} {d : Delivery V} {group : Group C}
    {ahead : List (Call V C)} {tally others : Tally} {s s₁ s' : Hub V C S N}
    {after : List (Happening V C)} (h : deliverGroup invoke u path d group s = some (tally, s₁))
    (hrest : Evaluates respond (.calls u ahead others) s₁ after s') :
    ∃ trace, Evaluates respond
      (.calls u (group.map (.invoke path d) ++ ahead) (tally.add others)) s trace s' := by
  induction group generalizing s tally with
  | nil =>
    cases h
    rw [Tally.add, Nat.zero_add, Nat.zero_add]
    exact ⟨after, hrest⟩
  | cons entry rest ih =>
    rw [deliverGroup] at h
    split at h
    · cases h
    · next succeeded s₂ hfirst =>
      split at h
      · cases h
      · next tally' s₃ hgroup =>
        cases h
        have hcount : (tally'.count succeeded).add others =
            (tally'.add others).count succeeded := by
          cases succeeded <;> simp [Tally.count, Tally.add, Nat.add_right_comm]
        obtain ⟨trace, hevaluates⟩ := ih hgroup
        rw [hcount]
        exact deliver_evaluates hi hfirst hevaluates

theorem deliverAll_evaluates {u : Update} {pending : List (Pending V C)} {tally : Tally}
    {s s' : Hub V C S N} (h : deliverAll invoke u pending s = some (tally, s')) :
    ∃ trace, Evaluates respond (.calls u (pending.flatMap Pending.calls) tally) s trace s' := by
  induction pending generalizing s tally with
  | nil =>
    cases h
    exact ⟨[], .finished u _⟩
  | cons p rest ih =>
    rw [deliverAll] at h
    split at h
    · cases h
    · next hgroup =>
      split at h
      · cases h
      · next hothers =>
        cases h
        obtain ⟨after, hrest⟩ := ih hothers
        obtain ⟨trace, hevaluates⟩ := deliverGroup_evaluates hi hgroup hrest
        exact ⟨trace, .announced hevaluates⟩

/-- An update begins, makes its calls and ends. -/
theorem update_evaluates_of {r : RegistryId} {registry : Registry V C} {tree : Tree V}
    {summary : UpdateSummary} {s s' : Hub V C S N} (hreg : s.registry? r = some registry)
    (h : update invoke r tree s = some (summary, s')) :
    ∃ tally trace s₁,
      Evaluates respond (.calls (s.nextUpdateOf r registry) (registry.calls tree) tally)
        (s.beginUpdate r registry tree) trace s₁ ∧
      s' = s₁.endUpdate ∧
      summary = ⟨(registry.pending tree).length, tally.delivered, tally.failed⟩ := by
  rw [update, hreg] at h
  dsimp only at h
  split at h
  · cases h
  · next tally s₁ hall =>
    cases h
    obtain ⟨trace, hcalls⟩ := deliverAll_evaluates hi hall
    exact ⟨tally, trace, s₁, hcalls, rfl, rfl⟩

theorem exec_evaluates {p : Program V C S N α} {result : Except Failure α} {s s' : Hub V C S N}
    (h : exec invoke p s = some (result, s')) :
    ∃ trace, Evaluates respond (.program p result) s trace s' := by
  induction p generalizing s with
  | done a =>
    cases h
    exact ⟨[], .done a _⟩
  | ask q next ih =>
    obtain ⟨trace, hnext⟩ := ih _ h
    exact ⟨_, .ask hnext⟩
  | update r tree next ih =>
    rw [exec] at h
    split at h
    · cases h
    · next summary s₂ hupdate =>
      obtain ⟨after, hnext⟩ := ih _ h
      cases hreg : s.registry? r with
      | none =>
        rw [update, hreg] at hupdate
        cases hupdate
        exact ⟨after, .idle hreg hnext⟩
      | some registry =>
        obtain ⟨tally, during, s₁, hcalls, rfl, rfl⟩ := update_evaluates_of hi hreg hupdate
        exact ⟨_, .update hreg hcalls hnext⟩
  | fail reason =>
    cases h
    exact ⟨[], .fail reason _⟩

end Programs

theorem invokeWithin_evaluates (respond : C → Delivery V → Program V C S N Unit) (depth : Nat) :
    ∀ code d s result s', invokeWithin respond depth code d s = some (result, s') →
      ∃ trace, Evaluates respond (.program (respond code d) result) s trace s' := by
  induction depth with
  | zero => exact fun _ _ _ _ _ h => nomatch h
  | succ depth ih => exact fun _ _ _ _ _ h => exec_evaluates ih h

theorem run_evaluates {depth : Nat} {p : Program V C S N α} {result : Except Failure α}
    {s s' : Hub V C S N} (h : run respond depth p s = some (result, s')) :
    ∃ trace, Evaluates respond (.program p result) s trace s' :=
  exec_evaluates (invokeWithin_evaluates respond depth) h

theorem update_evaluates {depth : Nat} {r : RegistryId} {registry : Registry V C} {tree : Tree V}
    {summary : UpdateSummary} {s s' : Hub V C S N} (hreg : s.registry? r = some registry)
    (h : update (invokeWithin respond depth) r tree s = some (summary, s')) :
    ∃ tally trace s₁,
      Evaluates respond (.calls (s.nextUpdateOf r registry) (registry.calls tree) tally)
        (s.beginUpdate r registry tree) trace s₁ ∧
      s' = s₁.endUpdate ∧
      summary = ⟨(registry.pending tree).length, tally.delivered, tally.failed⟩ :=
  update_evaluates_of (invokeWithin_evaluates respond depth) hreg h

end Hub

end ConfigTree
