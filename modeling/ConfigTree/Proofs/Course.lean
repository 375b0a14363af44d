import ConfigTree.Proofs.Bookkeeping
import ConfigTree.Proofs.Evaluation
/-!
# The course of a run

What code does in a hub, and what an update does for which it stands still, are told here without
the code (`Hub.Runs`): code makes requests and applies snapshots, and an update makes its calls one
after another, whatever the callbacks do. So a run proceeds by cases that are few and name every
state in between. What holds of every course holds of every evaluation (`Hub.Evaluates.runs`).
-/

namespace ConfigTree

namespace Hub

variable {V C S N : Type}

/-- Something that runs. -/
inductive Task (V C : Type) where
  /-- A caller or a callback. -/
  | code
  /-- An update that has calls ahead of it, of which so many succeed and fail. -/
  | calls (u : Update) (ahead : List (Call V C)) (tally : Tally)

/-- What runs may lead from one state to another. -/
inductive Runs : Task V C → Hub V C S N → Hub V C S N → Prop
  | stopped (s : Hub V C S N) : Runs .code s s
  | asked {s s' : Hub V C S N} (q : Request V C S N) (h : Runs .code (q.perform s).2 s') :
      Runs .code s s'
  | updated {s s₁ s' : Hub V C S N} {r : RegistryId} {registry : Registry V C} {tree : Tree V}
      {tally : Tally} (hreg : s.registry? r = some registry)
      (hcalls : Runs (.calls (s.nextUpdateOf r registry) (registry.calls tree) tally)
        (s.beginUpdate r registry tree) s₁)
      (h : Runs .code s₁.endUpdate s') : Runs .code s s'
  | finished (s : Hub V C S N) (u : Update) : Runs (.calls u [] ⟨0, 0⟩) s s
  | announced {s s' : Hub V C S N} {u : Update} {path : Path} {isPresent : Bool}
      {ahead : List (Call V C)} {tally : Tally}
      (h : Runs (.calls u ahead tally) (s.record (.reached u path isPresent)) s') :
      Runs (.calls u (.announce path isPresent :: ahead) tally) s s'
  | fed {s s' : Hub V C S N} {u : Update} {path : Path} {d : Delivery V}
      {entry : ListenerId × Listener C} {subscription : SubscriptionId}
      {ahead : List (Call V C)} {tally : Tally}
      (hfeed : entry.2.reaction = .feed subscription)
      (h : Runs (.calls u ahead tally)
        ((s.record (.invoked u path entry.1 d)).push subscription d) s') :
      Runs (.calls u (.invoke path d entry :: ahead) (tally.count true)) s s'
  | returned {s s₁ s' : Hub V C S N} {u : Update} {path : Path} {d : Delivery V}
      {entry : ListenerId × Listener C} {code : C} {ahead : List (Call V C)} {tally : Tally}
      (hcode : entry.2.reaction = .callback code)
      (hcallback : Runs .code (s.record (.invoked u path entry.1 d)) s₁)
      (h : Runs (.calls u ahead tally) s₁ s') :
      Runs (.calls u (.invoke path d entry :: ahead) (tally.count true)) s s'
  | failed {s s₁ s' : Hub V C S N} {u : Update} {path : Path} {d : Delivery V}
      {entry : ListenerId × Listener C} {code : C} {ahead : List (Call V C)} {tally : Tally}
      (hcode : entry.2.reaction = .callback code) (reason : Failure)
      (hcallback : Runs .code (s.record (.invoked u path entry.1 d)) s₁)
      (h : Runs (.calls u ahead tally) (s₁.record (.failed u path entry.1 reason)) s') :
      Runs (.calls u (.invoke path d entry :: ahead) (tally.count false)) s s'

/-- A job, without its programs. -/
def Job.task : Job V C S N → Task V C
  | .program .. => .code
  | .calls u ahead tally => .calls u ahead tally

/-- Evaluations take such courses. -/
theorem Evaluates.runs {respond : C → Delivery V → Program V C S N Unit} {job : Job V C S N}
    {trace : List (Happening V C)} {s s' : Hub V C S N}
    (h : Evaluates respond job s trace s') : Runs job.task s s' := by
  induction h with
  | done _ s => exact .stopped s
  | fail _ s => exact .stopped s
  | @ask _ q _ _ _ _ _ _ ih => exact .asked q ih
  | idle _ _ ih => exact ih
  | update hreg _ _ ihc ih => exact .updated hreg ihc ih
  | finished u s => exact .finished s u
  | announced _ ih => exact .announced ih
  | fed hfeed _ ih => exact .fed hfeed ih
  | returned hcode _ _ ihc ih => exact .returned hcode ihc ih
  | @failed _ _ _ _ _ reason _ _ _ _ _ _ _ hcode _ _ ihc ih => exact .failed hcode reason ihc ih

/-- A state that callers or callbacks may come to. -/
inductive Reachable : Hub V C S N → Prop
  | new (ambient : S) : Reachable (new ambient)
  | ran {s s' : Hub V C S N} (hs : Reachable s) (h : Runs .code s s') : Reachable s'
  /-- After some of its calls, an update invokes a callback. -/
  | called {s s₁ : Hub V C S N} {r : RegistryId} {registry : Registry V C} {tree : Tree V}
      {early late : List (Call V C)} {tally : Tally} {path : Path} {d : Delivery V}
      {entry : ListenerId × Listener C} {code : C} (hs : Reachable s)
      (hreg : s.registry? r = some registry)
      (hcalls : registry.calls tree = early ++ .invoke path d entry :: late)
      (hcode : entry.2.reaction = .callback code)
      (h : Runs (.calls (s.nextUpdateOf r registry) early tally)
        (s.beginUpdate r registry tree) s₁) :
      Reachable (s₁.record (.invoked (s.nextUpdateOf r registry) path entry.1 d))

theorem reachable_run {α : Type} {respond : C → Delivery V → Program V C S N Unit} {depth : Nat}
    {p : Program V C S N α} {s s' : Hub V C S N} {result : Except Failure α} (hs : s.Reachable)
    (h : run respond depth p s = some (result, s')) : s'.Reachable := by
  obtain ⟨trace, hevaluates⟩ := run_evaluates h
  exact hs.ran hevaluates.runs

theorem Closing.dispatches_eq {s s' : Hub V C S N} (h : Closing s s') :
    s'.dispatches = s.dispatches := by
  cases h <;> rfl

theorem Act.dispatches_eq {s s' : Hub V C S N} (h : Act s s') : s'.dispatches = s.dispatches := by
  cases h with
  | closing h => exact h.dispatches_eq
  | _ => rfl

theorem Acts.dispatches_eq {s s' : Hub V C S N} (h : Acts s s') : s'.dispatches = s.dispatches := by
  induction h with
  | refl => rfl
  | tail _ hact ih => exact hact.dispatches_eq.trans ih

theorem dispatches_push (s : Hub V C S N) (subscription : SubscriptionId) (d : Delivery V) :
    (s.push subscription d).dispatches = s.dispatches := by
  rw [push]
  split <;> rfl

theorem dispatches_endUpdate {s : Hub V C S N} {d : Dispatch V C} {outer : List (Dispatch V C)}
    (h : s.dispatches = d :: outer) : s.endUpdate.dispatches = outer := by
  rcases endUpdate_cases s with ⟨hnil, -⟩ | ⟨d', outer', s₁, hcons, hclosings, he⟩
  · rw [h] at hnil
    cases hnil
  · rw [h] at hcons
    cases hcons
    rw [he, (endIfUnused_acts s₁ d.registry).dispatches_eq, hclosings.acts.dispatches_eq]

/-- What runs leaves the dispatches as it found them. -/
theorem Runs.dispatches_eq {task : Task V C} {s s' : Hub V C S N} (h : Runs task s s') :
    s'.dispatches = s.dispatches := by
  induction h with
  | stopped => rfl
  | asked q _ ih => exact ih.trans (perform_acts _ q).dispatches_eq
  | updated _ _ _ ihc ih => exact ih.trans (dispatches_endUpdate ihc)
  | finished => rfl
  | announced _ ih => exact ih
  | fed _ _ ih => exact ih.trans (dispatches_push _ _ _)
  | returned _ _ _ ihc ih => exact ih.trans ihc
  | failed _ _ _ _ ihc ih => exact ih.trans ihc

end Hub

variable {V C S N : Type}

/-- The update of which the entry is part. -/
def Entry.update? : Entry V N → Option Update
  | applied u .. | reached u .. | invoked u .. | failed u .. => some u
  | _ => none

/-- The numbers under which a registry registers listeners ascend. -/
def InOrder (h : List (Entry V N)) : Prop :=
  h.Pairwise fun e e' => ∀ r path id path' id',
    e = .registered r path id → e' = .registered r path' id' → id < id'

theorem InOrder.concat {h : List (Entry V N)} {e : Entry V N} (ho : InOrder h)
    (he : ∀ r path' id', e = .registered r path' id' →
      ∀ path id, .registered r path id ∈ h → id < id') : InOrder (h ++ [e]) := by
  refine List.pairwise_append.mpr ⟨ho, List.pairwise_singleton _ _, fun x hx y hy => ?_⟩
  rw [List.mem_singleton.mp hy]
  rintro r path id path' id' rfl heq
  exact he r path' id' heq path id hx

namespace Hub

variable {s s' : Hub V C S N}

/-- What a step writes in the journal is part of no update. -/
theorem Step.history_eq (h : Step s s') :
    s'.history = s.history ∨ ∃ e, s'.history = s.history ++ [e] ∧ e.update? = none ∧
      ∀ r path id, e = .registered r path id →
        ∃ registry, s.registry? r = some registry ∧ id = registry.nextId := by
  cases h with
  | registered hreg path l =>
    refine .inr ⟨_, history_record _ _, rfl, fun r path id heq => ?_⟩
    cases heq
    exact ⟨_, hreg, rfl⟩
  | cancelled => exact .inr ⟨_, history_record _ _, rfl, fun _ _ _ heq => nomatch heq⟩
  | taken => exact .inr ⟨_, history_record _ _, rfl, fun _ _ _ heq => nomatch heq⟩
  | detached => exact .inr ⟨_, history_record _ _, rfl, fun _ _ _ heq => nomatch heq⟩
  | noted => exact .inr ⟨_, history_record _ _, rfl, fun _ _ _ heq => nomatch heq⟩
  | _ => exact .inl rfl

theorem Step.nextUpdate_eq (h : Step s s') : s'.nextUpdate = s.nextUpdate := by
  cases h <;> rfl

/-- Registries and journal agree, and registrations are numbered in order. -/
structure Orderly (s : Hub V C S N) : Prop where
  consistent : s.Consistent
  inOrder : InOrder s.history

theorem orderly_new (ambient : S) : (new ambient : Hub V C S N).Orderly :=
  ⟨consistent_new ambient, .nil⟩

theorem Orderly.step (h : s.Orderly) (hstep : Step s s') : s'.Orderly := by
  refine ⟨h.consistent.step hstep, ?_⟩
  rcases hstep.history_eq with he | ⟨e, he, -, hnew⟩
  · rw [he]
    exact h.inOrder
  · rw [he]
    refine h.inOrder.concat fun r path' id' heq path id hm => ?_
    obtain ⟨registry, hreg, rfl⟩ := hnew r path' id' heq
    exact (h.consistent.reflects r registry hreg).issued _ hm id rfl

theorem Orderly.steps (h : s.Orderly) (hsteps : Steps s s') : s'.Orderly := by
  induction hsteps with
  | refl => exact h
  | tail _ hstep ih => exact ih.step hstep

theorem Orderly.record (h : s.Orderly) {e : Entry V N} (he : e.alters? = none) :
    (s.record e).Orderly := by
  refine ⟨h.consistent.record he, ?_⟩
  rw [history_record]
  refine h.inOrder.concat fun r path' id' heq => ?_
  rw [heq] at he
  cases he

theorem history_push (s : Hub V C S N) (subscription : SubscriptionId) (d : Delivery V) :
    (s.push subscription d).history = s.history := by
  rw [push]
  split <;> rfl

theorem Consistent.push (h : s.Consistent) (subscription : SubscriptionId) (d : Delivery V) :
    (s.push subscription d).Consistent := by
  rw [Hub.push]
  split
  · exact h
  · exact h.congr rfl rfl rfl

theorem Orderly.push (h : s.Orderly) (subscription : SubscriptionId) (d : Delivery V) :
    (s.push subscription d).Orderly :=
  ⟨h.consistent.push subscription d, (history_push s subscription d).symm ▸ h.inOrder⟩

theorem history_beginUpdate (s : Hub V C S N) (r : RegistryId) (registry : Registry V C)
    (tree : Tree V) : (s.beginUpdate r registry tree).history =
      s.history ++ [.applied (s.nextUpdateOf r registry) tree (registry.pending tree).length] :=
  history_record _ _

theorem Orderly.beginUpdate (h : s.Orderly) {r : RegistryId} {registry : Registry V C}
    (hreg : s.registry? r = some registry) (tree : Tree V) :
    (s.beginUpdate r registry tree).Orderly := by
  refine ⟨h.consistent.beginUpdate hreg tree, ?_⟩
  rw [history_beginUpdate]
  exact h.inOrder.concat fun _ _ _ heq => nomatch heq

theorem Runs.orderly {task : Task V C} (h : Runs task s s') (hs : s.Orderly) : s'.Orderly := by
  induction h with
  | stopped => exact hs
  | asked q _ ih => exact ih (hs.steps (perform_steps _ q))
  | updated hreg _ _ ihc ih => exact ih ((ihc (hs.beginUpdate hreg _)).steps (endUpdate_steps _))
  | finished => exact hs
  | announced _ ih => exact ih (hs.record rfl)
  | fed _ _ ih => exact ih ((hs.record rfl).push _ _)
  | returned _ _ _ ihc ih => exact ih (ihc (hs.record rfl))
  | failed _ _ _ _ ihc ih => exact ih ((ihc (hs.record rfl)).record rfl)

theorem Reachable.orderly (hs : s.Reachable) : s.Orderly := by
  induction hs with
  | new ambient => exact orderly_new ambient
  | ran _ h ih => exact h.orderly ih
  | called _ hreg _ _ h ih => exact (h.orderly (ih.beginUpdate hreg _)).record rfl

/-- What requests and the parts of updates keep. -/
structure Invariant (P : Hub V C S N → Prop) : Prop where
  new : ∀ ambient, P (new ambient)
  perform : ∀ s, s.Orderly → P s → ∀ q : Request V C S N, P (q.perform s).2
  beginUpdate : ∀ s r registry tree, s.Orderly → s.registry? r = some registry → P s →
    P (s.beginUpdate r registry tree)
  endUpdate : ∀ s, s.Orderly → P s → P s.endUpdate
  record : ∀ s (e : Entry V N), e.alters? = none → P s → P (s.record e)
  push : ∀ s subscription d, P s → P (s.push subscription d)

variable {P : Hub V C S N → Prop}

theorem Invariant.runs (hP : Invariant P) {task : Task V C} (h : Runs task s s') (hs : s.Orderly)
    (hp : P s) : P s' := by
  induction h with
  | stopped => exact hp
  | @asked s s' q _ ih => exact ih (hs.steps (perform_steps s q)) (hP.perform s hs hp q)
  | @updated s s₁ s' r registry tree tally hreg hcalls _ ihc ih =>
    have hbegun := hs.beginUpdate hreg tree
    have hcalled := hcalls.orderly hbegun
    have hp₁ := ihc hbegun (hP.beginUpdate s r registry tree hs hreg hp)
    exact ih (hcalled.steps (endUpdate_steps s₁)) (hP.endUpdate s₁ hcalled hp₁)
  | finished => exact hp
  | announced _ ih => exact ih (hs.record rfl) (hP.record _ _ rfl hp)
  | fed _ _ ih => exact ih ((hs.record rfl).push _ _) (hP.push _ _ _ (hP.record _ _ rfl hp))
  | returned _ hc _ ihc ih =>
    exact ih (hc.orderly (hs.record rfl)) (ihc (hs.record rfl) (hP.record _ _ rfl hp))
  | failed _ _ hc _ ihc ih =>
    have hp₁ := ihc (hs.record rfl) (hP.record _ _ rfl hp)
    exact ih ((hc.orderly (hs.record rfl)).record rfl) (hP.record _ _ rfl hp₁)

theorem Invariant.reachable (hP : Invariant P) (hs : s.Reachable) : P s := by
  induction hs with
  | new ambient => exact hP.new ambient
  | ran hs h ih => exact hP.runs h hs.orderly ih
  | @called s s₁ r registry tree _ _ _ _ _ _ _ hs hreg _ _ h ih =>
    have hbegun := hP.beginUpdate s r registry tree hs.orderly hreg ih
    exact hP.record _ _ rfl (hP.runs h (hs.orderly.beginUpdate hreg tree) hbegun)

theorem Steps.history_grows (h : Steps s s') : s.history <+: s'.history := by
  induction h with
  | refl => exact List.prefix_refl _
  | tail _ hstep ih =>
    rcases hstep.history_eq with he | ⟨e, he, -⟩
    · exact he ▸ ih
    · exact he ▸ ih.trans (List.prefix_append _ _)

theorem history_grows_record (s : Hub V C S N) (e : Entry V N) :
    s.history <+: (s.record e).history := by
  rw [history_record]
  exact List.prefix_append _ _

theorem history_grows_beginUpdate (s : Hub V C S N) (r : RegistryId) (registry : Registry V C)
    (tree : Tree V) : s.history <+: (s.beginUpdate r registry tree).history := by
  rw [history_beginUpdate]
  exact List.prefix_append _ _

theorem Runs.history_grows {task : Task V C} (h : Runs task s s') :
    s.history <+: s'.history := by
  induction h with
  | stopped => exact List.prefix_refl _
  | asked q _ ih => exact (perform_steps _ q).history_grows.trans ih
  | @updated s s₁ s' r registry tree tally _ _ _ ihc ih =>
    have hbegun := history_grows_beginUpdate s r registry tree
    exact (hbegun.trans ihc).trans ((endUpdate_steps s₁).history_grows.trans ih)
  | finished => exact List.prefix_refl _
  | announced _ ih => exact (history_grows_record _ _).trans ih
  | fed _ _ ih => exact (history_grows_record _ _).trans (history_push _ _ _ ▸ ih)
  | returned _ _ _ ihc ih => exact ((history_grows_record _ _).trans ihc).trans ih
  | failed _ _ _ _ ihc ih =>
    exact ((history_grows_record _ _).trans ihc).trans ((history_grows_record _ _).trans ih)

end Hub

end ConfigTree
