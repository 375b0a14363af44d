import ConfigTree.Registry.Run
import Mathlib.Logic.Relation
/-!
# What a request changes

Every request is a run of acts (`Hub.Act`), of which those that release listeners are closings
(`Hub.Closing`), and so is the end of a dispatch. Acts in turn are runs of elementary steps
(`Hub.Step`): what each step keeps, all of them keep. Of the journal, a step writes one entry at
most. A program that applies no snapshot consists of requests, so it ends at every bound on the
nesting and is a run of steps too.
-/

namespace ConfigTree

namespace Hub

variable {V C S N : Type}

/-- One elementary change. -/
inductive Step : Hub V C S N → Hub V C S N → Prop
  | opened (s : Hub V C S N) (settings : Settings) : Step s (s.openRegistry settings).2
  | handled (s : Hub V C S N) {r : RegistryId} {registry : Registry V C}
      (h : s.registry? r = some registry) (handles : Nat) :
      Step s (s.setRegistry r { registry with handles })
  /-- A registry is gone. -/
  | ended (s : Hub V C S N) (r : RegistryId) :
      Step s { s with registries := Table.erase r s.registries }
  | registered (s : Hub V C S N) {r : RegistryId} {registry : Registry V C}
      (h : s.registry? r = some registry) (path : Path) (l : Listener C) :
      Step s (s.register r registry path l)
  | cancelled (s : Hub V C S N) {r : RegistryId} {registry left : Registry V C} {path : Path}
      {id : ListenerId} {l : Listener C} (h : s.registry? r = some registry)
      (hc : registry.cancel path id = (some l, left)) :
      Step s ((s.setRegistry r left).record (.cancelled r path id))
  | subscribed (s : Hub V C S N) (r : RegistryId) (path : Path) (id : ListenerId) :
      Step s { s with
        nextSubscription := s.nextSubscription + 1
        subscriptions := Table.insert s.nextSubscription ⟨r, path, id, []⟩ s.subscriptions }
  | closed (s : Hub V C S N) (subscription : SubscriptionId) :
      Step s { s with subscriptions := Table.erase subscription s.subscriptions }
  | taken (s : Hub V C S N) {subscription : SubscriptionId} {sub : Subscription V}
      {d : Delivery V} {queue : List (Delivery V)}
      (h : Table.get? subscription s.subscriptions = some sub) (hq : sub.queue = d :: queue) :
      Step s (({ s with
        subscriptions := Table.insert subscription { sub with queue } s.subscriptions }
          : Hub V C S N).record (.taken subscription d))
  /-- The innermost dispatch is over. -/
  | dispatched (s : Hub V C S N) {d : Dispatch V C} {outer : List (Dispatch V C)}
      (h : s.dispatches = d :: outer) : Step s { s with dispatches := outer }
  | detached (s : Hub V C S N) (name : String) (path : Path) (id : ListenerId) :
      Step s (s.record (.detached name path id))
  | noted (s : Hub V C S N) (n : N) : Step s (s.record (.note n))
  | ambient (s : Hub V C S N) (a : S) : Step s { s with ambient := a }

/-- Steps one after another. -/
abbrev Steps : Hub V C S N → Hub V C S N → Prop := Relation.ReflTransGen Step

/-- What happens to registrations and subscriptions when listeners are released. -/
inductive Closing : Hub V C S N → Hub V C S N → Prop
  | cancelled (s : Hub V C S N) {r : RegistryId} {registry left : Registry V C} {path : Path}
      {id : ListenerId} {l : Listener C} (h : s.registry? r = some registry)
      (hc : registry.cancel path id = (some l, left)) :
      Closing s ((s.setRegistry r left).record (.cancelled r path id))
  | closed (s : Hub V C S N) (subscription : SubscriptionId) :
      Closing s { s with subscriptions := Table.erase subscription s.subscriptions }
  | detached (s : Hub V C S N) (name : String) (path : Path) (id : ListenerId) :
      Closing s (s.record (.detached name path id))

abbrev Closings : Hub V C S N → Hub V C S N → Prop := Relation.ReflTransGen Closing

theorem Closings.foldl {β : Type} {f : Hub V C S N → β → Hub V C S N}
    (hf : ∀ s b, Closings s (f s b)) (bs : List β) (s : Hub V C S N) :
    Closings s (bs.foldl f s) := by
  induction bs generalizing s with
  | nil => exact .refl
  | cons b rest ih => exact (hf s b).trans (ih (f s b))

theorem unregister_closings {s : Hub V C S N} {r : RegistryId} {registry : Registry V C}
    (h : s.registry? r = some registry) (path : Path) (id : ListenerId) :
    Closings s (s.unregister r registry path id).2 := by
  rw [unregister]
  split
  · exact .refl
  · next l left hc => exact .single (.cancelled s h hc)

theorem close_closings (s : Hub V C S N) (subscription : SubscriptionId) :
    Closings s (s.close subscription) := by
  rw [close]
  split
  · exact .refl
  · next sub _ =>
    have hclosed := Closing.closed s subscription
    dsimp only
    split
    · exact .single hclosed
    · next registry h =>
      have hgone := unregister_closings h sub.path sub.listener
      exact .tail (.head hclosed hgone) (.detached _ _ _ _)

theorem release_closings (s : Hub V C S N) (l : Listener C) : Closings s (s.release l) :=
  Closings.foldl close_closings l.owned s

theorem releaseIfGone_closings (s : Hub V C S N) (r : RegistryId)
    (entry : ListenerId × Listener C) : Closings s (s.releaseIfGone r entry) := by
  rw [releaseIfGone]
  split
  · exact .refl
  · exact release_closings s entry.2

theorem cancel_closings (s : Hub V C S N) (r : RegistryId) (path : Path) (id : ListenerId) :
    Closings s (s.cancel r path id).2 := by
  rw [cancel]
  split
  · exact .refl
  · next registry h =>
    have hgone := unregister_closings h path id
    split
    · next hu =>
      rw [hu] at hgone
      exact hgone
    · next l _ hu =>
      rw [hu] at hgone
      exact hgone.trans (releaseIfGone_closings _ r (id, l))

/-- A registry ends if it has no handles and nothing is being dispatched for it. -/
theorem endIfUnused_cases (s : Hub V C S N) (r : RegistryId) :
    (s.endIfUnused r = s ∧ ∀ registry, s.registry? r = some registry →
      registry.handles = 0 → s.dispatches.any (·.registry = r) = true) ∨
    (∃ registry, s.registry? r = some registry ∧ registry.handles = 0 ∧
      ¬ s.dispatches.any (·.registry = r) = true) ∧
      Closings { s with registries := Table.erase r s.registries } (s.endIfUnused r) := by
  rw [endIfUnused]
  split
  · next h => exact .inl ⟨rfl, fun _ hreg => nomatch h.symm.trans hreg⟩
  · next registry h =>
    split
    · next hunused =>
      exact .inr ⟨⟨registry, h, hunused⟩,
        Closings.foldl (fun s entry => release_closings s (Prod.snd entry))
          registry.registrations _⟩
    · next hused =>
      refine .inl ⟨rfl, fun registry' hreg hz => ?_⟩
      cases h.symm.trans hreg
      exact Decidable.not_not.mp fun hd => hused ⟨hz, hd⟩

/-- When the innermost dispatch is over, its listeners may be released, and then its registry. -/
theorem endUpdate_cases (s : Hub V C S N) :
    (s.dispatches = [] ∧ s.endUpdate = s) ∨
    ∃ d outer s₁, s.dispatches = d :: outer ∧ Closings { s with dispatches := outer } s₁ ∧
      s.endUpdate = s₁.endIfUnused d.registry := by
  rw [endUpdate]
  split
  · next h => exact .inl ⟨h, rfl⟩
  · next d outer h =>
    exact .inr ⟨d, outer, _, h, Closings.foldl (fun s entry => releaseIfGone_closings s d.registry
      entry) (d.pending.flatMap Pending.listeners) _, rfl⟩

/-- Registers a listener that feeds a new subscription. -/
def openSubscription (s : Hub V C S N) (r : RegistryId) (registry : Registry V C) (path : Path) :
    Hub V C S N :=
  { s.register r registry path ⟨.feed s.nextSubscription, []⟩ with
    nextSubscription := s.nextSubscription + 1
    subscriptions :=
      Table.insert s.nextSubscription ⟨r, path, registry.nextId, []⟩ s.subscriptions }

/-- One change that a request makes. A subscription is opened together with its registration. -/
inductive Act : Hub V C S N → Hub V C S N → Prop
  | opened (s : Hub V C S N) (settings : Settings) : Act s (s.openRegistry settings).2
  | handled (s : Hub V C S N) {r : RegistryId} {registry : Registry V C}
      (h : s.registry? r = some registry) (handles : Nat) :
      Act s (s.setRegistry r { registry with handles })
  | ended (s : Hub V C S N) (r : RegistryId) :
      Act s { s with registries := Table.erase r s.registries }
  | listened (s : Hub V C S N) {r : RegistryId} {registry : Registry V C}
      (h : s.registry? r = some registry) (path : Path) (code : C)
      (owned : List SubscriptionId) :
      Act s (s.register r registry path ⟨.callback code, owned⟩)
  | subscribed (s : Hub V C S N) {r : RegistryId} {registry : Registry V C}
      (h : s.registry? r = some registry) (path : Path) :
      Act s (s.openSubscription r registry path)
  | closing {s s' : Hub V C S N} (h : Closing s s') : Act s s'
  | taken (s : Hub V C S N) {subscription : SubscriptionId} {sub : Subscription V}
      {d : Delivery V} {queue : List (Delivery V)}
      (h : Table.get? subscription s.subscriptions = some sub) (hq : sub.queue = d :: queue) :
      Act s (({ s with
        subscriptions := Table.insert subscription { sub with queue } s.subscriptions }
          : Hub V C S N).record (.taken subscription d))
  | noted (s : Hub V C S N) (n : N) : Act s (s.record (.note n))
  | ambient (s : Hub V C S N) (a : S) : Act s { s with ambient := a }

abbrev Acts : Hub V C S N → Hub V C S N → Prop := Relation.ReflTransGen Act

theorem Closings.acts {s s' : Hub V C S N} (h : Closings s s') : Acts s s' :=
  Relation.ReflTransGen.mono (fun _ _ => Act.closing) s s' h

theorem endIfUnused_acts (s : Hub V C S N) (r : RegistryId) : Acts s (s.endIfUnused r) := by
  rcases endIfUnused_cases s r with ⟨he, -⟩ | ⟨-, hclosings⟩
  · rw [he]
  · exact .head (.ended s r) hclosings.acts

theorem perform_acts (s : Hub V C S N) (q : Request V C S N) : Acts s (q.perform s).2 := by
  cases q with
  | openRegistry settings => exact .single (.opened s settings)
  | addHandle r =>
    rw [Request.perform, addHandle]
    split
    · exact .refl
    · next registry h => exact .single (.handled s h _)
  | dropHandle r =>
    rw [Request.perform, dropHandle]
    split
    · exact .refl
    · next registry h => exact .head (.handled s h _) (endIfUnused_acts _ r)
  | look r => exact .refl
  | listen r path code owned =>
    rw [Request.perform, listen]
    split
    · exact .refl
    · next registry h => exact .single (.listened s h path code owned)
  | cancel r path id => exact (cancel_closings s r path id).acts
  | subscribe r path =>
    rw [Request.perform, subscribe]
    split
    · exact .refl
    · next registry h => exact .single (.subscribed s h path)
  | poll subscription =>
    rw [Request.perform, poll]
    split
    · exact .refl
    · next sub h =>
      split
      · next d queue hq => exact .single (.taken s h hq)
      · exact .refl
  | close subscription => exact (close_closings s subscription).acts
  | ambient => exact .refl
  | setAmbient a => exact .single (.ambient s a)
  | note n => exact .single (.noted s n)

theorem Closing.step {s s' : Hub V C S N} (h : Closing s s') : Step s s' := by
  cases h with
  | cancelled h hc => exact .cancelled s h hc
  | closed subscription => exact .closed s subscription
  | detached name path id => exact .detached s name path id

theorem Act.steps {s s' : Hub V C S N} (h : Act s s') : Steps s s' := by
  cases h with
  | opened settings => exact .single (.opened s settings)
  | handled h handles => exact .single (.handled s h handles)
  | ended r => exact .single (.ended s r)
  | listened h path code owned => exact .single (.registered s h path _)
  | @subscribed r registry h path =>
    exact .tail (.single (.registered s h path _)) (.subscribed _ r path registry.nextId)
  | closing h => exact .single h.step
  | taken h hq => exact .single (.taken s h hq)
  | noted n => exact .single (.noted s n)
  | ambient a => exact .single (.ambient s a)

theorem Acts.steps {s s' : Hub V C S N} (h : Acts s s') : Steps s s' := by
  induction h with
  | refl => exact .refl
  | tail _ hact ih => exact ih.trans hact.steps

theorem perform_steps (s : Hub V C S N) (q : Request V C S N) : Steps s (q.perform s).2 :=
  (perform_acts s q).steps

theorem endUpdate_steps (s : Hub V C S N) : Steps s s.endUpdate := by
  rcases endUpdate_cases s with ⟨-, he⟩ | ⟨d, outer, s₁, h, hclosings, he⟩
  · rw [he]
  · rw [he]
    have hacts : Acts { s with dispatches := outer } (s₁.endIfUnused d.registry) :=
      hclosings.acts.trans (endIfUnused_acts s₁ d.registry)
    exact .head (.dispatched s h) hacts.steps

end Hub

namespace Program

variable {V C S N α : Type}

/-- The program applies no snapshot. -/
def Quiet : Program V C S N α → Prop
  | done _ => True
  | ask _ next => ∀ reply, (next reply).Quiet
  | update .. => False
  | fail _ => True

end Program

namespace Hub

variable {V C S N α : Type}

/-- A program that applies no snapshot ends, whatever the bound on the nesting. -/
theorem exec_quiet (invoke : Invoke V C S N) {p : Program V C S N α} (h : p.Quiet)
    (s : Hub V C S N) : ∃ result s', exec invoke p s = some (result, s') ∧ Steps s s' := by
  induction p generalizing s with
  | done a => exact ⟨.ok a, s, rfl, .refl⟩
  | ask q next ih =>
    obtain ⟨result, s', hrun, hsteps⟩ := ih (q.perform s).1 (h _) (q.perform s).2
    exact ⟨result, s', hrun, (perform_steps s q).trans hsteps⟩
  | update r tree next ih => exact h.elim
  | fail reason => exact ⟨.error reason, s, rfl, .refl⟩

end Hub

end ConfigTree
