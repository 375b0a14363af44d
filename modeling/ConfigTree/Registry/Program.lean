import ConfigTree.Registry.Hub
/-!
# Programs over registries

What a caller or a callback does, as a tree of requests whose branches are the possible replies. A
program may apply a snapshot, which runs the callbacks of listeners before the program goes on,
and it may fail.
-/

namespace ConfigTree

/-- The text of a failure, which not every failure has. -/
abbrev Failure := Option String

/-- Counts of one update: changed paths, and invocations that succeeded and that failed. -/
structure UpdateSummary where
  changedPaths : Nat
  delivered : Nat
  failed : Nat
deriving DecidableEq

/-- A request that runs no callback. -/
inductive Request (V C S N : Type) where
  | openRegistry (settings : Settings)
  | addHandle (r : RegistryId)
  | dropHandle (r : RegistryId)
  /-- The state of a registry, if it lives. -/
  | look (r : RegistryId)
  | listen (r : RegistryId) (path : Path) (code : C) (owned : List SubscriptionId)
  | cancel (r : RegistryId) (path : Path) (id : ListenerId)
  | subscribe (r : RegistryId) (path : Path)
  | poll (subscription : SubscriptionId)
  | close (subscription : SubscriptionId)
  | ambient
  | setAmbient (s : S)
  | note (n : N)

namespace Request

variable {V C S N : Type}

def Reply : Request V C S N → Type
  | openRegistry _ => RegistryId
  | look _ => Option (Registry V C)
  | listen .. => Option ListenerId
  | cancel .. => Bool
  | subscribe .. => Option (SubscriptionId × ListenerId)
  | poll _ => Poll V
  | ambient => S
  | addHandle _ | dropHandle _ | close _ | setAmbient _ | note _ => Unit

def perform (s : Hub V C S N) : (q : Request V C S N) → q.Reply × Hub V C S N
  | openRegistry settings => s.openRegistry settings
  | addHandle r => ((), s.addHandle r)
  | dropHandle r => ((), s.dropHandle r)
  | look r => (s.registry? r, s)
  | listen r path code owned => s.listen r path code owned
  | cancel r path id => s.cancel r path id
  | subscribe r path => s.subscribe r path
  | poll subscription => s.poll subscription
  | close subscription => ((), s.close subscription)
  | ambient => (s.ambient, s)
  | setAmbient a => ((), { s with ambient := a })
  | note n => ((), s.record (.note n))

end Request

/-- A program with a result in `α`. -/
inductive Program (V C S N α : Type) where
  | done (a : α)
  | ask (q : Request V C S N) (next : q.Reply → Program V C S N α)
  /-- Applies a snapshot and dispatches the changes. -/
  | update (r : RegistryId) (tree : Tree V) (next : UpdateSummary → Program V C S N α)
  | fail (reason : Failure)

namespace Program

variable {V C S N α β : Type}

/-- The second program goes on with the result of the first. -/
def bind : Program V C S N α → (α → Program V C S N β) → Program V C S N β
  | done a, f => f a
  | ask q next, f => ask q fun reply => (next reply).bind f
  | update r tree next, f => update r tree fun summary => (next summary).bind f
  | fail reason, _ => fail reason

instance : Monad (Program V C S N) where
  pure := done
  bind := bind

def request (q : Request V C S N) : Program V C S N q.Reply := ask q done

def apply (r : RegistryId) (tree : Tree V) : Program V C S N UpdateSummary := update r tree done

/-- Applies snapshots one after another; returns their number. -/
def applyAll (r : RegistryId) : List (Tree V) → Program V C S N Nat
  | [] => done 0
  | tree :: rest => update r tree fun _ => (applyAll r rest).bind fun n => done (n + 1)

/-- Applies snapshots one after another, with a handle of its own, so that the registry outlives
its other handles meanwhile. Returns the number of snapshots. -/
def follow (r : RegistryId) (trees : List (Tree V)) : Program V C S N Nat :=
  ask (.addHandle r) fun _ =>
    (applyAll r trees).bind fun n => ask (.dropHandle r) fun _ => done n

end Program

end ConfigTree
