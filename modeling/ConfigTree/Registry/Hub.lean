import ConfigTree.Registry.Basic
/-!
# Hubs

Several registries, the subscriptions to their changes, the snapshots being dispatched, and a
journal of what happened. A listener that is cancelled stays alive as long as a snapshot is being
dispatched to it; when it is gone, the subscriptions that it owns are closed, which cancels the
listeners that feed them. The journal holds every registration and cancellation, every snapshot
and delivery, and what subscribers took.
-/

namespace ConfigTree

abbrev RegistryId := Nat

/-- A queue of deliveries, fed by a listener of its own. -/
structure Subscription (V : Type) where
  registry : RegistryId
  path : Path
  listener : ListenerId
  queue : List (Delivery V)

/-- What a subscriber finds in its queue. -/
inductive Poll (V : Type) where
  | item (d : Delivery V)
  | waiting
  | ended

/-- A snapshot being dispatched, with all that was to be delivered when it was applied. -/
structure Dispatch (V C : Type) where
  registry : RegistryId
  pending : List (Pending V C)

/-- One update of a registry. Updates are numbered in the order in which they begin. -/
structure Update where
  number : Nat
  registry : RegistryId
  /-- The name of the registry. -/
  name : String
deriving DecidableEq

/-- Something that happened. What an update does itself bears its number. -/
inductive Entry (V N : Type) where
  | registered (r : RegistryId) (path : Path) (listener : ListenerId)
  | cancelled (r : RegistryId) (path : Path) (listener : ListenerId)
  /-- A snapshot became the current one, with so many changed paths. -/
  | applied (u : Update) (tree : Tree V) (changed : Nat)
  | reached (u : Update) (path : Path) (isPresent : Bool)
  | invoked (u : Update) (path : Path) (listener : ListenerId) (d : Delivery V)
  /-- The listener that was invoked failed; not every failure has a text. -/
  | failed (u : Update) (path : Path) (listener : ListenerId) (text : Option String)
  /-- A subscription was closed while its registry, of this name, lived. -/
  | detached (name : String) (path : Path) (listener : ListenerId)
  | taken (subscription : SubscriptionId) (d : Delivery V)
  | note (n : N)

/-- Everything that registry operations act upon, with a state `S` of their callers'. -/
structure Hub (V C S N : Type) where
  registries : List (RegistryId × Registry V C)
  subscriptions : List (SubscriptionId × Subscription V)
  /-- The snapshots being dispatched, the innermost first. -/
  dispatches : List (Dispatch V C)
  nextRegistry : RegistryId
  nextSubscription : SubscriptionId
  nextUpdate : Nat
  ambient : S
  /-- What happened, the latest first. -/
  journal : List (Entry V N)

namespace Hub

variable {V C S N : Type}

def new (ambient : S) : Hub V C S N := ⟨[], [], [], 0, 0, 0, ambient, []⟩

def registry? (s : Hub V C S N) (r : RegistryId) : Option (Registry V C) :=
  Table.get? r s.registries

def setRegistry (s : Hub V C S N) (r : RegistryId) (registry : Registry V C) :
    Hub V C S N :=
  { s with registries := Table.insert r registry s.registries }

def record (s : Hub V C S N) (e : Entry V N) : Hub V C S N :=
  { s with journal := e :: s.journal }

/-- Whether a dispatch under way will still invoke a listener, or has invoked it. -/
def isDispatched (s : Hub V C S N) (r : RegistryId) (id : ListenerId) : Bool :=
  s.dispatches.any fun d =>
    d.registry = r && d.pending.any fun p => p.listeners.any fun (id', _) => id' = id

/-- Whether a listener is registered or being dispatched to. -/
def isAlive (s : Hub V C S N) (r : RegistryId) (id : ListenerId) : Bool :=
  (s.registry? r).any (·.isRegistered id) || s.isDispatched r id

/-- Removes a registration from its registry, and gives the listener back. -/
def unregister (s : Hub V C S N) (r : RegistryId) (registry : Registry V C) (path : Path)
    (id : ListenerId) : Option (Listener C) × Hub V C S N :=
  match registry.cancel path id with
  | (none, _) => (none, s)
  | (some l, registry) => (some l, (s.setRegistry r registry).record (.cancelled r path id))

/-- Closes a subscription and cancels the listener that feeds it. -/
def close (s : Hub V C S N) (subscription : SubscriptionId) : Hub V C S N :=
  match Table.get? subscription s.subscriptions with
  | none => s
  | some sub =>
    let s := { s with subscriptions := Table.erase subscription s.subscriptions }
    match s.registry? sub.registry with
    | none => s
    | some registry =>
      (s.unregister sub.registry registry sub.path sub.listener).2.record
        (.detached registry.settings.name sub.path sub.listener)

/-- Closes what a listener owns. -/
def release (s : Hub V C S N) (l : Listener C) : Hub V C S N := l.owned.foldl close s

/-- Releases a listener unless it is still alive. -/
def releaseIfGone (s : Hub V C S N) (r : RegistryId) (entry : ListenerId × Listener C) :
    Hub V C S N :=
  if s.isAlive r entry.1 then s else s.release entry.2

/-- Ends a registry without handles and dispatches, and releases its listeners. -/
def endIfUnused (s : Hub V C S N) (r : RegistryId) : Hub V C S N :=
  match s.registry? r with
  | none => s
  | some registry =>
    if registry.handles = 0 ∧ ¬ s.dispatches.any (·.registry = r) then
      registry.registrations.foldl (fun s entry => s.release entry.2)
        { s with registries := Table.erase r s.registries }
    else s

def openRegistry (s : Hub V C S N) (settings : Settings) : RegistryId × Hub V C S N :=
  (s.nextRegistry,
    { s.setRegistry s.nextRegistry (.new settings) with nextRegistry := s.nextRegistry + 1 })

def addHandle (s : Hub V C S N) (r : RegistryId) : Hub V C S N :=
  match s.registry? r with
  | none => s
  | some registry => s.setRegistry r { registry with handles := registry.handles + 1 }

def dropHandle (s : Hub V C S N) (r : RegistryId) : Hub V C S N :=
  match s.registry? r with
  | none => s
  | some registry =>
    (s.setRegistry r { registry with handles := registry.handles - 1 }).endIfUnused r

def register (s : Hub V C S N) (r : RegistryId) (registry : Registry V C) (path : Path)
    (l : Listener C) : Hub V C S N :=
  (s.setRegistry r (registry.listen path l)).record (.registered r path registry.nextId)

/-- Registers a callback, which takes over subscriptions. -/
def listen (s : Hub V C S N) (r : RegistryId) (path : Path) (code : C)
    (owned : List SubscriptionId) : Option ListenerId × Hub V C S N :=
  match s.registry? r with
  | none => (none, s)
  | some registry =>
    (some registry.nextId, s.register r registry path ⟨.callback code, owned⟩)

/-- Cancels a registration; tells whether there was one. -/
def cancel (s : Hub V C S N) (r : RegistryId) (path : Path) (id : ListenerId) :
    Bool × Hub V C S N :=
  match s.registry? r with
  | none => (false, s)
  | some registry =>
    match s.unregister r registry path id with
    | (none, s) => (false, s)
    | (some l, s) => (true, s.releaseIfGone r (id, l))

def subscribe (s : Hub V C S N) (r : RegistryId) (path : Path) :
    Option (SubscriptionId × ListenerId) × Hub V C S N :=
  match s.registry? r with
  | none => (none, s)
  | some registry =>
    let n := s.nextSubscription
    let s := s.register r registry path ⟨.feed n, []⟩
    (some (n, registry.nextId),
      { s with
        nextSubscription := n + 1
        subscriptions := Table.insert n ⟨r, path, registry.nextId, []⟩ s.subscriptions })

/-- Appends a delivery to a queue, unless the subscription is closed. -/
def push (s : Hub V C S N) (subscription : SubscriptionId) (d : Delivery V) :
    Hub V C S N :=
  match Table.get? subscription s.subscriptions with
  | none => s
  | some sub =>
    { s with
      subscriptions :=
        Table.insert subscription { sub with queue := sub.queue ++ [d] } s.subscriptions }

/-- Takes the oldest delivery from a queue. An empty queue has ended once the listener that fed it
is gone. -/
def poll (s : Hub V C S N) (subscription : SubscriptionId) : Poll V × Hub V C S N :=
  match Table.get? subscription s.subscriptions with
  | none => (.ended, s)
  | some sub =>
    match sub.queue with
    | d :: queue =>
      let subscriptions := Table.insert subscription { sub with queue } s.subscriptions
      (.item d, { s with subscriptions }.record (.taken subscription d))
    | [] => (if s.isAlive sub.registry sub.listener then .waiting else .ended, s)

def nextUpdateOf (s : Hub V C S N) (r : RegistryId) (registry : Registry V C) : Update :=
  ⟨s.nextUpdate, r, registry.settings.name⟩

/-- Makes a snapshot the current one, and begins to dispatch what changed. -/
def beginUpdate (s : Hub V C S N) (r : RegistryId) (registry : Registry V C) (tree : Tree V) :
    Hub V C S N :=
  let pending := registry.pending tree
  let u := s.nextUpdateOf r registry
  let s := (s.setRegistry r { registry with current := some tree }).record
    (.applied u tree pending.length)
  { s with dispatches := ⟨r, pending⟩ :: s.dispatches, nextUpdate := s.nextUpdate + 1 }

/-- Ends the innermost dispatch, whose listeners may be gone by now. -/
def endUpdate (s : Hub V C S N) : Hub V C S N :=
  match s.dispatches with
  | [] => s
  | d :: outer =>
    let s := { s with dispatches := outer }
    let s := (d.pending.flatMap Pending.listeners).foldl (fun s => s.releaseIfGone d.registry) s
    s.endIfUnused d.registry

end Hub

end ConfigTree
