import ConfigTree.Registry.Settings
import ConfigTree.Delivery
/-!
# Registries

A registry keeps the current snapshot and, for each watched path, the listeners registered there
in the order of their registration. No path stays in the table without a listener. Registrations
are numbered from 1 and no number is issued twice.
-/

namespace ConfigTree

/-- The number of a registration. -/
abbrev ListenerId := Nat

abbrev SubscriptionId := Nat

def ListenerId.display (id : ListenerId) : String := "listener-" ++ Nat.repr id

/-- What a listener does with a delivery. -/
inductive Reaction (C : Type) where
  /-- Runs a callback, given by a code. -/
  | callback (code : C)
  /-- Appends the delivery to the queue of a subscription. -/
  | feed (subscription : SubscriptionId)

/-- A listener, with the subscriptions that end together with it. -/
structure Listener (C : Type) where
  reaction : Reaction C
  owned : List SubscriptionId

/-- Listeners in the order of their registration. -/
abbrev Group (C : Type) := List (ListenerId × Listener C)

/-- A registry. It lives as long as there are handles to it, or a snapshot is being dispatched. -/
structure Registry (V C : Type) where
  settings : Settings
  nextId : ListenerId
  current : Option (Tree V)
  watched : List (Path × Group C)
  handles : Nat

/-- What one path has to hear about a new snapshot. -/
structure Pending (V C : Type) where
  path : Path
  delivery : Delivery V
  listeners : Group C

namespace Registry

variable {V C : Type}

def new (settings : Settings) : Registry V C := ⟨settings, 1, none, [], 1⟩

/-- The listeners registered at exactly a path. -/
def group (r : Registry V C) (path : Path) : Group C := (Table.get? path r.watched).getD []

def count (r : Registry V C) (path : Path) : Nat := (r.group path).length

/-- Every registration, in the order of paths and of registration. -/
def registrations (r : Registry V C) : Group C := r.watched.flatMap Prod.snd

def isRegistered (r : Registry V C) (id : ListenerId) : Bool :=
  r.registrations.any fun (id', _) => id' = id

/-- Registers a listener under the next number. -/
def listen (r : Registry V C) (path : Path) (l : Listener C) : Registry V C :=
  { r with
    nextId := r.nextId + 1
    watched := Table.insert path (r.group path ++ [(r.nextId, l)]) r.watched }

/-- Removes the listener registered at a path under a number; the path goes with its last
listener. -/
def cancel (r : Registry V C) (path : Path) (id : ListenerId) :
    Option (Listener C) × Registry V C :=
  let left := Table.erase id (r.group path)
  let watched :=
    if left.isEmpty then Table.erase path r.watched else Table.insert path left r.watched
  (Table.get? id (r.group path), { r with watched })

/-- The paths whose subtree differs between the current snapshot and a new one, in path order,
with what is to be delivered there and to whom. -/
def pending (r : Registry V C) (tree : Tree V) : List (Pending V C) :=
  r.watched.filterMap fun (path, listeners) =>
    (Delivery.between? r.current tree path).map fun d => ⟨path, d, listeners⟩

/-- An empty tree for values of a given encoding, hashed as the settings say. -/
def emptyTree (r : Registry V C) (encode : Encoding V) (edit : Nat) : Tree V :=
  Tree.empty ⟨r.settings.digest, encode⟩ edit

def inspect (r : Registry V C) : String :=
  let current := match r.current with
    | none => "None"
    | some t => "Some(" ++ t.hash.inspect ++ ")"
  "Registry \x7b name: " ++ Text.quoted r.settings.name ++ ", current: " ++ current
    ++ ", watched_paths: " ++ r.watched.length.repr ++ " \x7d"

end Registry

end ConfigTree
