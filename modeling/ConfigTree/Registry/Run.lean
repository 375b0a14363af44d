import ConfigTree.Registry.Program
/-!
# Running programs

An update makes its snapshot the current one and fixes what is to be delivered to whom, before the
first callback runs. It then goes through the changed paths in path order and through the listeners
of a path in registration order, whatever the callbacks do meanwhile. A callback that fails is
noted and the next one runs.

Callbacks may apply snapshots themselves. The depth of such nesting is bounded by an argument; a
run that would go deeper has no outcome (`none`), and one that has an outcome keeps it at every
greater depth.
-/

namespace ConfigTree

/-- The outcome of running something in a hub, unless the nesting was too deep. -/
abbrev Outcome (V C S N α : Type) := Option (α × Hub V C S N)

/-- How the callback of a code is run on a delivery. -/
abbrev Invoke (V C S N : Type) :=
  C → Delivery V → Hub V C S N → Outcome V C S N (Except Failure Unit)

/-- Invocations that succeeded and that failed. -/
structure Tally where
  delivered : Nat
  failed : Nat
deriving DecidableEq

def Tally.count (t : Tally) (succeeded : Bool) : Tally :=
  if succeeded then ⟨t.delivered + 1, t.failed⟩ else ⟨t.delivered, t.failed + 1⟩

def Tally.add (t u : Tally) : Tally := ⟨t.delivered + u.delivered, t.failed + u.failed⟩

namespace Hub

variable {V C S N : Type}

/-- Invokes one listener; tells whether it succeeded. -/
def deliver (invoke : Invoke V C S N) (u : Update) (path : Path) (d : Delivery V)
    (entry : ListenerId × Listener C) (s : Hub V C S N) : Outcome V C S N Bool :=
  let s := s.record (.invoked u path entry.1 d)
  match entry.2.reaction with
  | .feed subscription => some (true, s.push subscription d)
  | .callback code =>
    match invoke code d s with
    | none => none
    | some (.ok (), s) => some (true, s)
    | some (.error reason, s) => some (false, s.record (.failed u path entry.1 reason))

def deliverGroup (invoke : Invoke V C S N) (u : Update) (path : Path) (d : Delivery V) :
    Group C → Hub V C S N → Outcome V C S N Tally
  | [], s => some (⟨0, 0⟩, s)
  | entry :: rest, s =>
    match deliver invoke u path d entry s with
    | none => none
    | some (succeeded, s) =>
      match deliverGroup invoke u path d rest s with
      | none => none
      | some (tally, s) => some (tally.count succeeded, s)

def deliverAll (invoke : Invoke V C S N) (u : Update) :
    List (Pending V C) → Hub V C S N → Outcome V C S N Tally
  | [], s => some (⟨0, 0⟩, s)
  | p :: rest, s =>
    let s := s.record (.reached u p.path p.delivery.isPresent)
    match deliverGroup invoke u p.path p.delivery p.listeners s with
    | none => none
    | some (tally, s) =>
      match deliverAll invoke u rest s with
      | none => none
      | some (others, s) => some (tally.add others, s)

def update (invoke : Invoke V C S N) (r : RegistryId) (tree : Tree V) (s : Hub V C S N) :
    Outcome V C S N UpdateSummary :=
  match s.registry? r with
  | none => some (⟨0, 0, 0⟩, s)
  | some registry =>
    let pending := registry.pending tree
    match deliverAll invoke (s.nextUpdateOf r registry) pending
        (s.beginUpdate r registry tree) with
    | none => none
    | some (tally, s) => some (⟨pending.length, tally.delivered, tally.failed⟩, s.endUpdate)

/-- Runs a program, given how callbacks are run. -/
def exec (invoke : Invoke V C S N) {α : Type} :
    Program V C S N α → Hub V C S N → Outcome V C S N (Except Failure α)
  | .done a, s => some (.ok a, s)
  | .ask q next, s =>
    let (reply, s) := q.perform s
    exec invoke (next reply) s
  | .update r tree next, s =>
    match update invoke r tree s with
    | none => none
    | some (summary, s) => exec invoke (next summary) s
  | .fail reason, s => some (.error reason, s)

/-- Runs callbacks as programs, with updates nested in them up to a depth. -/
def invokeWithin (respond : C → Delivery V → Program V C S N Unit) :
    (depth : Nat) → Invoke V C S N
  | 0, _, _, _ => none
  | depth + 1, code, d, s => exec (invokeWithin respond depth) (respond code d) s

/-- Runs a program, with callbacks nested up to a depth. -/
def run (respond : C → Delivery V → Program V C S N Unit) (depth : Nat) {α : Type}
    (p : Program V C S N α) (s : Hub V C S N) : Outcome V C S N (Except Failure α) :=
  exec (invokeWithin respond depth) p s

end Hub

end ConfigTree
