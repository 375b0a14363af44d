import ConfigTree.Command.Assignment
import ConfigTree.Command.Invocation
import ConfigTree.Diff
import ConfigTree.Delivery
import ConfigTree.Json.Writer
import ConfigTree.Hash.Hex
/-!
# Results of commands

A command ends with exactly one JSON document, on failure as on success, whose keys are in
alphabetical order.
-/

namespace ConfigTree.Command

/-- Whether a watched subtree changed, and whether it still exists. -/
inductive WatchStatus where
  | unchanged
  | changed
  | removed
deriving DecidableEq

def WatchStatus.text : WatchStatus → String
  | unchanged => "unchanged"
  | changed => "changed"
  | removed => "removed"

structure WatchReport where
  path : Path
  status : WatchStatus
  hash : Option Hash
deriving DecidableEq

/-- One value of a tree, with the hash of its node. -/
structure ListedEntry where
  path : Path
  value : String
  hash : Option Hash
deriving DecidableEq

/-- The result of a command. -/
inductive Report where
  | listing (algorithm : Algorithm) (root : Hash) (entries : List ListedEntry)
  | subtree (path : Path) (value : Option String) (hash : Hash) (entries : Nat)
  | comparison (rootChanged : Bool) (diff : Diff) (watch : Option WatchReport)
deriving DecidableEq

def listTree (t : Tree String) : Report :=
  .listing t.algorithm t.hash
    (t.entries.map fun (path, value) => ⟨path, value, t.hash? path⟩)

def lookUp (path : Path) (t : Tree String) : Except Failure Report :=
  match t.subtree? path with
  | none => .error (.pathNotFound path)
  | some sub => .ok (.subtree path sub.value? sub.hash sub.size)

/-- What happened to a watched subtree. -/
def watchChange (path : Path) (old new : Tree String) : WatchReport :=
  match Delivery.between? (some old) new path with
  | none => ⟨path, .unchanged, new.hash? path⟩
  | some (.present sub) => ⟨path, .changed, some sub.hash⟩
  | some .absent => ⟨path, .removed, none⟩

def compareTrees (watch : Option Path) (old new : Tree String) : Report :=
  .comparison (old.hash ≠ new.hash) (old.diff new)
    (watch.map fun path => watchChange path old new)

def Action.report (algorithm : Algorithm) : Action → Except Failure Report
  | hash assignments => (treeOf algorithm 0 assignments).map listTree
  | get path assignments => do
    let t ← treeOf algorithm 0 assignments
    lookUp (Path.ofDotted path) t
  | diff old new watch => do
    let oldTree ← treeOf algorithm 0 old
    let newTree ← treeOf algorithm (old.length + 1) new
    .ok (compareTrees (watch.map Path.ofDotted) oldTree newTree)

/-- A hash, or null for none. -/
def hashJson : Option Hash → Json
  | some h => .string h.toHex
  | none => .null

def ListedEntry.toJson (e : ListedEntry) : Json :=
  .object [("hash", hashJson e.hash), ("path", .string e.path.display), ("value", .string e.value)]

def WatchReport.toJson (w : WatchReport) : Json :=
  .object [("hash", hashJson w.hash), ("path", .string w.path.display),
    ("status", .string w.status.text)]

def changeJson (change : Path × ValueChange) : Json :=
  .object [("kind", .string change.2.kind), ("path", .string change.1.display)]

/-- The document of a result. -/
def Report.toJson : Report → Json
  | listing algorithm root entries =>
    .object [("algorithm", .string algorithm.name),
      ("entries", .array (entries.map ListedEntry.toJson)), ("root", .string root.toHex)]
  | subtree path value hash entries =>
    .object [("entries", .int entries), ("hash", .string hash.toHex),
      ("path", .string path.display), ("value", (value.map Json.string).getD .null)]
  | comparison rootChanged diff watch =>
    .object [("added", .int diff.addedCount), ("entries", .array (diff.map changeJson)),
      ("modified", .int diff.modifiedCount), ("removed", .int diff.removedCount),
      ("root_changed", .bool rootChanged), ("watch", (watch.map WatchReport.toJson).getD .null)]

/-- The document of a failure. -/
def Failure.toJson (f : Failure) : Json :=
  .object [("message", .string f.message), ("status", .string "error")]

/-- What a run leaves behind. -/
structure Outcome where
  exitCode : Nat
  output : String
  errorOutput : String
deriving DecidableEq

/-- A document and the end of its line. -/
def Format.print (format : Format) (document : Json) : String :=
  match format with
  | compact => document.compact ++ "\n"
  | indented => document.indented ++ "\n"

def Invocation.outcome (i : Invocation) : Outcome :=
  match i.action.report i.algorithm with
  | .ok report => ⟨0, i.format.print report.toJson, ""⟩
  | .error failure => ⟨1, i.format.print failure.toJson, ""⟩

/-- A summary of the command line. -/
def usage : String := String.join [
  "usage: mtree [-f|--format json|text] [-d|--digest ALGORITHM] COMMAND\n",
  "commands:\n",
  "  hash ASSIGNMENT...\n",
  "  get -p|--path PATH ASSIGNMENT...\n",
  "  diff [--old ASSIGNMENT...] [--new ASSIGNMENT...] [-w|--watch PATH]\n"]

def execute (arguments : List String) : Outcome :=
  match CommandLine.ofArguments arguments with
  | .ok (.run i) => i.outcome
  | .ok .version => ⟨0, "mtree 0.1.0\n", ""⟩
  | .ok .help => ⟨0, usage, ""⟩
  | .error e => ⟨2, "", "error: " ++ e.message ++ "\n"⟩

end ConfigTree.Command
