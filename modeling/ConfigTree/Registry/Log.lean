import ConfigTree.Registry.Hub
import ConfigTree.Json.Value
/-!
# Log lines

What a journal tells a reader of the log: each snapshot that was applied, each changed path that
was reached, each listener that failed and each subscription that was closed.
-/

namespace ConfigTree

inductive LogLevel where
  | trace
  | debug
  | error
deriving DecidableEq

def LogLevel.name : LogLevel → String
  | trace => "trace"
  | debug => "debug"
  | error => "error"

/-- A message with named fields. -/
structure LogLine where
  level : LogLevel
  message : String
  fields : List (String × Json)

namespace Entry

variable {V N : Type}

/-- What is said of a listener that failed. -/
def failureMessage (text : Option String) : String :=
  "listener panicked: " ++ text.getD "<non-string panic payload>"

/-- The line of an entry, if it has one. -/
def logLine? : Entry V N → Option LogLine
  | applied u tree changed =>
    some ⟨.debug, "applied configuration snapshot",
      [("registry", .string u.name), ("root", .string tree.hash.short), ("changed", .int changed)]⟩
  | reached u path isPresent =>
    some ⟨.trace, "subtree changed",
      [("registry", .string u.name), ("path", .string path.display), ("present", .bool isPresent)]⟩
  | failed u path listener text =>
    some ⟨.error, failureMessage text,
      [("registry", .string u.name), ("path", .string path.display),
        ("listener", .string listener.display)]⟩
  | detached name path listener =>
    some ⟨.trace, "stream subscriber detached",
      [("registry", .string name), ("path", .string path.display),
        ("listener", .string listener.display)]⟩
  | registered .. | cancelled .. | invoked .. | taken .. | note .. => none

end Entry

end ConfigTree
