import ConfigTree.Command.Options
import ConfigTree.Digest.Algorithm
/-!
# Command lines

A command line names a format and an algorithm, and then one of three commands with options of its
own: `hash` lists a tree, `get` looks up a path, and `diff` compares two trees.
-/

namespace ConfigTree.Command

/-- How the result is laid out. -/
inductive Format where
  | compact
  | indented
deriving DecidableEq

/-- What is to be done. Assignments and paths are texts as they were given. -/
inductive Action where
  | hash (assignments : List String)
  | get (path : String) (assignments : List String)
  | diff (old new : List String) (watch : Option String)
deriving DecidableEq

structure Invocation where
  format : Format
  algorithm : Algorithm
  action : Action
deriving DecidableEq

/-- A command line that was understood. -/
inductive CommandLine where
  | run (i : Invocation)
  | version
  | help

def helpOption : OptionSpec := ⟨"help", some 'h', .final⟩

/-- What stands before the command. -/
def generalSignature : Signature :=
  ⟨[⟨"format", some 'f', .one⟩, ⟨"digest", some 'd', .one⟩, helpOption,
    ⟨"version", some 'V', .final⟩], false⟩

def hashSignature : Signature := ⟨[helpOption], true⟩

def getSignature : Signature := ⟨[⟨"path", some 'p', .one⟩, helpOption], true⟩

def diffSignature : Signature :=
  ⟨[⟨"old", none, .many⟩, ⟨"new", none, .many⟩, ⟨"watch", some 'w', .one⟩, helpOption], false⟩

def readFormat (items : List Item) : Except UsageError Format :=
  match valueOf? "format" items with
  | none => .ok .compact
  | some "json" => .ok .compact
  | some "text" => .ok .indented
  | some text => .error (.badValue "format" text)

def readAlgorithm (items : List Item) : Except UsageError Algorithm :=
  match valueOf? "digest" items with
  | none => .ok .standard
  | some text =>
    match Algorithm.ofName text with
    | .ok a => .ok a
    | .error _ => .error (.badValue "digest" text)

/-- Reads the arguments of a command. Those before a request for help have to fit, but none need
be there. -/
def readArguments (s : Signature) (arguments : List String)
    (read : List Item → Except UsageError Action) : Except UsageError (Option Action) := do
  let (items, ending) ← scan s.options false .anything arguments
  s.check items
  match ending with
  | .final _ => .ok none
  | _ => (read items).map some

def readHash (items : List Item) : Except UsageError Action := .ok (.hash (operandsOf items))

def readGet (items : List Item) : Except UsageError Action :=
  match valueOf? "path" items with
  | some path => .ok (.get path (operandsOf items))
  | none => .error (.missingOption "path")

def readDiff (items : List Item) : Except UsageError Action :=
  .ok (.diff (valuesOf "old" items) (valuesOf "new" items) (valueOf? "watch" items))

/-- Reads what help is wanted on: the whole program or one command. -/
def readHelp : List String → Except UsageError (Option Action)
  | [] => .ok none
  | [name] =>
    if name ∈ ["hash", "get", "diff", "help"] then .ok none else .error (.unknownCommand name)
  | _ :: text :: _ => .error (.unexpectedOperand text)

/-- Reads a command with its arguments; `none` is a request for help. -/
def readCommand (name : String) (arguments : List String) : Except UsageError (Option Action) :=
  match name with
  | "hash" => readArguments hashSignature arguments readHash
  | "get" => readArguments getSignature arguments readGet
  | "diff" => readArguments diffSignature arguments readDiff
  | "help" => readHelp arguments
  | _ => .error (.unknownCommand name)

def CommandLine.ofArguments (arguments : List String) : Except UsageError CommandLine := do
  let (items, ending) ← scan generalSignature.options true .anything arguments
  generalSignature.check items
  let format ← readFormat items
  let algorithm ← readAlgorithm items
  match ending with
  | .final "version" => .ok .version
  | .final _ => .ok .help
  | .exhausted => .error .missingCommand
  | .command name arguments =>
    match ← readCommand name arguments with
    | some action => .ok (.run ⟨format, algorithm, action⟩)
    | none => .ok .help

end ConfigTree.Command
