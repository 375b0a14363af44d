/-!
# Options on a command line

Arguments are read from left to right. One that starts with a hyphen, unless it is a single hyphen
or stands after `--`, holds options: a long one behind two hyphens, with an optional value behind
an equals sign, or short ones behind one hyphen, of which the first that takes a value takes the
rest of the argument. A value that stands apart follows in the next argument.
-/

namespace ConfigTree.Command

/-- What an option does with values. -/
inductive Arity where
  /-- It takes none, and nothing after it is read. -/
  | final
  /-- It takes exactly one. -/
  | one
  /-- It takes all arguments up to the next option. -/
  | many
deriving DecidableEq

/-- An option, by its long name. -/
structure OptionSpec where
  name : String
  short : Option Char
  arity : Arity

/-- Part of a command line, as it was understood. -/
inductive Item where
  | occurrence (option : String)
  | value (option text : String)
  | operand (text : String)
deriving DecidableEq

/-- Why a command line is not understood. -/
inductive UsageError where
  | unknownOption (text : String)
  | missingValue (option : String)
  | unwantedValue (option : String)
  | repeatedOption (option : String)
  | badValue (option text : String)
  | missingOption (option : String)
  | missingCommand
  | unknownCommand (text : String)
  | unexpectedOperand (text : String)
deriving DecidableEq

def UsageError.message : UsageError → String
  | unknownOption text => "unknown option: " ++ text
  | missingValue option => "option needs a value: --" ++ option
  | unwantedValue option => "option takes no value: --" ++ option
  | repeatedOption option => "option given twice: --" ++ option
  | badValue option text => "bad value for --" ++ option ++ ": " ++ text
  | missingOption option => "missing option: --" ++ option
  | missingCommand => "missing command"
  | unknownCommand text => "unknown command: " ++ text
  | unexpectedOperand text => "unexpected argument: " ++ text

/-- Where reading stopped. -/
inductive Ending where
  | exhausted
  /-- At an option after which nothing is read. -/
  | final (option : String)
  /-- At the first operand, with the arguments after it. -/
  | command (name : String) (arguments : List String)

/-- What the next argument may be. -/
inductive Awaiting where
  | anything
  /-- The value of an option. -/
  | value (option : String)
  /-- One more value of an option. -/
  | more (option : String)

/-- An argument that holds options, cut up. -/
inductive Dashed where
  | long (name : String) (value : Option String)
  | short (cluster : List Char)

/-- The options in an argument; `none` for an operand or a value. -/
def Dashed.of? (arg : String) : Option Dashed :=
  match arg.toList with
  | '-' :: '-' :: rest =>
    let name := String.ofList (rest.takeWhile (· ≠ '='))
    match rest.dropWhile (· ≠ '=') with
    | [] => some (.long name none)
    | _ :: value => some (.long name (some (String.ofList value)))
  | '-' :: c :: rest => some (.short (c :: rest))
  | _ => none

/-- What the options of one argument amount to. -/
structure Step where
  items : List Item
  awaiting : Awaiting
  final : Option String

/-- An option with the value attached to it, if any. -/
def takeOption (spec : OptionSpec) (attached : Option String) : Except UsageError Step :=
  match spec.arity, attached with
  | .final, none => .ok ⟨[], .anything, some spec.name⟩
  | .final, some _ => .error (.unwantedValue spec.name)
  | .one, none => .ok ⟨[], .value spec.name, none⟩
  | .one, some v => .ok ⟨[.value spec.name v], .anything, none⟩
  | .many, none => .ok ⟨[.occurrence spec.name], .more spec.name, none⟩
  | .many, some v => .ok ⟨[.occurrence spec.name, .value spec.name v], .anything, none⟩

/-- The options of one argument. In a cluster only the first counts, since every option either
takes the rest of the argument or ends the reading. -/
def takeDashed (specs : List OptionSpec) (arg : String) : Dashed → Except UsageError Step
  | .long name attached =>
    match specs.find? (·.name = name) with
    | some spec => takeOption spec attached
    | none => .error (.unknownOption arg)
  | .short [] => .error (.unknownOption arg)
  | .short (c :: rest) =>
    match specs.find? (·.short = some c) with
    | none => .error (.unknownOption arg)
    | some spec =>
      match spec.arity, rest with
      | .final, _ => takeOption spec none
      | _, [] => takeOption spec none
      | _, '=' :: value => takeOption spec (some (String.ofList value))
      | _, value => takeOption spec (some (String.ofList value))

/-- All arguments as operands. -/
def operands (args : List String) : List Item := args.map .operand

/-- Reads arguments, up to the first operand if a command name is wanted. -/
def scan (specs : List OptionSpec) (wantsCommand : Bool) :
    Awaiting → List String → Except UsageError (List Item × Ending)
  | .value option, [] => .error (.missingValue option)
  | _, [] => .ok ([], .exhausted)
  | awaiting, arg :: rest =>
    if arg = "--" then
      match awaiting with
      | .value option => .error (.missingValue option)
      | _ => .ok (operands rest, .exhausted)
    else
      match Dashed.of? arg, awaiting with
      | some _, .value option => .error (.missingValue option)
      | some dashed, _ => do
        let step ← takeDashed specs arg dashed
        match step.final with
        | some option => .ok (step.items, .final option)
        | none =>
          let (items, ending) ← scan specs wantsCommand step.awaiting rest
          .ok (step.items ++ items, ending)
      | none, .value option => do
        let (items, ending) ← scan specs wantsCommand .anything rest
        .ok (.value option arg :: items, ending)
      | none, .more option => do
        let (items, ending) ← scan specs wantsCommand (.more option) rest
        .ok (.value option arg :: items, ending)
      | none, .anything =>
        if wantsCommand then .ok ([], .command arg rest)
        else do
          let (items, ending) ← scan specs wantsCommand .anything rest
          .ok (.operand arg :: items, ending)

/-- The values of an option, in order. -/
def valuesOf (option : String) (items : List Item) : List String :=
  items.filterMap fun
    | .value o text => if o = option then some text else none
    | _ => none

def operandsOf (items : List Item) : List String :=
  items.filterMap fun
    | .operand text => some text
    | _ => none

def valueOf? (option : String) (items : List Item) : Option String := (valuesOf option items).head?

/-- What a command understands besides its name. -/
structure Signature where
  options : List OptionSpec
  takesOperands : Bool

/-- An option that takes one value and is given twice. -/
def Signature.repeated? (s : Signature) (items : List Item) : Option OptionSpec :=
  s.options.find? fun spec => spec.arity = .one ∧ 1 < (valuesOf spec.name items).length

/-- Refuses an option given twice, and operands of a command without. -/
def Signature.check (s : Signature) (items : List Item) : Except UsageError Unit :=
  match s.repeated? items, s.takesOperands, operandsOf items with
  | some spec, _, _ => .error (.repeatedOption spec.name)
  | none, false, text :: _ => .error (.unexpectedOperand text)
  | _, _, _ => .ok ()

theorem Signature.check_eq_ok_iff {s : Signature} {items : List Item} :
    s.check items = .ok () ↔
      s.repeated? items = none ∧ (s.takesOperands = true ∨ operandsOf items = []) := by
  unfold check
  cases s.repeated? items <;> cases s.takesOperands <;> cases operandsOf items <;> simp

end ConfigTree.Command
