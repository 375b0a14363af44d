import ConfigTree.Command.Report
/-!
# Reading command lines

A long option with its value behind an equals sign is read as that value, whatever the value looks
like, and what stands behind `--` is read as operands, whatever these look like. So every invocation
that lists a tree or looks up a path has a command line (`Command.hashLine`, `Command.getLine`),
with any texts for the path and the assignments.
-/

namespace ConfigTree.Command

/-- The name by which a format is chosen. -/
def Format.name : Format → String
  | .compact => "json"
  | .indented => "text"

/-- A long option with its value attached. -/
def longOption (name value : String) : String := "--" ++ name ++ "=" ++ value

/-- A command line that lists the tree of the assignments. -/
def hashLine (format : Format) (algorithm : Algorithm) (texts : List String) : List String :=
  longOption "format" format.name :: longOption "digest" algorithm.name :: "hash" :: "--" :: texts

/-- A command line that looks up a path in the tree of the assignments. -/
def getLine (format : Format) (algorithm : Algorithm) (path : String) (texts : List String) :
    List String :=
  longOption "format" format.name :: longOption "digest" algorithm.name ::
    "get" :: longOption "path" path :: "--" :: texts

theorem toList_longOption (name value : String) :
    (longOption name value).toList = '-' :: '-' :: (name.toList ++ '=' :: value.toList) := by
  simp [longOption, String.toList_append]

theorem of?_longOption {name : String} (h : '=' ∉ name.toList) (value : String) :
    Dashed.of? (longOption name value) = some (.long name (some value)) := by
  have hpass : ∀ c ∈ name.toList, decide (c ≠ '=') = true := fun c hc =>
    decide_eq_true fun he => h (he ▸ hc)
  have hname : (name.toList ++ '=' :: value.toList).takeWhile (· ≠ '=') = name.toList := by
    rw [List.takeWhile_append_of_pos hpass]
    simp
  have hvalue : (name.toList ++ '=' :: value.toList).dropWhile (· ≠ '=') = '=' :: value.toList := by
    rw [List.dropWhile_append_of_pos hpass]
    rfl
  simp only [Dashed.of?, toList_longOption, hname, hvalue, String.ofList_toList]

theorem longOption_ne_separator (name value : String) : longOption name value ≠ "--" := by
  intro h
  have hlist := congrArg String.toList h
  rw [toList_longOption] at hlist
  simp at hlist

theorem operandsOf_operands (texts : List String) : operandsOf (operands texts) = texts := by
  rw [operandsOf, operands, List.filterMap_map]
  exact List.filterMap_some ..

theorem valuesOf_operands (option : String) (texts : List String) :
    valuesOf option (operands texts) = [] := by
  rw [valuesOf, operands, List.filterMap_map]
  exact List.filterMap_eq_nil_iff.mpr fun _ _ => rfl

theorem scan_longOption {specs : List OptionSpec} {name : String} {short : Option Char}
    (hname : '=' ∉ name.toList)
    (hspec : specs.find? (·.name = name) = some ⟨name, short, .one⟩) (value : String)
    (wantsCommand : Bool) (rest : List String) :
    scan specs wantsCommand .anything (longOption name value :: rest) =
      (scan specs wantsCommand .anything rest).map fun (items, ending) =>
        (.value name value :: items, ending) := by
  have htake : takeDashed specs (longOption name value) (.long name (some value)) =
      .ok ⟨[.value name value], .anything, none⟩ := by
    rw [takeDashed, hspec]
    rfl
  rw [scan.eq_def]
  simp only [longOption_ne_separator, if_false, of?_longOption hname, htake, bind, Except.bind]
  cases scan specs wantsCommand .anything rest with
  | error e => rfl
  | ok result => rfl

theorem readCommand_hash (texts : List String) :
    readCommand "hash" ("--" :: texts) = .ok (some (.hash texts)) := by
  have hcheck : hashSignature.check (operands texts) = .ok () := by
    rw [Signature.check_eq_ok_iff]
    exact ⟨by simp [Signature.repeated?, valuesOf_operands], .inl rfl⟩
  simp [readCommand, readArguments, scan, readHash, bind, Except.bind, hcheck, operandsOf_operands,
    Except.map]

theorem readCommand_get (path : String) (texts : List String) :
    readCommand "get" (longOption "path" path :: "--" :: texts) = .ok (some (.get path texts)) := by
  have hscan : scan getSignature.options false .anything (longOption "path" path :: "--" :: texts) =
      .ok (.value "path" path :: operands texts, .exhausted) := by
    have hspec : getSignature.options.find? (·.name = "path") = some ⟨"path", some 'p', .one⟩ := rfl
    rw [scan_longOption (by decide) hspec]
    simp [scan, Except.map]
  have hvalues : valuesOf "path" (.value "path" path :: operands texts) = [path] := by
    have hnone := valuesOf_operands "path" texts
    rw [valuesOf] at hnone ⊢
    simp [hnone]
  have hoperands : operandsOf (.value "path" path :: operands texts) = texts :=
    operandsOf_operands texts
  have hcheck : getSignature.check (.value "path" path :: operands texts) = .ok () := by
    rw [Signature.check_eq_ok_iff]
    exact ⟨by simp [Signature.repeated?, getSignature, helpOption, hvalues], .inl rfl⟩
  simp only [readCommand, readArguments, hscan, hcheck, bind, Except.bind, readGet, valueOf?,
    hvalues, hoperands, List.head?_cons]
  rfl

theorem ofArguments_eq (format : Format) (algorithm : Algorithm) {name : String}
    (hdashed : Dashed.of? name = none) (arguments : List String) :
    CommandLine.ofArguments (longOption "format" format.name ::
        longOption "digest" algorithm.name :: name :: arguments) =
      (readCommand name arguments).map fun
        | some action => .run ⟨format, algorithm, action⟩
        | none => .help := by
  have hname : name ≠ "--" := by
    rintro rfl
    cases hdashed
  have hscan : scan generalSignature.options true .anything
      (longOption "format" format.name :: longOption "digest" algorithm.name :: name :: arguments) =
      .ok ([.value "format" format.name, .value "digest" algorithm.name],
        .command name arguments) := by
    have hformat : generalSignature.options.find? (·.name = "format") =
        some ⟨"format", some 'f', .one⟩ := rfl
    have hdigest : generalSignature.options.find? (·.name = "digest") =
        some ⟨"digest", some 'd', .one⟩ := rfl
    rw [scan_longOption (by decide) hformat, scan_longOption (by decide) hdigest, scan.eq_def]
    simp [hname, hdashed, Except.map]
  have hcheck : generalSignature.check
      [.value "format" format.name, .value "digest" algorithm.name] = .ok () := rfl
  have hformat : readFormat [.value "format" format.name, .value "digest" algorithm.name] =
      .ok format := by
    cases format <;> rfl
  have halgorithm : readAlgorithm [.value "format" format.name, .value "digest" algorithm.name] =
      .ok algorithm := by
    cases algorithm <;> rfl
  simp only [CommandLine.ofArguments, hscan, hcheck, hformat, halgorithm, bind, Except.bind]
  cases readCommand name arguments with
  | error e => rfl
  | ok action =>
    cases action with
    | none => rfl
    | some action => rfl

theorem execute_hashLine (format : Format) (algorithm : Algorithm) (texts : List String) :
    execute (hashLine format algorithm texts) =
      (Invocation.mk format algorithm (.hash texts)).outcome := by
  rw [execute, hashLine, ofArguments_eq format algorithm rfl, readCommand_hash]
  rfl

theorem execute_getLine (format : Format) (algorithm : Algorithm) (path : String)
    (texts : List String) : execute (getLine format algorithm path texts) =
      (Invocation.mk format algorithm (.get path texts)).outcome := by
  rw [execute, getLine, ofArguments_eq format algorithm rfl, readCommand_get]
  rfl

end ConfigTree.Command
