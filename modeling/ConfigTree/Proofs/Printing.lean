import ConfigTree.Command.Report
import ConfigTree.Proofs.Layouts
/-!
# What a command leaves behind

A command prints one document and the end of a line, and nothing else. What is printed, in one line
or indented, is read as this document (`Command.Outcome.Prints`), as long as the counts in it are
below `2 ^ 64`.
-/

namespace ConfigTree.Command

/-- The run ends with this exit code and has printed the document, and nothing else. -/
structure Outcome.Prints (o : Outcome) (format : Format) (exitCode : Nat) (document : Json) :
    Prop where
  exitCode_eq : o.exitCode = exitCode
  errorOutput_eq : o.errorOutput = ""
  output_eq : o.output = (match format with
    | .compact => document.compact
    | .indented => document.indented) ++ "\n"
  /-- All that is printed is read as the document. -/
  parse_output : (∀ n ∈ document.numbers, n.IsInteger) → Json.parse o.output = .ok document

theorem spelledBy_print (format : Format) {document : Json}
    (h : ∀ n ∈ document.numbers, n.IsInteger) :
    Json.SpelledBy document (format.print document) := by
  have hline : Json.Spaces "\n".toList := List.forall_mem_singleton.mpr (by decide)
  cases format with
  | compact => exact (Json.spelledBy_compact h).append hline
  | indented => exact (Json.spelledBy_indented h).append hline

theorem prints_print (format : Format) (exitCode : Nat) (document : Json) :
    (Outcome.mk exitCode (format.print document) "").Prints format exitCode document where
  exitCode_eq := rfl
  errorOutput_eq := rfl
  output_eq := by cases format <;> rfl
  parse_output h := Json.parse_of_spelledBy (spelledBy_print format h)

/-- The document tells what the run leaves behind. -/
theorem Outcome.Prints.unique {o o' : Outcome} {format : Format} {exitCode : Nat} {document : Json}
    (h : o.Prints format exitCode document) (h' : o'.Prints format exitCode document) : o = o' := by
  obtain ⟨hcode, herror, houtput, -⟩ := h
  obtain ⟨hcode', herror', houtput', -⟩ := h'
  obtain ⟨code, output, errorOutput⟩ := o
  obtain ⟨code', output', errorOutput'⟩ := o'
  rw [Outcome.mk.injEq]
  exact ⟨hcode.trans hcode'.symm, houtput.trans houtput'.symm, herror.trans herror'.symm⟩

/-- The document of a failure. -/
def errorJson (message : String) : Json :=
  .object [("message", .string message), ("status", .string "error")]

/-- What is said of a path that is not found. -/
def missingText (path : Path) : String := "Path not found: " ++ ".".intercalate path

theorem Failure.toJson_pathNotFound {path : Path} (h : path ≠ []) :
    (Failure.pathNotFound path).toJson = errorJson (missingText path) := by
  cases path with
  | nil => exact absurd rfl h
  | cons label path => rfl

end ConfigTree.Command
