import ConfigTree.Digest.Algorithm.Json
import ConfigTree.Text.Blank
/-!
# Registry settings

A registry has a name, which labels what it logs and must not be blank, and an algorithm for the
trees that are built through it. `Settings.ofJson` reads an object with at most these two fields,
or an array of them in this order; what is missing has its standard value.
-/

namespace ConfigTree

structure Settings where
  name : String := "config"
  digest : Algorithm := Algorithm.standard
deriving DecidableEq

namespace Settings

/-- Refuses a name of nothing but white space. -/
def validate (s : Settings) : Except Error Unit :=
  if Text.isBlank s.name then .error .blankName else .ok ()

def toJson (s : Settings) : Json := .object [("name", .string s.name), ("digest", s.digest.toJson)]

def inspect (s : Settings) : String :=
  "Settings \x7b name: " ++ Text.quoted s.name ++ ", digest: " ++ s.digest.inspect ++ " \x7d"

/-- The fields read so far. -/
structure Fields where
  name : Option String := none
  digest : Option Algorithm := none

/-- The settings with these fields, and standard values for the others. -/
def ofFields (f : Fields) : Settings :=
  ⟨f.name.getD ({} : Settings).name, f.digest.getD ({} : Settings).digest⟩

/-- Reads the value of the field `key`, whose key has been read. -/
def readField (key : String) (f : Fields) : Json.Reader Fields := fun cs =>
  if key = "name" then
    if f.name.isSome then .error (.mismatch (.duplicateField key))
    else do
      let rest ← Json.Reader.colon cs
      let (name, rest) ← Json.Reader.text rest
      .ok (⟨some name, f.digest⟩, rest)
  else if key = "digest" then
    if f.digest.isSome then .error (.mismatch (.duplicateField key))
    else do
      let rest ← Json.Reader.colon cs
      let (digest, rest) ← Algorithm.reader rest
      .ok (⟨f.name, some digest⟩, rest)
  else .error (.mismatch (.unknownField key))

/-- Reads members up to the closing brace; the first argument bounds their number. -/
def readMembers : Nat → Bool → Fields → Json.Reader Fields
  | 0, _, _, _ => .error .truncated
  | bound + 1, first, f, cs => do
    match ← Json.Reader.nextKey first cs with
    | none => .ok (f, cs)
    | some rest =>
      let (key, rest) ← Json.Reader.stringBody rest
      let (f, rest) ← readField key f rest
      readMembers bound false f rest

/-- Reads at most two items of an array, the name and the digest. -/
def readItems : Json.Reader Fields := fun cs => do
  match ← Json.Reader.nextItem true cs with
  | none => .ok ({}, cs)
  | some rest =>
    let (name, rest) ← Json.Reader.text rest
    match ← Json.Reader.nextItem false rest with
    | none => .ok (⟨some name, none⟩, rest)
    | some rest =>
      let (digest, rest) ← Algorithm.reader rest
      .ok (⟨some name, some digest⟩, rest)

/-- Reads the fields of settings, in either form. -/
def reader : Json.Reader Settings := fun cs =>
  match Json.Reader.skipSpace cs with
  | [] => .error .truncated
  | '\x7b' :: rest => do
    let (f, rest) ← readMembers (rest.length + 1) true {} rest
    let rest ← Json.Reader.closeObject rest
    .ok (ofFields f, rest)
  | '[' :: rest => do
    let (f, rest) ← readItems rest
    let rest ← Json.Reader.closeArray rest
    .ok (ofFields f, rest)
  | cs => .error (Json.Reader.refuse .settings cs)

/-- Reads a whole text, and refuses a blank name. -/
def ofJson (text : String) : Except Error Settings := do
  let s ← match reader.readAll text with
    | .ok s => .ok s
    | .error e => .error (.json e)
  s.validate
  .ok s

end Settings

end ConfigTree
