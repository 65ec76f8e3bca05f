import StylePack.Json.Value
import StylePack.Package.Descriptor
import StylePack.Package.Name
import StylePack.Text.Blank

/-! Descriptors as JSON. There are two readers: a strict one for what comes from outside, which
says what is wrong, and a lenient one for what is installed, which leaves out what it cannot use. -/
namespace StylePack.Descriptor
open Json

/-- A style as a line of the object it belongs to. -/
def styleLine (style : String × String) : String :=
  "    " ++ Quoted.quote style.1 ++ ": " ++ Quoted.quote style.2

def stylesText (styles : Styles) : String :=
  if styles.isEmpty then "\x7b\x7d"
  else "\x7b\n" ++ ",\n".intercalate (styles.entries.map styleLine) ++ "\n  \x7d"

/-- The text of a descriptor, with two spaces of indentation a level. -/
def toJson (d : Descriptor) : String :=
  "\x7b\n  \"name\": " ++ Quoted.quote d.name ++ ",\n  \"styles\": " ++ stylesText d.styles ++ "\n\x7d"

/-- What makes a text no acceptable descriptor. -/
inductive Defect
  | notJson
  | notObject
  /-- There is no name, it is no string, or it is blank. -/
  | missingName
  | invalidName
  | stylesNotObject
  | styleNotString (property : String)
  deriving DecidableEq, Repr

def Defect.message : Defect → String
  | notJson => "Invalid JSON"
  | notObject => "Not an object"
  | missingName => "Missing name"
  | invalidName => "Invalid name"
  | stylesNotObject => "styles must be object"
  | styleNotString property => "Style value for " ++ property ++ " must be string"

/-- The styles of an object whose values are all strings; else the first key with another one. -/
def strictStyles : List (String × Value) → Except Defect (List (String × String))
  | [] => .ok []
  | (property, value) :: members =>
    match value.string? with
    | some text => (strictStyles members).map ((property, text) :: ·)
    | none => .error (.styleNotString property)

/-- Reads a descriptor that comes from outside. -/
def validate (text : String) : Except Defect Descriptor :=
  match Value.parse? text with
  | none => .error .notJson
  | some value =>
    if value.members?.isNone then .error .notObject
    else match (value.get? "name").bind Value.string? with
      | none => .error .missingName
      | some name =>
        if Text.isBlankText name then .error .missingName
        else if !Package.isValidName name then .error .invalidName
        else match (value.get? "styles").bind Value.members? with
          | none => .error .stylesNotObject
          | some members => (strictStyles members).map fun styles => ⟨name, .ofList styles⟩

/-- The styles of an object, without the members that are no strings. -/
def lenientStyles (members : List (String × Value)) : List (String × String) :=
  members.filterMap fun (property, value) => value.string?.map (property, ·)

/-- Reads an installed descriptor: any object with a string `name` and an object `styles`. -/
def ofJson? (text : String) : Option Descriptor := do
  let value ← Value.parse? text
  let name ← (← value.get? "name").string?
  let members ← (← value.get? "styles").members?
  pure ⟨name, .ofList (lenientStyles members)⟩

example : toJson ⟨"a", .ofList [("color", "red")]⟩ =
    "\x7b\n  \"name\": \"a\",\n  \"styles\": \x7b\n    \"color\": \"red\"\n  \x7d\n\x7d" := by
  decide +kernel

example : ofJson? (toJson ⟨"a", .ofList [("color", "\"red\"\n")]⟩) =
    some ⟨"a", .ofList [("color", "\"red\"\n")]⟩ := by decide +kernel

end StylePack.Descriptor
