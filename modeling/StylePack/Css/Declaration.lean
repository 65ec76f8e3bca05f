import StylePack.Text.Blank
import StylePack.Text.AsciiCase

/-! Declarations such as `color: red !important`: how their text is read and written. -/
namespace StylePack.Css

structure Declaration where
  property : String
  value : String
  important : Bool
  deriving DecidableEq, Repr, Inhabited

namespace Declaration
open Text

/-- A value without its `!important`, and whether it had one. Only the last `!` counts. -/
def splitImportance (value : List Char) : List Char × Bool :=
  match splitLast '!' value with
  | some (before, after) =>
    if sameLetters (trim after) "important".toList then (trimEnd before, true) else (value, false)
  | none => (value, false)

/-- The declaration that a text holds: a property without blanks in it, a colon, and a value. -/
def ofText? (text : List Char) : Option Declaration :=
  match splitFirst ':' text with
  | none => none
  | some (property, value) =>
    if (trim property).isEmpty || (trim property).any isBlank then none
    else
      let (value, important) := splitImportance (trim value)
      some ⟨String.ofList (trim property), String.ofList value, important⟩

/-- The text of a declaration, without the semicolon that ends it in a stylesheet. -/
def text (d : Declaration) : String :=
  d.property ++ ": " ++ d.value ++ (if d.important then " !important" else "")

example : ofText? " color : red ! IMPORTANT ".toList = some ⟨"color", "red", true⟩ := by decide

example : ofText? "two words: red".toList = none := by decide

example : text ⟨"color", "red", true⟩ = "color: red !important" := by decide

end Declaration
end StylePack.Css
