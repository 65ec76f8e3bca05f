import StylePack.ClassName
import StylePack.Css.Sheet
import StylePack.Package.Descriptor

/-! Packages from the class rules of a stylesheet: one for each class, with the declarations of
all the rules that name it. -/
namespace StylePack
open Css

namespace Extract

/-- The declarations of a rule by property; a later one replaces the value of an earlier one. -/
def stylesOf (sheet : Sheet) (rule : Nat) : Styles :=
  .ofList ((sheet.declarations rule).map fun d => (d.property, d.value))

/-- Adds a rule's styles to those of one class. -/
def addClass (styles : Styles) (classes : OrderedMap String Styles) (name : String) :
    OrderedMap String Styles :=
  classes.insert name (((classes.get? name).getD .empty).insertAll styles.entries)

/-- Adds a rule's styles to those of the classes in its selector. A selector without a point
names no class, and a rule without declarations makes no package. -/
def addRule (sheet : Sheet) (classes : OrderedMap String Styles) (rule : Nat) :
    OrderedMap String Styles :=
  match sheet.selector? rule with
  | none => classes
  | some selector =>
    let styles := stylesOf sheet rule
    if !selector.toList.contains '.' || styles.isEmpty then classes
    else (ClassName.inSelector selector).foldl (addClass styles) classes

/-- The styles of the classes of a sheet, in the order in which the classes are met. -/
def classes (sheet : Sheet) : OrderedMap String Styles := sheet.rules.foldl (addRule sheet) .empty

end Extract

/-- The packages of the classes of a sheet. -/
def extract (sheet : Sheet) : List Descriptor :=
  (Extract.classes sheet).entries.map fun (name, styles) => ⟨name, styles⟩

end StylePack
