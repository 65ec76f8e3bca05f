import StylePack.OrderedMap
import StylePack.Path

/-! Packages of declarations: what a descriptor says, and the package a stylesheet can use. -/
namespace StylePack

/-- Properties with their values, in the order in which they are written to a rule. -/
abbrev Styles := OrderedMap String String

/-- A package as it is stored and shared. -/
structure Descriptor where
  name : String
  styles : Styles
  deriving DecidableEq, Repr, Inhabited

/-- A package that a stylesheet can use, with the file it was loaded from. -/
structure Package where
  name : String
  styles : Styles
  origin : Option Path
  deriving DecidableEq, Repr, Inhabited

namespace Descriptor

def toPackage (d : Descriptor) (origin : Option Path) : Package := ⟨d.name, d.styles, origin⟩

end Descriptor
end StylePack
