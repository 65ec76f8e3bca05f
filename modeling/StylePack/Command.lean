import StylePack.Path

/-! What a user can ask for on the command line. -/
namespace StylePack

inductive Command
  | build (input : Path) (out : Option Path) (packages : Path) (experimental debug : Bool)
  | add (url : String) (packages : Path) (debug : Bool)
  | list (packages : Path)
  | remove (name : Option String) (packages : Path)
  | generate (paths : List Path) (out : Path) (debug : Bool)
  | help (topic : Option String)
  deriving DecidableEq, Repr

/-- The paths that a command reads or writes. -/
def Command.paths : Command → List Path
  | build input out packages _ _ => input :: packages :: out.toList
  | add _ packages _ => [packages]
  | list packages => [packages]
  | remove _ packages => [packages]
  | generate paths out _ => out :: paths
  | help _ => []

/-- A command, or none, and whether nothing but errors is to be said. -/
structure Invocation where
  quiet : Bool
  command : Option Command
  deriving DecidableEq, Repr

end StylePack
