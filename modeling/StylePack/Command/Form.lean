import StylePack.Store

/-! The form of each command: its names, its options and its operands, with a line of help for
each. Both the reader of the command line and the help texts go by these forms. -/
namespace StylePack.Command

/-- An option. -/
structure Switch where
  name : String
  letter : Option Char := none
  /-- What its value is called. A switch without a value is a flag; every value is a path. -/
  value : Option String := none
  help : String
  /-- Its value if it is not given. -/
  usual : Option Path := none
  deriving DecidableEq, Repr

/-- How many operands a command takes. -/
inductive Count
  | one
  | optional
  | several
  deriving DecidableEq, Repr

/-- What the words are that belong to no option. -/
structure Operand where
  name : String
  count : Count
  /-- A path cannot be empty. -/
  isPath : Bool
  help : String
  deriving DecidableEq, Repr

inductive Verb
  | build
  | add
  | list
  | remove
  | generate
  | help
  deriving DecidableEq, Repr

def Switch.shown (s : Switch) : String :=
  match s.value with
  | some value => "--" ++ s.name ++ " <" ++ value ++ ">"
  | none => "--" ++ s.name

def Operand.shown (o : Operand) : String :=
  match o.count with
  | .one => "<" ++ o.name ++ ">"
  | .optional => "[" ++ o.name ++ "]"
  | .several => "<" ++ o.name ++ ">..."

namespace Switch

def quiet : Switch := { name := "quiet", letter := some 'q', help := "Only print errors" }

def version : Switch := { name := "version", letter := some 'V', help := "Print version" }

def packages : Switch :=
  ⟨"packages", some 'p', some "PACKAGES", "Directory holding package descriptors",
    some Store.defaultFolder⟩

def outFile : Switch :=
  ⟨"out", some 'o', some "OUT", "Write the result here instead of stdout", none⟩

def outFolder : Switch :=
  ⟨"out", some 'o', some "OUT", "Directory the descriptors are written to", some ⟨"multiout"⟩⟩

def experimental : Switch := { name := "experimental", help := "Enable experimental directives" }

def debug : Switch := { name := "debug", help := "Enable debug mode for verbose output" }

/-- The options that every command has, and that can also stand before it. -/
def common : List Switch := [quiet, version]

end Switch

namespace Verb

def all : List Verb := [build, add, list, remove, generate, help]

def name : Verb → String
  | build => "build"
  | add => "add"
  | list => "list"
  | remove => "remove"
  | generate => "generate"
  | help => "help"

def short? : Verb → Option String
  | build => some "b"
  | add => some "i"
  | list => some "ls"
  | remove => some "rm"
  | generate => some "gen"
  | help => none

def about : Verb → String
  | build => "Expands @package/@use directives in a stylesheet"
  | add => "Downloads a package descriptor from a URL"
  | list => "Lists installed packages"
  | remove => "Removes an installed package"
  | generate => "Generates package descriptors from CSS class rules"
  | help => "Shows help information for penguinui or a specific command"

def operand? : Verb → Option Operand
  | build => some ⟨"INPUT", .one, true, "The stylesheet to build"⟩
  | add => some ⟨"URL", .one, false, "URL of the descriptor JSON"⟩
  | list => none
  | remove => some ⟨"NAME", .optional, false, "Name of the package to remove"⟩
  | generate => some ⟨"PATHS", .several, true, "CSS files or directories to scan"⟩
  | help => some ⟨"COMMAND", .optional, false, "The command to show help for (optional)"⟩

/-- The options of a command besides the common ones. -/
def switches : Verb → List Switch
  | build => [.outFile, .packages, .experimental, .debug]
  | add => [.packages, .debug]
  | list => [.packages]
  | remove => [.packages]
  | generate => [.outFolder, .debug]
  | help => []

/-- The command that a word names. -/
def ofWord? (word : String) : Option Verb :=
  all.find? fun v => v.name = word || v.short? = some word

end Verb
end StylePack.Command
