import StylePack.Command.Form
import StylePack.Console.Paint
import StylePack.Text.Blank

/-! Help texts: the plain one of a single command, and the coloured overview of them all. The
overview is coloured even where log lines are not. -/
namespace StylePack.Command
open Console (bold paint underline)

def version : String := "0.1.0"

/-- The program's own name. -/
def program : String := "penguinui"

def description : String := "Shareable CSS declaration packages for your stylesheets"

def homePage : String := "https://github.com/penguinui/penguinui"

/-- What is printed if the version of the program or of one of its commands is asked for. -/
def versionLine (of : Option Verb) : String :=
  program ++ ((of.map fun v => "-" ++ v.name).getD "") ++ " " ++ version ++ "\n"

/-- A text with as many blanks behind it as it needs to be this wide. -/
def padded (width : Nat) (s : String) : String :=
  s ++ String.ofList (List.replicate (width - s.length) ' ')

def widest (texts : List String) : Nat := texts.foldl (fun n s => max n s.length) 0

def lines (texts : List String) : String := String.join (texts.map (· ++ "\n"))

namespace Verb

/-- How the command is written. -/
def usage (v : Verb) : String :=
  v.name ++ (if v.switches.isEmpty then "" else " [OPTIONS]") ++
    ((v.operand?.map fun o => " " ++ o.shown).getD "")

/-- The option's letter and name, and what is said about it. -/
def switchRow (s : Switch) : String × String :=
  ((match s.letter with
    | some c => String.ofList ['-', c] ++ ", "
    | none => "    ") ++ s.shown,
  s.help ++ ((s.usual.map fun p => " [default: " ++ p.text ++ "]").getD ""))

/-- Rows of two columns, the second of which begins in the same place in all of them. -/
def table (rows : List (String × String)) : List String :=
  rows.map fun (left, right) => "  " ++ padded (widest (rows.map Prod.fst)) left ++ "  " ++ right

/-- The help text of a command. -/
def helpText (v : Verb) : String :=
  let arguments := match v.operand? with
    | some o => ["Arguments:"] ++ table [(o.shown, o.help)] ++ [""]
    | none => []
  lines ([v.about, "", "Usage: " ++ v.usage, ""] ++ arguments ++
    ["Options:"] ++ table (v.switches.map switchRow ++ [("-h, --help", "Print help")]))

end Verb

def strong (color : Console.Color) (s : String) : String := bold (paint color s)

/-- A row of the overview: a text that takes up `width` and a remark on it. -/
def remark (width : Nat) (plain painted right : String) : String :=
  "  " ++ painted ++ String.ofList (List.replicate (width - plain.length) ' ') ++ "  # " ++
    strong .brightBlack right

def shortSuffix (v : Verb) : String := (v.short?.map fun s => " [" ++ s ++ "]").getD ""

def verbRows : List String :=
  let width := widest (Verb.all.map fun v => v.name ++ shortSuffix v)
  Verb.all.map fun v => remark width (v.name ++ shortSuffix v)
    (strong .brightCyan v.name ++ strong .brightBlack (shortSuffix v)) v.about

/-- The common options, with at least 15 columns for their names. -/
def switchRows : List String :=
  Switch.common.map fun s =>
    let (left, right) := Verb.switchRow s
    remark 15 left (strong .brightCyan left) right

def examples : List (String × String) :=
  [("penguinui build app.css", "Print the expanded stylesheet"),
    ("penguinui build app.css --out dist.css", "Write it to a file"),
    ("penguinui add https://example.com/button.json", "Install a package"),
    ("penguinui list", "List installed packages"),
    ("penguinui remove button", "Remove a package"),
    ("penguinui generate styles/ --out penguinui", "Generate packages")]

/-- A command line in colours: the program's name stands out, and its options stand back. -/
def painted (line : String) : String :=
  match Text.wordsOf line with
  | [] => ""
  | first :: rest =>
    " ".intercalate (strong .brightCyan first :: rest.map fun word =>
      if word.toList.head? = some '-' then strong .brightBlack word else paint .brightWhite word)

def exampleRows : List String :=
  examples.map fun (line, right) => remark (widest (examples.map Prod.fst)) line (painted line) right

/-- The overview of all commands. -/
def overview : String :=
  let heading (s : String) : String := strong .brightMagenta s
  lines ([strong .brightWhite description,
    strong .brightWhite "Version:" ++ " " ++ strong .brightBlack version, "",
    heading "Usage:",
    "  " ++ " ".intercalate [strong .brightCyan program, paint .brightWhite "<COMMAND>",
      strong .brightBlack "<OPTIONS>", strong .brightBlack "[ARGS]"], "",
    heading "Commands:"] ++ verbRows ++ ["", heading "Options:"] ++ switchRows ++
    ["", heading "Examples:"] ++ exampleRows ++ ["",
    paint .brightMagenta "For more information about a specific command, use:",
    "  " ++ " ".intercalate [strong .brightCyan program, paint .brightWhite "help",
      strong .brightBlack "<command>"], "",
    "Visit " ++ underline (paint .brightCyan homePage) ++ " for more information"])

/-- The answer to a request for help. A topic that is no command gets the overview. -/
def helpOn : Option String → String
  | none => overview
  | some topic =>
    (match Verb.ofWord? topic with
      | some v => v.helpText
      | none => strong .brightRed "Error" ++ ": Unknown command '" ++ topic ++ "'\n\n" ++ overview)
      ++ "\n"

end StylePack.Command
