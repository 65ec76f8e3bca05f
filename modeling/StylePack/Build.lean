import StylePack.Store.Upkeep
import StylePack.Transform

/-! Building a stylesheet: it is read, its directives are expanded with the packages of a folder,
and the result is written to a file or printed. -/
namespace StylePack.Build
open StylePack.Action (say sayAll attempt answer)

/-- Where packages come from, and whether directives still under trial are allowed; so far there
are none. -/
structure Options where
  packages : Path := Store.defaultFolder
  experimental : Bool := false
  deriving DecidableEq, Repr

/-- The options for a project that keeps its packages in the usual folder. -/
def Options.ofProject (project : Path) : Options := { packages := Store.folderOf project }

/-- Expands a text with the packages of a folder. -/
def transformWith (d : Disk) (options : Options) (css : String) : String × Report :=
  transformText (Store.load d options.packages) css

/-- How a diagnostic is logged. -/
def event (d : Diagnostic) : Console.Event :=
  .log (match d.severity with
    | .warning => .warning
    | .error => .error) d.message

/-- The text that a stylesheet is expanded to. -/
def expanded (input : Path) (options : Options) (debug : Bool) : Action (String × Report) := do
  let css ← answer (fun why => .stylesheet input.text why.message) ((← Action.disk).readText input)
  sayAll (Console.debug debug ("Loading packages from " ++ options.packages.text))
  if options.experimental then sayAll (Console.debug debug "Experimental directives enabled")
  let (css, report) := transformWith (← Action.disk) options css
  sayAll (report.diagnostics.map event)
  return (css, report)

/-- What was built, in one line; it is a warning if there were problems. -/
def summary (input : Path) (out : Option Path) (r : Report) : Console.Event :=
  let target := (out.map Path.text).getD "stdout"
  let message := "Built " ++ input.text ++ " -> " ++ target ++ " (" ++ toString r.rulesExpanded ++
    " rules expanded, " ++ toString r.warnings ++ " warnings, " ++ toString r.errors ++ " errors)"
  if r.warnings + r.errors = 0 then .finish message else .log .warning message

/-- Writes a text to a file, whose folder is made if it is missing. -/
def writeOut (p : Path) (text : String) : Action Unit :=
  attempt (fun (why : Refusal) => .disk why.message) fun d =>
    match (p.parent?.map d.makeAll).getD (.ok (), d) with
    | (.error why, d) => (.error why, d)
    | (.ok (), d) =>
      match d.writeFile p text.toUTF8 with
      | .ok d => (.ok (), d)
      | .error why => (.error why, d)

/-- Builds a stylesheet. -/
def build (input : Path) (out : Option Path) (options : Options) (debug : Bool) :
    Action Report := do
  let (css, report) ← expanded input options debug
  match out with
  | some p => writeOut p (css ++ "\n")
  | none => say (.print (css ++ "\n"))
  say (summary input out report)
  return report

end StylePack.Build
