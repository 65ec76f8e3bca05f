import StylePack.Build
import StylePack.Command.Arguments
import StylePack.Command.Help
import StylePack.Download
import StylePack.Generate

/-! Running a command line from its words to the exit code. Everything a run depends on is given:
the disk, what a request to the web comes to, and what the output goes to. -/
namespace StylePack
open Console (Event Output Settings paint)

namespace Command

/-- A line that tells which command is at work on what, with an empty line after it. -/
def banner (v : Verb) (subject : String) : Event :=
  .announce (" ".intercalate [strong .brightCyan program, paint .brightWhite v.name,
    paint .brightWhite subject] ++ "\n\n")

/-- What a command does. -/
def action (request : String → Exchange) : Command → Action Unit
  | build input out packages experimental debug => do
    let _ ← Build.build input out ⟨packages, experimental⟩ debug
  | add url packages debug => do
    Action.say (banner .add url)
    let _ ← Download.add packages url (request url) debug
  | list packages => Store.list packages
  | remove none _ => throw (.missingArgument "package name to remove")
  | remove (some name) packages => do
    Action.say (banner .remove name)
    let _ ← Store.remove packages name
  | generate paths out debug => do
    let _ ← Generate.generate paths out debug
  | help topic => Action.say (.print (helpOn topic))

end Command

/-- What a run of the program depends on besides its arguments and the disk. -/
structure Surroundings where
  /-- What a request to an address comes to. -/
  request : String → Exchange
  colored : Bool
  /-- Whether the output goes to a terminal. -/
  interactive : Bool

/-- How a run ended, what it said, and the disk after it. -/
structure Run where
  exitCode : Nat
  settings : Settings
  said : List Event
  disk : Disk

namespace Run

/-- What is written, if the run took this time. -/
def output (r : Run) (elapsed : String) : Output := Console.renderAll r.settings elapsed r.said

end Run

/-- Runs a command line. -/
def run (env : Surroundings) (arguments : List String) (d : Disk) : Run :=
  let settings : Settings := ⟨false, env.colored, env.interactive⟩
  match Invocation.ofArguments arguments with
  | .error (.version of) => ⟨0, settings, [.print (Command.versionLine of)], d⟩
  | .error (.misuse m) => ⟨2, settings, [.announce ("error: " ++ m.message ++ "\n")], d⟩
  | .ok invocation =>
    let command := invocation.command.getD (.help none)
    let (result, session) := (command.action env.request).perform d
    let (ending, exitCode) := match result with
      | .ok _ => ([], 0)
      | .error failure =>
        let (event, code) := Failure.report (.inl failure)
        ([event], code)
    ⟨exitCode, { settings with quiet := invocation.quiet }, session.said ++ ending, session.disk⟩

end StylePack
