import StylePack.Console

/-! The ways in which a command fails, with the text, the log line and the exit code of each. -/
namespace StylePack

inductive Failure
  | packageNotFound (name : String)
  | invalidPackageName (name : String)
  | invalidDescriptor (reason : String)
  | downloadFailed (url reason : String)
  | network (message : String)
  /-- The file system refused something. -/
  | disk (message : String)
  | stylesheet (path message : String)
  | noStylesheets
  | nothingGenerated
  | missingArgument (what : String)
  deriving DecidableEq, Repr

namespace Failure

def message : Failure → String
  | packageNotFound name => "Package '" ++ name ++ "' not found"
  | invalidPackageName name => "Invalid package name '" ++ name ++ "'"
  | invalidDescriptor reason => "Invalid package descriptor: " ++ reason
  | downloadFailed url reason => "Failed to download " ++ url ++ ": " ++ reason
  | network message => "Network error: " ++ message
  | disk message => "IO error: " ++ message
  | stylesheet path message => "Failed to process stylesheet " ++ path ++ ": " ++ message
  | noStylesheets => "No CSS files found."
  | nothingGenerated => "No class rules with declarations found in any CSS file."
  | missingArgument what => "Missing " ++ what

/-- The exit code of a command that fails. -/
def exitCode : Failure → Nat
  | noStylesheets => 2
  | nothingGenerated => 3
  | _ => 1

/-- How a failure is logged: to find nothing to generate is no more than a warning. -/
def level : Failure → Console.Level
  | nothingGenerated => .warning
  | _ => .error

def event (f : Failure) : Console.Event := .log f.level f.message

/-- The log line and the exit code for any error; one without a kind of its own is only a text. -/
def report : Failure ⊕ String → Console.Event × Nat
  | .inl failure => (failure.event, failure.exitCode)
  | .inr text => (.log .error text, 1)

end Failure
end StylePack
