/-! What can be wrong with the directives of a stylesheet. Each problem is reported to the user
and noted in a comment in the stylesheet. -/
namespace StylePack

inductive Severity
  | warning
  | error
  deriving DecidableEq, Repr

inductive Diagnostic
  /-- `@package` names a package that is not at hand. -/
  | unknownPackage (name : String)
  /-- `@package` binds an alias that is bound to another package. -/
  | aliasTaken (name existing ignored : String)
  /-- `@use` names a package that is not at hand. -/
  | unknownInUse (name : String)
  /-- A rule has a second `@use`. -/
  | repeatedUse (ignored : String)
  deriving DecidableEq, Repr

namespace Diagnostic

def severity : Diagnostic → Severity
  | unknownPackage _ => .error
  | aliasTaken .. => .warning
  | unknownInUse _ => .error
  | repeatedUse _ => .warning

def message : Diagnostic → String
  | unknownPackage name => "Unknown package in @package: '" ++ name ++ "'."
  | aliasTaken name existing ignored =>
    "Alias '" ++ name ++ "' already mapped to '" ++ existing ++ "' (ignored '" ++ ignored ++ "')."
  | unknownInUse name => "Unknown package in @use: '" ++ name ++ "'."
  | repeatedUse ignored => "Multiple @use not allowed in same rule: ignored '" ++ ignored ++ "'."

/-- The problem in the words of the comment that notes it. -/
def note : Diagnostic → String
  | unknownPackage name => "unknown package '" ++ name ++ "'"
  | aliasTaken name existing ignored =>
    "alias '" ++ name ++ "' already mapped to '" ++ existing ++ "' (ignored '" ++ ignored ++ "')"
  | unknownInUse name => "unknown package '" ++ name ++ "' in @use"
  | repeatedUse ignored => "multiple @use not allowed in same rule (ignored '" ++ ignored ++ "')"

/-- The text of the comment that notes the problem. -/
def comment (d : Diagnostic) : String := "penguinui: " ++ d.note

/-- The problem with its severity, as one line. -/
def line (d : Diagnostic) : String :=
  (match d.severity with
    | .warning => "warning: "
    | .error => "error: ") ++ d.message

def count (s : Severity) (ds : List Diagnostic) : Nat := ds.countP (·.severity = s)

end Diagnostic
end StylePack
