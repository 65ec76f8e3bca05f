import StylePack.Alias
import StylePack.Css.Sheet.Edit
import StylePack.Diagnostic
import StylePack.Package.Table

/-! The two directives of a stylesheet: `@package <name> as <alias>` binds an alias, `@use` puts
the declarations of packages into the rule around it. A directive that was handled is taken out of
the sheet; a problem with it is noted in a comment in front of it. -/
namespace StylePack
open Css

/-- A sheet part way through the expansion of its directives. -/
structure Expansion where
  sheet : Sheet
  aliases : AliasTable
  /-- The rules whose `@use` was met. -/
  used : List Nat
  diagnostics : List Diagnostic

namespace Expansion

/-- The words of a directive. -/
def wordsAt (e : Expansion) (directive : Nat) : List String :=
  Text.wordsOf ((e.sheet.params? directive).getD "")

/-- Takes a directive out of the sheet. -/
def drop (e : Expansion) (directive : Nat) : Expansion :=
  { e with sheet := e.sheet.remove directive }

/-- Reports a problem with a directive and notes it in front of the directive. -/
def report (e : Expansion) (directive : Nat) (d : Diagnostic) : Expansion :=
  { e with
    sheet := match e.sheet.insertBefore directive (.comment d.comment) with
      | some (sheet, _) => sheet
      | none => e.sheet
    diagnostics := e.diagnostics ++ [d] }

/-- Binds the alias of a `@package` directive to a package that is at hand. -/
def bind (e : Expansion) (directive : Nat) (name package : String) : Expansion :=
  let (aliases, registration) := e.aliases.register name package
  let e := { e with aliases := aliases }
  match registration with
  | .conflict existing => e.report directive (.aliasTaken name existing package)
  | _ => e

/-- Handles a `@package` directive. One of another form than `<name> as <alias>` says nothing. -/
def register (packages : PackageTable) (e : Expansion) (directive : Nat) : Expansion :=
  match e.wordsAt directive with
  | [package, keyword, name] =>
    if !Text.sameName keyword "as" then e.drop directive
    else if !packages.contains package then
      (e.report directive (.unknownPackage package)).drop directive
    else (e.bind directive name package).drop directive
  | _ => e.drop directive

/-- Adds declarations at the end of a rule. -/
def addStyles (rule : Nat) : Sheet → List (String × String) → Sheet
  | sheet, [] => sheet
  | sheet, (property, value) :: styles =>
    addStyles rule (sheet.append rule (.declaration ⟨property, value, false⟩)).1 styles

/-- Puts a package's declarations into a rule. -/
def inject (e : Expansion) (rule : Nat) (styles : Styles) : Expansion :=
  { e with sheet := addStyles rule e.sheet styles.entries }

/-- One word of a `@use` directive, and whether it put a package into the rule. -/
def useWord (packages : PackageTable) (rule directive : Nat) (e : Expansion) (word : String) :
    Expansion × Bool :=
  let name := e.aliases.resolve word
  match packages.get? name with
  | some package => (e.inject rule package.styles, true)
  | none => (e.report directive (.unknownInUse name), false)

/-- The words of a `@use` directive in order, and whether one put a package into the rule. -/
def useWords (packages : PackageTable) (rule directive : Nat) (e : Expansion) :
    List String → Expansion × Bool
  | [] => (e, false)
  | word :: words =>
    let (e, injected) := e.useWord packages rule directive word
    let (e, rest) := e.useWords packages rule directive words
    (e, injected || rest)

/-- Handles a `@use` directive and says whether it put a package into a rule. Only the first one
of a rule counts; outside of rules it says nothing. -/
def expand (packages : PackageTable) (e : Expansion) (directive : Nat) : Expansion × Bool :=
  let words := e.wordsAt directive
  match (e.sheet.parent? directive).filter e.sheet.isRule with
  | none => (e.drop directive, false)
  | some rule =>
    if rule ∈ e.used then
      ((e.report directive (.repeatedUse (" ".intercalate words))).drop directive, false)
    else
      let (e, injected) :=
        { e with used := e.used ++ [rule] }.useWords packages rule directive words
      (e.drop directive, injected)

end Expansion
end StylePack
