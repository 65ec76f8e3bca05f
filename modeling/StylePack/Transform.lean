import StylePack.Css.Sheet.Text
import StylePack.Directive

/-! The expansion of a whole stylesheet: first every `@package`, then every `@use`, so that an
alias may be bound anywhere in the document. -/
namespace StylePack
open Css

/-- What the expansion of a stylesheet came to. -/
@[ext] structure Report where
  diagnostics : List Diagnostic
  packagesLoaded : Nat
  aliasesRegistered : Nat
  rulesExpanded : Nat
  deriving DecidableEq, Repr

namespace Report

def warnings (r : Report) : Nat := Diagnostic.count .warning r.diagnostics

def errors (r : Report) : Nat := Diagnostic.count .error r.diagnostics

end Report

namespace Expansion

def start (sheet : Sheet) : Expansion := ⟨sheet, .empty, [], []⟩

/-- Handles the `@package` directives with these numbers. One that went with a directive around
it is passed over. -/
def registerAll (packages : PackageTable) (e : Expansion) (directives : List Nat) : Expansion :=
  directives.foldl
    (fun e i => if e.sheet.isAttached i then e.register packages i else e) e

/-- Handles the `@use` directives with these numbers, and counts those that put a package into a
rule. -/
def expandAll (packages : PackageTable) : Expansion → List Nat → Expansion × Nat
  | e, [] => (e, 0)
  | e, i :: is =>
    if e.sheet.isAttached i then
      let (e, injected) := e.expand packages i
      let (e, n) := expandAll packages e is
      (e, if injected then n + 1 else n)
    else expandAll packages e is

end Expansion

/-- Expands the directives of a sheet. -/
def transform (packages : PackageTable) (sheet : Sheet) : Sheet × Report :=
  let e := (Expansion.start sheet).registerAll packages (sheet.atRules "package")
  let (e, rulesExpanded) := e.expandAll packages (e.sheet.atRules "use")
  (e.sheet, ⟨e.diagnostics, packages.size, e.aliases.size, rulesExpanded⟩)

/-- Expands the directives of a stylesheet's text. -/
def transformText (packages : PackageTable) (css : String) : String × Report :=
  let (sheet, report) := transform packages (Sheet.parse css)
  (sheet.toCss, report)

end StylePack
