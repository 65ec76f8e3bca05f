import StylePack.Session
import StylePack.Store

/-! What is done to the installed packages: one is put in, one is taken out, all are listed. -/
namespace StylePack.Store
open StylePack.Action (say attempt answer)

/-- Puts in the package of a descriptor's text, and gives the file it went to. -/
def install (folder : Path) (text : String) : Action Path :=
  match Descriptor.validate text with
  | .error defect => throw (.invalidDescriptor defect.message)
  | .ok p => attempt (fun problem => .disk problem.message) (write · folder p)

/-- Takes out a package, and gives the file it was in. -/
def remove (folder : Path) (name : String) : Action Path := do
  if Text.isBlankText name then throw (.missingArgument "package name to remove")
  if !Package.isValidName name then throw (.invalidPackageName name)
  let file := pathOf folder name
  if !(← Action.disk).isFile file then throw (.packageNotFound name)
  attempt (fun (why : Refusal) => .disk why.message) fun d =>
    match d.removeFile file with
    | .ok d => (.ok (), d)
    | .error why => (.error why, d)
  say (.log .success ("Removed " ++ file.text))
  return file

/-- Lists the installed packages. -/
def list (folder : Path) : Action Unit := do
  match ← answer (fun why => .disk why.message) (installed (← Action.disk) folder) with
  | none => say (.log .warning "No penguinui directory (nothing installed)")
  | some [] => say (.log .warning "No packages installed")
  | some packages => packages.forM fun p => say (.package p.name p.bytes)

end StylePack.Store
