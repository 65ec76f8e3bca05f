import StylePack.Disk.Access
import StylePack.Package.Json
import StylePack.Package.Table

/-! The folder in which a project keeps its packages, one descriptor to a file. A package is filed
under its name. -/
namespace StylePack.Store
open Package (isValidName)

/-- Where packages are kept if nothing else is said. -/
def defaultFolder : Path := ⟨"penguinui"⟩

/-- Where a project keeps its packages. -/
def folderOf (project : Path) : Path := project.join defaultFolder

/-- How the names of descriptor files end. -/
def ending : List Char := ".json".toList

/-- The file of a package. -/
def pathOf (folder : Path) (name : String) : Path := folder.join ⟨name ++ String.ofList ending⟩

/-- A file's name without the ending of descriptor files. -/
def stem? (fileName : String) : Option String :=
  let cs := fileName.toList
  if ending.isSuffixOf cs then some (String.ofList (cs.take (cs.length - ending.length))) else none

/-- The descriptor in a file, or nothing if the file holds none. -/
def read (d : Disk) (p : Path) : Except Refusal (Option Descriptor) :=
  (d.readText p).map Descriptor.ofJson?

/-- The package in an entry of a packages folder; most entries may be something else. -/
def package? (folder : Path) (fileName : String) (e : Entry) : Option Package := do
  let _ ← stem? fileName
  let d ← Descriptor.ofJson? (← e.text?)
  pure (d.toPackage (folder.join ⟨fileName⟩))

/-- The packages among the entries of a folder. The entries are at hand: no path is followed to a
file, so none is too long to read one. -/
def tableOf (folder : Path) (entries : List (String × Entry)) : PackageTable :=
  (entries.filterMap fun (name, e) => package? folder name e).foldl .insert .empty

/-- The packages in a folder; a folder that is not there has none. -/
def load (d : Disk) (folder : Path) : PackageTable :=
  match d.readFolder folder with
  | .ok entries => tableOf folder entries
  | .error _ => .empty

/-- Why a descriptor is not written. -/
inductive Problem
  | invalidName
  | refused (why : Refusal)
  deriving DecidableEq, Repr

def Problem.message : Problem → String
  | invalidName => Descriptor.Defect.invalidName.message
  | refused why => why.message

/-- Writes a descriptor to the file of its name. The folder is made if it is missing, but not for
a name that could lead out of it. -/
def write (d : Disk) (folder : Path) (p : Descriptor) : Except Problem Path × Disk :=
  if !isValidName p.name then (.error .invalidName, d)
  else match d.makeAll folder with
    | (.error r, d) => (.error (.refused r), d)
    | (.ok (), d) =>
      match d.writeFile (pathOf folder p.name) p.toJson.toUTF8 with
      | .ok d => (.ok (pathOf folder p.name), d)
      | .error r => (.error (.refused r), d)

/-- A line of the list of installed packages. -/
structure Installed where
  name : String
  bytes : Nat
  deriving DecidableEq, Repr

/-- The descriptor files among some entries, in the order of the files' names. As the entries are at
hand, the paths of the files may be of any length. -/
def listing (entries : List (String × Entry)) : List Installed :=
  (entries.mergeSort fun a b => decide (a.1 ≤ b.1)).filterMap fun (name, e) =>
    (stem? name).map (⟨·, e.size⟩)

/-- The descriptor files in a folder, if there is such a folder. -/
def installed (d : Disk) (folder : Path) : Except Refusal (Option (List Installed)) :=
  match d.entry? folder with
  | none => .ok none
  | some _ => (d.readFolder folder).map fun entries => some (listing entries)

example : pathOf (folderOf ⟨"/proj"⟩) "btn" = ⟨"/proj/penguinui/btn.json"⟩ := by decide

example : (stem? "a.b.json", stem? ".json", stem? "a.JSON") = (some "a.b", some "", none) := by
  decide

end StylePack.Store
