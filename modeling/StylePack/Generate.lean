import StylePack.Extract
import StylePack.Css.Sheet.Text
import StylePack.Store.Upkeep

/-! Making packages from the class rules of stylesheets on the disk. -/
namespace StylePack.Generate
open StylePack.Action (say sayAll attempt answer)

def isStylesheet (p : Path) : Bool := p.hasExtension Text.sameName "css"

mutual

/-- The stylesheets in an entry with this path; those in a folder go by the order of names. They are
found by going down the entry: no path is followed to them, so none is too long to find one, though
it may be too long to read it. -/
def stylesheets (p : Path) : Entry → List Path
  | .file _ => if isStylesheet p then [p] else []
  | .folder entries =>
    ((stylesheetsByName p entries).mergeSort fun a b => decide (a.1 ≤ b.1)).flatMap (·.2)

/-- The stylesheets in each entry of a folder, with the entry's name. -/
def stylesheetsByName (p : Path) : List (String × Entry) → List (String × List Path)
  | [] => []
  | (name, e) :: entries => (name, stylesheets (p.join ⟨name⟩) e) :: stylesheetsByName p entries

end

/-- The stylesheets that some paths name: files as they are, folders with all that lies below.
A path that leads to nothing is passed over. -/
def collect (d : Disk) (paths : List Path) : List Path :=
  paths.flatMap fun p => ((d.entry? p).map (stylesheets p)).getD []

/-- Adds the packages of one stylesheet to those of the stylesheets before it. -/
def addFile (debug : Bool) (packages : OrderedMap String Descriptor) (file : Path) :
    Action (OrderedMap String Descriptor) := do
  let css ← answer (fun why => .stylesheet file.text why.message) ((← Action.disk).readText file)
  let found := extract (Css.Sheet.parse css)
  sayAll (Console.debug debug (file.text ++ ": " ++ toString found.length ++ " packages"))
  return packages.insertAll (found.map fun p => (p.name, p))

def writePackage (out : Path) (p : Descriptor) : Action Path := do
  say (.status ("Writing " ++ p.name))
  attempt (fun problem => .disk problem.message) (Store.write · out p)

/-- Writes a package for every class of the stylesheets that some paths name, and gives the files.
Of packages of one name the last counts. Nothing is written before all stylesheets are read. -/
def generate (paths : List Path) (out : Path) (debug : Bool) : Action (List Path) := do
  let files := collect (← Action.disk) paths
  if files.isEmpty then throw .noStylesheets
  let packages ← files.foldlM (addFile debug) .empty
  if packages.isEmpty then throw .nothingGenerated
  let written ← packages.values.mapM (writePackage out)
  say (.finish ("Generated " ++ toString written.length ++ " packages from " ++
    toString files.length ++ " files into " ++ out.text))
  return written

example : [isStylesheet ⟨"a/b.CSS"⟩, isStylesheet ⟨".css"⟩, isStylesheet ⟨"a.css.txt"⟩] =
    [true, false, false] := by decide +kernel

end StylePack.Generate
