import StylePack.Disk.Walk

/-! Reading, writing and removing by path. What changes a disk answers with the disk after it, or
says why it was refused. -/
namespace StylePack.Disk

/-- What a path names. -/
def entry? (d : Disk) (p : Path) : Option Entry :=
  match d.locate p with
  | .ok l => d.root.find? l
  | .error _ => none

def isFile (d : Disk) (p : Path) : Bool := (d.entry? p).any (!·.isFolder)

def isFolder (d : Disk) (p : Path) : Bool := (d.entry? p).any (·.isFolder)

/-- The text of a file. -/
def readText (d : Disk) (p : Path) : Except Refusal String := do
  match d.root.find? (← d.locate p) with
  | some (.file bytes) =>
    match String.fromUTF8? bytes with
    | some text => pure text
    | none => throw .notText
  | some (.folder _) => throw .isFolder
  | none => throw .notFound

/-- What a folder holds. -/
def readFolder (d : Disk) (p : Path) : Except Refusal (List (String × Entry)) := do
  d.entriesAt (← d.locate p)

/-- Writes a file. One that is there is replaced; the folder around it has to be there. -/
def writeFile (d : Disk) (p : Path) (bytes : ByteArray) : Except Refusal Disk := do
  let pieces ← route p
  let target ← d.place (d.start p) pieces
  if pieces.getLast? = some "" then throw .isFolder
  match ← d.found target with
  | some (.folder _) => throw .isFolder
  | _ => pure (d.put target.folder target.name (.file bytes))

/-- Makes a folder; the folder around it has to be there. -/
def makeFolder (d : Disk) (p : Path) : Except Refusal Disk := do
  let target ← d.place (d.start p) (← route p)
  match ← d.found target with
  | some _ => throw .alreadyThere
  | none => pure (d.put target.folder target.name (.folder []))

/-- Makes the folder that comes first in a list of paths, where each lies in the folder after it,
and before that, where they are missing, the folders it lies in. -/
def makeFolders (d : Disk) : List Path → Except Refusal Unit × Disk
  | [] => (.ok (), d)
  | p :: outer =>
    match d.makeFolder p with
    | .ok d => (.ok (), d)
    | .error .notFound =>
      match d.makeFolders outer with
      | (.error r, d) => (.error r, d)
      | (.ok (), d) =>
        match d.makeFolder p with
        | .ok d => (.ok (), d)
        | .error r => (if d.isFolder p then .ok () else .error r, d)
    | .error r => (if d.isFolder p then .ok () else .error r, d)

/-- Makes a folder and all folders around it that are missing. What was made stays, even if the
rest is refused. The working folder, whose path is empty, is always there. -/
def makeAll (d : Disk) (p : Path) : Except Refusal Unit × Disk :=
  d.makeFolders ((p :: p.around).filter (!·.text.isEmpty))

/-- Removes a file. -/
def removeFile (d : Disk) (p : Path) : Except Refusal Disk := do
  let l ← d.locate p
  match d.root.find? l, l.getLast? with
  | some (.file _), some name => pure (d.take l.dropLast name)
  | some _, _ => throw .isFolder
  | none, _ => throw .notFound

example : ["a/c", "/a", "../../b"].map (fun p =>
    (makeAll ⟨.folder [("w", .folder [])], ["w"]⟩ ⟨p⟩).2.root.listing.map Prod.fst) =
    [[["w"], ["w", "a"], ["w", "a", "c"]], [["w"], ["a"]], [["w"], ["b"]]] := by decide +kernel

example : ["../b/t.css", "b/./t.css", "/b/../../t.css", "t.css/"].map (fun p =>
    (readText ⟨.folder [("b", .folder [("t.css", .file .empty)]), ("t.css", .file .empty)],
      ["b"]⟩ ⟨p⟩).toOption) = [some "", none, some "", none] := by decide +kernel

end StylePack.Disk
