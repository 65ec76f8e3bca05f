import StylePack.Command.Run

/-! The program: it takes up the files that a command line is about, runs the command on them, and
puts down what changed. It has no connection to the web. -/
namespace StylePack.Main

/-- A way down from a folder, and whether all that lies below its end is wanted. -/
structure Way where
  location : Location
  whole : Bool

/-- What is left of a way behind the first name on it. -/
def Way.into? (w : Way) (name : String) : Option Way :=
  match w.location with
  | [] => if w.whole then some w else none
  | first :: l => if first = name then some { w with location := l } else none

/-- Where a part of a path leads to. -/
def follow (l : Location) : Path.Part → Location
  | .root => []
  | .current => l
  | .parent => l.dropLast
  | .name name => l ++ [name]

/-- The ways from the root folder that a path leads through, and the one to its end. -/
def ways (work : Location) (p : Path) : List Way :=
  ⟨p.parts.foldl follow work, true⟩ :: (p.parts.scanl follow work).map (⟨·, false⟩)

/-- What some ways lead to. Links are left out. -/
partial def takeUp (e : IO.FS.DirEntry) (ws : List Way) : IO (Option Entry) := do
  match (← e.path.symlinkMetadata).type with
  | .dir =>
    let mut entries := []
    for inner in ← e.path.readDir do
      let below := ws.filterMap (·.into? inner.fileName)
      if !below.isEmpty then
        if let some entry ← takeUp inner below then entries := (inner.fileName, entry) :: entries
    return some (.folder entries.reverse)
  | .file => return some (.file (← IO.FS.readBinFile e.path))
  | _ => return none

/-- The part of the disk that some paths are about. -/
def takeUpFor (paths : List Path) : IO Disk := do
  let work := (← IO.currentDir).components.filter (· ≠ "")
  let root ← takeUp ⟨"/", ""⟩ (paths.flatMap (ways work))
  return ⟨root.getD default, work⟩

/-- Writes what is new or changed, and removes the files that are gone. -/
def putDown (old new : Disk) : IO Unit := do
  let pathOf (l : Location) := "/" ++ "/".intercalate l
  for (l, e) in new.root.listing do
    match e, old.root.find? l with
    | .folder _, some (.folder _) => pure ()
    | .folder _, _ => IO.FS.createDirAll (pathOf l)
    | .file bytes, some (.file before) =>
      if bytes != before then IO.FS.writeBinFile (pathOf l) bytes
    | .file bytes, _ => IO.FS.writeBinFile (pathOf l) bytes
  for (l, e) in old.root.listing do
    if !e.isFolder && (new.root.find? l).isNone then IO.FS.removeFile (pathOf l)

end StylePack.Main

open StylePack
/-- Runs the command line. -/
def main (arguments : List String) : IO UInt32 := do
  let start ← IO.monoMsNow
  let paths := ((Invocation.command? arguments).map Command.paths).getD []
  let old ← Main.takeUpFor paths
  let interactive ← (← IO.getStdout).isTty
  let colored := interactive || (← IO.getEnv "FORCE_COLOR") == some "1"
  let r := run ⟨Exchange.unanswered, colored, interactive⟩ arguments old
  Main.putDown old r.disk
  let output := r.output (Console.duration ((← IO.monoMsNow) - start))
  IO.print output.out
  IO.eprint output.err
  return UInt32.ofNat r.exitCode
