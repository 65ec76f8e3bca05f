import StylePack.Disk
import StylePack.Disk.Refusal
import StylePack.Path

/-! How a path is followed: piece by piece, an absolute one from the root folder on and any other
one from the folder that the program works in. -/
namespace StylePack

namespace Disk
open OrderedMap (lookup)

def longestPath : Nat := 4095

def longestName : Nat := 255

/-- The texts between the slashes of a path that can be followed at all. An absolute path begins
with an empty one. -/
def route (p : Path) : Except Refusal (List String) :=
  if p.text.toList.contains '\x00' then .error .nulInPath
  else if p.text.utf8ByteSize > longestPath then .error .nameTooLong
  else if p.text.isEmpty then .error .notFound
  else .ok ((Text.splitWhere (· == '/') p.text.toList).map String.ofList)

/-- What the folder at a location holds. -/
def entriesAt (d : Disk) (l : Location) : Except Refusal (List (String × Entry)) :=
  match d.root.find? l with
  | some (.folder entries) => .ok entries
  | some (.file _) => .error .notFolder
  | none => .error .notFound

/-- One step from a folder: an empty piece and `.` stay in it, `..` goes to the folder around it,
and a name goes to an entry. Around the root folder there is no other one, so `..` stays there. -/
def step (d : Disk) (l : Location) (piece : String) : Except Refusal Location := do
  let entries ← d.entriesAt l
  if piece = "" ∨ piece = "." then pure l
  else if piece = ".." then pure l.dropLast
  else if piece.utf8ByteSize > longestName then throw .nameTooLong
  else if (lookup piece entries).isNone then throw .notFound
  else pure (l ++ [piece])

/-- Where a path starts. -/
def start (d : Disk) (p : Path) : Location := if p.isAbsolute then [] else d.work

/-- Where pieces lead to from a location on. -/
def walk (d : Disk) (l : Location) (pieces : List String) : Except Refusal Location :=
  pieces.foldlM d.step l

/-- The location of what a path names. -/
def locate (d : Disk) (p : Path) : Except Refusal Location := do d.walk (d.start p) (← route p)

/-- A folder and a name in it. -/
structure Place where
  folder : Location
  name : String
  deriving DecidableEq, Repr

/-- The place that pieces name from a location on, whether something is there or not. They may end
in empty pieces, and the folder has to be there. -/
def place (d : Disk) (l : Location) (pieces : List String) : Except Refusal Place := do
  let pieces := (pieces.reverse.dropWhile (·.isEmpty)).reverse
  let folder ← d.walk l pieces.dropLast
  let _ ← d.entriesAt folder
  pure ⟨folder, pieces.getLast?.getD "."⟩

/-- What is at a place. The names `.` and `..` stand for folders that are always there. -/
def found (d : Disk) (p : Place) : Except Refusal (Option Entry) :=
  if p.name = "." ∨ p.name = ".." then .ok (some (.folder []))
  else if p.name.utf8ByteSize > longestName then .error .nameTooLong
  else .ok (d.root.find? (p.folder ++ [p.name]))

end Disk
end StylePack
