import StylePack.Text.Blank

/-! File paths: text with `/` between the parts. What a path names depends on its parts only; the
text is kept because it is shown to the user. -/
namespace StylePack

structure Path where
  text : String
  deriving DecidableEq, Repr, Inhabited

namespace Path

inductive Part
  /-- The `/` that an absolute path begins with. -/
  | root
  /-- A `.` that a relative path begins with. -/
  | current
  | parent
  | name (text : String)
  deriving DecidableEq, Repr

def isAbsolute (p : Path) : Bool := p.text.toList.head? = some '/'

/-- The part that a piece between two slashes stands for; empty pieces and `.` stand for none. -/
def partOfPiece (piece : List Char) : Option Part :=
  if piece = [] ∨ piece = ['.'] then none
  else if piece = ['.', '.'] then some .parent
  else some (.name (String.ofList piece))

/-- The parts of a path. -/
def parts (p : Path) : List Part :=
  let pieces := Text.splitWhere (· == '/') p.text.toList
  let front := if p.isAbsolute then [.root] else if pieces.head? = some ['.'] then [.current] else []
  front ++ pieces.filterMap partOfPiece

/-- One path below another; an absolute path is not moved. -/
def join (base p : Path) : Path :=
  if p.isAbsolute ∨ base.text.isEmpty then p
  else if base.text.toList.getLast? = some '/' then ⟨base.text ++ p.text⟩
  else ⟨base.text ++ "/" ++ p.text⟩

/-- The last part of a path, if it is a name. -/
def fileName? (p : Path) : Option String :=
  match p.parts.getLast? with
  | some (.name text) => some text
  | _ => none

/-- A path with the given parts. -/
def ofParts : List Part → Path
  | [] => ⟨""⟩
  | .root :: ps => ⟨"/" ++ (ofParts ps).text⟩
  | p :: ps =>
    let text := match p with
      | .name t => t
      | .parent => ".."
      | _ => "."
    if ps.isEmpty then ⟨text⟩ else ⟨text ++ "/" ++ (ofParts ps).text⟩

/-- A path without its last part; the empty path and `/` have no parent. -/
def parent? (p : Path) : Option Path :=
  match p.parts.getLast? with
  | none => none
  | some .root => none
  | some _ => some (ofParts p.parts.dropLast)

/-- The folders around a path whose parts are given from the last one on, the innermost first. -/
def aroundParts : List Part → List Path
  | [] => []
  | _ :: ps => ofParts ps.reverse :: aroundParts ps

/-- The folders around a path, the innermost first. -/
def around (p : Path) : List Path := aroundParts p.parts.reverse

/-- What follows the last point of a name; a point that the name begins with does not count. -/
def extension? (p : Path) : Option String :=
  match p.fileName? with
  | none => none
  | some name =>
    match Text.splitLast '.' name.toList with
    | some (stem, extension) => if stem.isEmpty then none else some (String.ofList extension)
    | none => none

/-- Whether a path has an extension, in letters of either case. -/
def hasExtension (fold : String → String → Bool) (p : Path) (extension : String) : Bool :=
  p.extension?.any (fold · extension)

example : (Path.mk "./a//b/../c.d").parts = [.current, .name "a", .name "b", .parent, .name "c.d"] := by
  decide

example : (join ⟨"a/"⟩ ⟨"b"⟩, join ⟨""⟩ ⟨"b"⟩, join ⟨"a"⟩ ⟨"/b"⟩) = (⟨"a/b"⟩, ⟨"b"⟩, ⟨"/b"⟩) := by
  decide

example : ((Path.mk "s/x.css/").extension?, (Path.mk ".css").extension?) = (some "css", none) := by
  decide

example : ((Path.mk "a/./b").parent?, (Path.mk "b").parent?, (Path.mk "/").parent?) =
    (some ⟨"a"⟩, some ⟨""⟩, none) := by decide

example : (Path.mk "a//b/c").around = [⟨"a/b"⟩, ⟨"a"⟩, ⟨""⟩] := by decide

end Path
end StylePack
