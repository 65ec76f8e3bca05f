import StylePack.OrderedMap

/-! Files and folders, and where among them a program works. A location is the list of names that
lead to an entry from the root folder on; the empty one is the root folder itself. -/
namespace StylePack
open OrderedMap (lookup write)

inductive Entry
  | file (bytes : ByteArray)
  /-- A folder holds entries by name, in the order in which they are listed. -/
  | folder (entries : List (String × Entry))

abbrev Location := List String

namespace Entry

instance : Inhabited Entry := ⟨folder []⟩

def isFolder : Entry → Bool
  | folder _ => true
  | file _ => false

/-- The text of a file, if it is UTF-8. -/
def text? : Entry → Option String
  | file bytes => String.fromUTF8? bytes
  | folder _ => none

/-- How much room an entry takes; a folder takes one block, whatever it holds. -/
def size : Entry → Nat
  | file bytes => bytes.size
  | folder _ => 4096

/-- The entry at a location. -/
def find? : Entry → Location → Option Entry
  | e, [] => some e
  | file _, _ :: _ => none
  | folder entries, name :: l => (lookup name entries).bind (·.find? l)

/-- Changes what the folder at a location holds. -/
def edit (change : List (String × Entry) → List (String × Entry)) : Entry → Location → Entry
  | file bytes, _ => file bytes
  | folder entries, [] => folder (change entries)
  | folder entries, name :: l =>
    match lookup name entries with
    | some e => folder (write name (edit change e l) entries)
    | none => folder entries

/-- Puts an entry into the folder at a location. An entry of the same name is replaced. -/
def put (e : Entry) (l : Location) (name : String) (new : Entry) : Entry :=
  e.edit (write name new) l

/-- Takes an entry out of the folder at a location. -/
def take (e : Entry) (l : Location) (name : String) : Entry :=
  e.edit (·.filter (·.1 ≠ name)) l

mutual

/-- All that lies below an entry, with its location; a folder comes before what it holds. -/
def listing : Entry → List (Location × Entry)
  | file _ => []
  | folder entries => listingAll entries

def listingAll : List (String × Entry) → List (Location × Entry)
  | [] => []
  | (name, e) :: entries =>
    ([name], e) :: e.listing.map (fun (l, f) => (name :: l, f)) ++ listingAll entries

end

@[simp] theorem find?_nil (e : Entry) : e.find? [] = some e := by cases e <;> rfl

@[simp] theorem find?_file_cons (bytes : ByteArray) (name : String) (l : Location) :
    (file bytes).find? (name :: l) = none := rfl

@[simp] theorem find?_folder_cons (entries : List (String × Entry)) (name : String)
    (l : Location) :
    (folder entries).find? (name :: l) = (lookup name entries).bind (·.find? l) := rfl

/-- To go to a location is to go its parts one after another. -/
theorem find?_append (e : Entry) (k l : Location) :
    e.find? (k ++ l) = (e.find? k).bind (·.find? l) := by
  induction k generalizing e with
  | nil => simp
  | cons name k ih =>
    cases e with
    | file bytes => rfl
    | folder entries => cases h : lookup name entries <;> simp [h, ih]

/-- An edit changes the folder at its location. -/
theorem find?_edit_self (change : List (String × Entry) → List (String × Entry)) {e : Entry}
    {l : Location} {entries : List (String × Entry)} (h : e.find? l = some (folder entries)) :
    (e.edit change l).find? l = some (folder (change entries)) := by
  induction l generalizing e with
  | nil => simp_all [edit]
  | cons name l ih =>
    cases e with
    | file bytes => simp at h
    | folder es =>
      cases hn : lookup name es with
      | none => simp [hn] at h
      | some f =>
        have hf : f.find? l = some (folder entries) := by simpa [hn] using h
        simp [edit, hn, OrderedMap.lookup_write_self, ih hf]

theorem lookup_filter_ne (name : String) (entries : List (String × Entry)) :
    lookup name (entries.filter (·.1 ≠ name)) = none := by
  induction entries with
  | nil => rfl
  | cons e es ih => by_cases h : e.1 = name <;> simp_all [lookup]

/-- What is put somewhere is found there. -/
theorem find?_put_self {e : Entry} {l : Location} {entries : List (String × Entry)}
    (h : e.find? l = some (folder entries)) (name : String) (new : Entry) :
    (e.put l name new).find? (l ++ [name]) = some new := by
  simp [put, find?_append, find?_edit_self _ h, OrderedMap.lookup_write_self]

/-- What is taken out is gone. -/
theorem find?_take_self {e : Entry} {l : Location} {entries : List (String × Entry)}
    (h : e.find? l = some (folder entries)) (name : String) :
    (e.take l name).find? (l ++ [name]) = none := by
  simp only [take, find?_append, find?_edit_self _ h, Option.bind_some, find?_folder_cons,
    lookup_filter_ne, Option.bind_none]

end Entry

/-- A disk: the root folder with all that lies below it, and the location of the folder that the
program works in. -/
structure Disk where
  root : Entry
  work : Location

namespace Disk
variable (d : Disk) (l : Location) (name : String) (new : Entry)

/-- Puts an entry into the folder at a location. The program works where it worked before. -/
def put : Disk := { d with root := d.root.put l name new }

/-- Takes an entry out of the folder at a location. -/
def take : Disk := { d with root := d.root.take l name }

@[simp] theorem root_put : (d.put l name new).root = d.root.put l name new := rfl

@[simp] theorem work_put : (d.put l name new).work = d.work := rfl

@[simp] theorem root_take : (d.take l name).root = d.root.take l name := rfl

@[simp] theorem work_take : (d.take l name).work = d.work := rfl

end Disk

end StylePack
