import StylePack.Package.Descriptor

/-! The packages that are at hand while a stylesheet is expanded, by name. -/
namespace StylePack

structure PackageTable where
  packages : OrderedMap String Package
  deriving DecidableEq, Repr, Inhabited

namespace PackageTable

def empty : PackageTable := ⟨.empty⟩

/-- Adds a package; one of the same name is replaced. -/
def insert (t : PackageTable) (p : Package) : PackageTable := ⟨t.packages.insert p.name p⟩

def get? (t : PackageTable) (name : String) : Option Package := t.packages.get? name

def contains (t : PackageTable) (name : String) : Bool := t.packages.contains name

def size (t : PackageTable) : Nat := t.packages.size

/-- The names of the packages, sorted. -/
def names (t : PackageTable) : List String := t.packages.keys.mergeSort fun a b => decide (a ≤ b)

/-- The packages, sorted by name. -/
def sorted (t : PackageTable) : List Package := t.names.filterMap t.get?

/-- The table of packages that come from no file. -/
def ofDescriptors (ds : List Descriptor) : PackageTable :=
  ds.foldl (fun t d => t.insert (d.toPackage none)) empty

theorem contains_eq (t : PackageTable) (name : String) :
    t.contains name = (t.get? name).isSome := rfl

end PackageTable
end StylePack
