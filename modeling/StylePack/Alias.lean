import StylePack.OrderedMap

/-! Aliases of packages within one stylesheet. The first binding of an alias stays. -/
namespace StylePack

structure AliasTable where
  bindings : OrderedMap String String
  deriving DecidableEq, Repr, Inhabited

namespace AliasTable

def empty : AliasTable := ⟨.empty⟩

/-- What came of binding an alias. -/
inductive Registration
  | added
  /-- The alias was bound to the same package before. -/
  | unchanged
  /-- The alias was bound to another package before, which it keeps. -/
  | conflict (existing : String)
  deriving DecidableEq, Repr

def get? (t : AliasTable) (name : String) : Option String := t.bindings.get? name

def size (t : AliasTable) : Nat := t.bindings.size

/-- The package that a word refers to: the one it is bound to, or else the one of that name. -/
def resolve (t : AliasTable) (word : String) : String := (t.get? word).getD word

def register (t : AliasTable) (name package : String) : AliasTable × Registration :=
  match t.get? name with
  | none => (⟨t.bindings.insert name package⟩, .added)
  | some existing => (t, if existing = package then .unchanged else .conflict existing)

@[simp] theorem get?_empty (name : String) : empty.get? name = none := rfl

theorem get?_register (t : AliasTable) (name package word : String) :
    (t.register name package).1.get? word =
      if word = name then some ((t.get? name).getD package) else t.get? word := by
  unfold register
  cases h : t.get? name with
  | none => exact t.bindings.get?_insert name word package
  | some existing => by_cases hw : word = name <;> simp [hw, h]

end AliasTable
end StylePack
