import StylePack.Path

/-! Package names that can be the stem of a file's name. -/
namespace StylePack.Package

/-- Whether two points stand side by side in a text. -/
def hasTwoPoints : List Char → Bool
  | '.' :: '.' :: _ => true
  | _ :: r => hasTwoPoints r
  | [] => false

/-- A name is valid if it is one plain part of a path and has neither a separator nor two points
in it. -/
def isValidName (name : String) : Bool :=
  !name.isEmpty && !name.toList.contains '/' && !name.toList.contains '\\'
    && !hasTwoPoints name.toList
    && (match (Path.mk name).parts with
      | [.name _] => true
      | _ => false)

theorem hasTwoPoints_iff (cs : List Char) : hasTwoPoints cs = true ↔ ['.', '.'] <:+: cs := by
  fun_induction hasTwoPoints cs with
  | case1 r => simpa using ⟨[], r, rfl⟩
  | case2 c r hc ih =>
    rw [ih, List.infix_cons_iff]
    refine ⟨Or.inr, fun h => h.resolve_left fun ⟨t, ht⟩ => ?_⟩
    simp only [List.cons_append, List.nil_append, List.cons.injEq] at ht
    exact hc t ht.1.symm ht.2.symm
  | case3 => simp

example : isValidName "card.v2" = true := by decide

example : ["", ".", "..", "a/b", "/abs", "a\\b", "x..y"].map isValidName = List.replicate 7 false := by
  decide

end StylePack.Package
