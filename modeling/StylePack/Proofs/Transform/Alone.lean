import StylePack.Proofs.Css.Lines
import StylePack.Proofs.Extract
import StylePack.Proofs.Transform.Contents
import StylePack.Proofs.Transform.Totals

/-! A stylesheet of one rule that uses one package by its name: it becomes the package's
declarations, and there is nothing to report. -/
namespace StylePack
open Css Css.Tree ClassName
variable {P : PackageTable} {name : String} {package : Package}

/-- The text of a rule that uses a package. -/
def usingText (name : String) : String := ".x \x7b @use " ++ name ++ "; \x7d"

/-- The content of this text. -/
def usingTrees (name : String) : List (Css.Tree Kind) :=
  [node (.rule ".x") [leaf (.atRule "use" name false)]]

theorem parse_usingText (h : IsClass name) : Tree.parse (usingText name) = usingTrees name := by
  have hrule : (Kind.rule ".x").Tidy false :=
    ⟨⟨⟨by decide, by decide⟩, Tree.not_holdsUrl_of_notMem (by decide), by decide⟩, '.', ['x'], rfl,
      Or.inr (Or.inl rfl)⟩
  have huse : (Kind.atRule "use" name false).Tidy true := by
    refine ⟨by decide, h.neat, fun hi => ?_, fun _ hlast => ?_⟩
    · exact h.notMem (c := ' ') (by decide) (hi.subset List.mem_cons_self)
    · exact h.notMem (c := ')') (by decide) (List.mem_of_getLast? hlast)
  have htext : (usingText name).toList = (header (.rule ".x")).toList ++ '\x7b' :: ' ' ::
      ((header (.atRule "use" name false)).toList ++ [' ', '\x7d']) := by
    have hne : name ≠ "" := fun he => h.ne_nil (he ▸ rfl)
    simp [usingText, header, hne]
  rw [parse_eq, htext, Reader.run_opening [] [] _ hrule rfl, Reader.run_space [] _ _ (by decide),
    Reader.run_line [] [(.rule ".x", [])] _ huse rfl, Reader.run_space _ _ _ (by decide),
    Reader.run_close]
  rfl

theorem isUse_use (name : String) : isUse (.atRule "use" name false) = true :=
  (by decide : Text.sameName "use" "use" = true)

theorem isPackage_use (name : String) : isPackage (.atRule "use" name false) = false :=
  (by decide : Text.sameName "use" "package" = false)

theorem outermostAll_usingTrees (name : String) :
    outermostAll isPackage (usingTrees name) = [] := by
  have hrule : isPackage (.rule ".x") = false := rfl
  simp [usingTrees, outermostAll, outermost, leaf, isPackage_use, hrule]

theorem boundTo_usingTrees (P : PackageTable) (name word : String) :
    boundTo P (usingTrees name) word = none := by
  rw [boundTo, outermostAll_usingTrees]
  rfl

theorem sites_usingTrees (name : String) :
    sites isPackage false false (usingTrees name) = [⟨true, false, .atRule "use" name false⟩] := by
  have hrule : isPackage (.rule ".x") = false ∧ isUse (.rule ".x") = false := ⟨rfl, rfl⟩
  have hisRule : (Kind.rule ".x").isRule = true := rfl
  simp [usingTrees, sites, sitesIn, label, leaf, isUse_use, isPackage_use, hrule, hisRule]

theorem expandedAll_usingTrees (P : PackageTable) (A : String → Option String) (name : String) :
    expandedAll P A false false (usingTrees name) = [node (.rule ".x")
      ((notesOf (useProblems P A true false (.atRule "use" name false))).map leaf ++
        (injected P A (.atRule "use" name false)).map leaf)] := by
  have hrule : isPackage (.rule ".x") = false ∧ isUse (.rule ".x") = false := ⟨rfl, rfl⟩
  have hisRule : (Kind.rule ".x").isRule = true := rfl
  simp [usingTrees, expandedAll, expanded, addedTo, label, leaf, isUse_use, isPackage_use, hrule,
    hisRule]

theorem useProblems_name (h : IsClass name) (hp : P.get? name = some package) :
    useProblems P (boundTo P (usingTrees name)) true false (.atRule "use" name false) = [] := by
  have hknown : P.contains name = true := by rw [PackageTable.contains_eq, hp, Option.isSome_some]
  have hwords : directiveWords (.atRule "use" name false) = [name] := h.wordsOf_eq
  simp [useProblems, hwords, unknownWord?, boundTo_usingTrees, hknown]

theorem injected_name (h : IsClass name) (hp : P.get? name = some package) :
    injected P (boundTo P (usingTrees name)) (.atRule "use" name false) =
      package.styles.entries.map fun e => .declaration ⟨e.1, e.2, false⟩ := by
  have hwords : directiveWords (.atRule "use" name false) = [name] := h.wordsOf_eq
  rw [injected, hwords, List.flatMap_singleton, stylesOf, boundTo_usingTrees, Option.getD_none, hp]

/-- A package is used by its name in a rule of its own. -/
theorem transform_usingText (h : IsClass name) (hp : P.get? name = some package) :
    (transform P (Sheet.parse (usingText name))).1.contents = [node (.rule ".x")
      (package.styles.entries.map fun e => leaf (.declaration ⟨e.1, e.2, false⟩))] ∧
    (transform P (Sheet.parse (usingText name))).2.diagnostics = [] := by
  have hcontents : (Sheet.parse (usingText name)).contents = usingTrees name := by
    rw [Sheet.contents_parse, parse_usingText h]
  have hlinked := Sheet.Linked.parse (usingText name)
  rw [transform_of_linked P hlinked, diagnostics_transform P hlinked, hcontents, expansion,
    expandedAll_usingTrees, sites_usingTrees, outermostAll_usingTrees, injected_name h hp,
    useProblems_name h hp, List.map_map]
  refine ⟨rfl, ?_⟩
  rw [List.flatMap_singleton, Site.problems, useProblems_name h hp]
  rfl

end StylePack
