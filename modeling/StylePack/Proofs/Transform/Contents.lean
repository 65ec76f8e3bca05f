import StylePack.Proofs.Transform.Used

/-! The transform of a whole stylesheet is the recursion on its content. -/
namespace StylePack
open Css Css.Sheet
variable {s : Sheet}

theorem transform_fst (P : PackageTable) (s : Sheet) : (transform P s).1 =
    (((Expansion.start s).registerAll P (s.atRules "package")).expandAll P
      (((Expansion.start s).registerAll P (s.atRules "package")).sheet.atRules "use")).1.sheet :=
  rfl

theorem linked_transform (P : PackageTable) (h : Linked s) : Linked (transform P s).1 := by
  have hreg := Expansion.Registered.run P h
  have huse := Expansion.Used.run P hreg.rewritten.linked hreg.used_eq
  rw [transform_fst]
  exact huse.rewritten.linked

theorem transform_of_linked (P : PackageTable) (h : Linked s) :
    (transform P s).1.contents = expansion P s.contents := by
  have hreg := Expansion.Registered.run P h
  have hlinked := hreg.rewritten.linked
  have huse := Expansion.Used.run P hlinked hreg.used_eq
  have haliases : ((Expansion.start s).registerAll P (s.atRules "package")).aliases.get? =
      boundTo P s.contents := hreg.aliases_eq
  rw [transform_fst, huse.contents_eq hlinked, haliases, hreg.contents_eq h, appliedAll_boundAll]
  rfl

/-- What belongs to a stylesheet after its directives were expanded, however it was edited before:
the same recursion on what belonged to it. -/
theorem contents_transform (P : PackageTable) (h : Reachable s) :
    (transform P s).1.contents = expansion P s.contents :=
  transform_of_linked P h.linked

theorem contents_transform_buttons :
    Reachable (Sheet.parse "@package btn as b;.a\x7b@use b;@use c d;\x7d") ∧
      (transform (.ofDescriptors [⟨"btn", ⟨[("color", "red")], by decide⟩⟩])
        (Sheet.parse "@package btn as b;.a\x7b@use b;@use c d;\x7d")).1.contents =
        [.node (.rule ".a") [
          .leaf (.comment "penguinui: multiple @use not allowed in same rule (ignored 'c d')"),
          .leaf (.declaration ⟨"color", "red", false⟩)]] := by
  refine ⟨.parse _, (contents_transform _ (.parse _)).trans ?_⟩
  have hparse : Tree.parse "@package btn as b;.a\x7b@use b;@use c d;\x7d" =
      [.leaf (.atRule "package" "btn as b" false), .node (.rule ".a")
        [.leaf (.atRule "use" "b" false), .leaf (.atRule "use" "c d" false)]] := by rfl
  have hbtn : Text.wordsOf "btn as b" = ["btn", "as", "b"] := by decide
  have hb : Text.wordsOf "b" = ["b"] := by decide
  have hcd : Text.wordsOf "c d" = ["c", "d"] := by decide
  rw [contents_parse, hparse]
  have hget : (PackageTable.ofDescriptors [⟨"btn", ⟨[("color", "red")], by decide⟩⟩]).get? "btn" =
      some ⟨"btn", ⟨[("color", "red")], by decide⟩, none⟩ := by decide
  have hnote : Diagnostic.comment (.repeatedUse "c d") =
      "penguinui: multiple @use not allowed in same rule (ignored 'c d')" := by decide
  simp +decide [expansion, expandedAll, expanded, isUse, Tree.leaf, Tree.label,
    Kind.isAtRule, Text.sameName, packageProblems, useProblems, directiveWords, Kind.params?,
    boundTo, firstBinding, binding?, Tree.outermostAll, Tree.outermost, addedTo, injected,
    stylesOf, unknownWord?, notesOf, PackageTable.contains_eq, hbtn, hb, hcd, hget, hnote]

end StylePack
