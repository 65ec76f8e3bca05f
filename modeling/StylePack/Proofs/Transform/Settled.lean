import StylePack.Proofs.Transform.Contents

/-! Expansion settles a stylesheet: no directive is left, neither an old one nor one that a package
or a note brings in, so a second expansion finds nothing to do (`transform_settles`). -/
namespace StylePack
open Css Css.Sheet Css.Tree

/-- A node of either directive. -/
def isDirective (k : Kind) : Bool := isPackage k || isUse k

section
variable {P : PackageTable} {A : String → Option String}

theorem isDirective_atRule {name params : String} {hasBlock : Bool} :
    isDirective (.atRule name params hasBlock) = false ↔
      Text.sameName name "package" = false ∧ Text.sameName name "use" = false :=
  Bool.or_eq_false_iff

theorem not_isDirective_notesOf {ds : List Diagnostic} {k : Kind} (h : k ∈ notesOf ds) :
    isDirective k = false := by
  obtain ⟨d, -, rfl⟩ := List.mem_map.mp h
  rfl

theorem not_isDirective_stylesOf {word : String} {k : Kind} (h : k ∈ stylesOf P A word) :
    isDirective k = false := by
  unfold stylesOf at h
  split at h
  · obtain ⟨e, -, rfl⟩ := List.mem_map.mp h
    rfl
  · exact absurd h List.not_mem_nil

theorem not_isDirective_addedTo {inRule : Bool} {ks : List Kind} {k : Kind}
    (h : k ∈ addedTo P A inRule ks) : isDirective k = false := by
  unfold addedTo at h
  split at h
  · cases hu : ks.find? isUse with
    | none => simp [hu] at h
    | some u =>
      rw [hu, Option.map_some, Option.getD_some] at h
      obtain ⟨word, -, hk⟩ := List.mem_flatMap.mp h
      exact not_isDirective_stylesOf hk
  · exact absurd h List.not_mem_nil

mutual

theorem not_isDirective_expanded : (t : Css.Tree Kind) → isDirective t.label = false →
    ∀ k ∈ (expanded P A t).labels, isDirective k = false
  | node a ts => by
    have hts := not_isDirective_expandedAll a.isRule false ts
    intro ha k hk
    rw [expanded, labels_node, List.flatMap_append, labels_leaves, List.mem_cons,
      List.mem_append] at hk
    rcases hk with rfl | hk | hk
    · exact ha
    · exact hts k hk
    · exact not_isDirective_addedTo hk

/-- What is left of nodes holds no directive; only the nodes around them may be one. -/
theorem not_isDirective_expandedAll (inRule used : Bool) : (ts : List (Css.Tree Kind)) →
    ∀ k ∈ (expandedAll P A inRule used ts).flatMap labels, isDirective k = false
  | [] => fun _ hk => absurd hk List.not_mem_nil
  | t :: ts => by
    have ht := not_isDirective_expanded t
    have hts := not_isDirective_expandedAll inRule used ts
    have hts' := not_isDirective_expandedAll inRule true ts
    intro k hk
    rw [expandedAll] at hk
    by_cases hp : isPackage t.label
    · rw [if_pos hp, List.flatMap_append, labels_leaves, List.mem_append] at hk
      exact hk.elim not_isDirective_notesOf (hts k)
    · by_cases hu : isUse t.label
      · rw [if_neg hp, if_pos hu, List.flatMap_append, labels_leaves, List.mem_append] at hk
        exact hk.elim not_isDirective_notesOf (hts' k)
      · rw [if_neg hp, if_neg hu, List.flatMap_cons, List.mem_append] at hk
        have hlabel : isDirective t.label = false := by simp [isDirective, hp, hu]
        exact hk.elim (ht hlabel k) (hts k)

end
end

/-- No node that belongs to the stylesheet is a directive. -/
def Settled (s : Sheet) : Prop := ∀ i, s.isAttached i = true → isDirective (s.kind i) = false

theorem settled_transform (P : PackageTable) {s : Sheet} (h : Linked s) :
    Settled (transform P s).1 := by
  intro i hi
  have hlinked := linked_transform P h
  cases hkind : (transform P s).1.kind? i with
  | none =>
    rw [kind, hkind]
    rfl
  | some k =>
    rw [kind, hkind, Option.getD_some]
    by_cases hroot : k = .root
    · rw [hroot]
      rfl
    · have hmem := (hlinked.mem_labels_contents hroot).mpr ⟨i, hi, hkind⟩
      rw [transform_of_linked P h] at hmem
      exact not_isDirective_expandedAll false false _ k hmem

theorem Settled.atRules_eq_nil {s : Sheet} (hs : Settled s) (h : Linked s) {name : String}
    (hname : ∀ k, k.isAtRule name = true → isDirective k = true) : s.atRules name = [] := by
  rw [atRules_eq, List.filter_eq_nil_iff]
  intro i hi hn
  have hdirective := hname _ hn
  rw [hs i ((h.mem_walk_iff i).mp hi).1] at hdirective
  exact Bool.false_ne_true hdirective

/-- Where there is no directive, there is nothing to do. -/
theorem Settled.transform_eq {s : Sheet} (hs : Settled s) (h : Linked s) (Q : PackageTable) :
    transform Q s = (s, ⟨[], Q.size, 0, 0⟩) := by
  have hpackage : s.atRules "package" = [] :=
    hs.atRules_eq_nil h fun k hk => Bool.or_eq_true_iff.mpr (Or.inl hk)
  have huse : s.atRules "use" = [] :=
    hs.atRules_eq_nil h fun k hk => Bool.or_eq_true_iff.mpr (Or.inr hk)
  have hreg : (Expansion.start s).registerAll Q (s.atRules "package") = .start s := by
    rw [hpackage]
    rfl
  have hall : (Expansion.start s).expandAll Q ((Expansion.start s).sheet.atRules "use") =
      (.start s, 0) := by
    change (Expansion.start s).expandAll Q (s.atRules "use") = _
    rw [huse]
    rfl
  rw [transform]
  simp only [hreg, hall]
  rfl

/-- No directive is left in an expanded stylesheet, however its name is written, and to expand it
again, with these packages or others, changes no node and reports nothing. -/
theorem transform_settles (P Q : PackageTable) {s : Sheet} (h : Reachable s) :
    (∀ i name params hasBlock, (transform P s).1.isAttached i = true →
      (transform P s).1.kind? i = some (.atRule name params hasBlock) →
        Text.sameName name "package" = false ∧ Text.sameName name "use" = false) ∧
      transform Q (transform P s).1 = ((transform P s).1, ⟨[], Q.size, 0, 0⟩) := by
  have hsettled := settled_transform P h.linked
  refine ⟨fun i name params hasBlock hi hk => ?_,
    hsettled.transform_eq (linked_transform P h.linked) Q⟩
  have hdirective := hsettled i hi
  rw [kind, hk, Option.getD_some] at hdirective
  exact isDirective_atRule.mp hdirective

/-- Directives in each other, names in any case, and a node added below a directive. -/
theorem transform_settles_nested :
    Reachable ((Sheet.parse ".a\x7b@USE b\x7b@Package c as b;\x7d\x7d").append 3
        (.atRule "use" "b" false)).1 ∧
      transform (.ofDescriptors [⟨"b", .empty⟩])
          (transform .empty ((Sheet.parse ".a\x7b@USE b\x7b@Package c as b;\x7d\x7d").append 3
            (.atRule "use" "b" false)).1).1 =
        ((transform .empty ((Sheet.parse ".a\x7b@USE b\x7b@Package c as b;\x7d\x7d").append 3
          (.atRule "use" "b" false)).1).1, ⟨[], 1, 0, 0⟩) := by
  have hsize : 3 < (Sheet.parse ".a\x7b@USE b\x7b@Package c as b;\x7d\x7d").size := by
    decide +kernel
  have h := (Reachable.parse ".a\x7b@USE b\x7b@Package c as b;\x7d\x7d").append hsize
    (.atRule "use" "b" false)
  exact ⟨h, (transform_settles .empty (.ofDescriptors [⟨"b", .empty⟩]) h).2⟩

end StylePack
