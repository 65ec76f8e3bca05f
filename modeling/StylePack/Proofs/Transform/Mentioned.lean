import StylePack.Proofs.Transform.Report

/-! Packages that a stylesheet does not mention do not matter to it: two tables that agree on the
names in its directives make the same of it (`transform_of_agree`). An alias stands for a package
that a directive names, so in the end a word is looked up under a name that is mentioned. -/
namespace StylePack
open Css Css.Sheet Css.Tree
variable {P P' : PackageTable} {A : String → Option String} {s : Sheet} {k : Kind}
  {name package keyword word : String}

/-- The names that a directive mentions: the package of `<name> as <alias>`, or what is used. -/
def mentionedBy (k : Kind) : List String :=
  if isPackage k then
    match directiveWords k with
    | [package, keyword, _] => if Text.sameName keyword "as" then [package] else []
    | _ => []
  else if isUse k then directiveWords k
  else []

/-- The names that the directives of a stylesheet mention. -/
def mentioned (s : Sheet) : List String := s.walk.flatMap fun i => mentionedBy (s.kind i)

theorem mentionedBy_package (hk : isPackage k = true)
    (hwords : directiveWords k = [package, keyword, name])
    (has : Text.sameName keyword "as" = true) : mentionedBy k = [package] := by
  rw [mentionedBy, if_pos hk, hwords]
  exact if_pos has

theorem mentionedBy_use (hk : isUse k = true) : mentionedBy k = directiveWords k := by
  have hp : ¬ isPackage k = true := fun hp => by
    rw [not_isUse_of_isPackage hp] at hk
    cases hk
  rw [mentionedBy, if_neg hp, if_pos hk]

/-- Under a name two tables have packages of the same styles, or both have none. -/
def Agree (P P' : PackageTable) (name : String) : Prop :=
  (P.get? name).map Package.styles = (P'.get? name).map Package.styles

namespace Agree

theorem contains_eq (h : Agree P P' name) : P.contains name = P'.contains name := by
  have hsome := congrArg Option.isSome h
  rwa [Option.isSome_map, Option.isSome_map] at hsome

theorem stylesOf_eq (h : Agree P P' ((A word).getD word)) :
    stylesOf P A word = stylesOf P' A word := by
  have hstyles : ∀ Q : PackageTable, stylesOf Q A word =
      (((Q.get? ((A word).getD word)).map Package.styles).map fun styles =>
        styles.entries.map fun e => .declaration ⟨e.1, e.2, false⟩).getD [] := by
    intro Q
    unfold stylesOf
    cases Q.get? ((A word).getD word) <;> rfl
  rw [hstyles, hstyles, h]

end Agree

section
variable (h : ∀ name ∈ mentionedBy k, Agree P P' name) (hk : isPackage k = true)
include h hk

theorem contains_of_agree (hwords : directiveWords k = [package, keyword, name])
    (has : Text.sameName keyword "as" = true) : P.contains package = P'.contains package := by
  have hmem : package ∈ mentionedBy k := by
    rw [mentionedBy_package hk hwords has]
    exact List.mem_cons_self
  exact (h package hmem).contains_eq

theorem binding?_of_agree : binding? P k = binding? P' k := by
  unfold binding?
  split
  · rename_i package keyword name hwords
    cases has : Text.sameName keyword "as" with
    | false => rfl
    | true => rw [contains_of_agree h hk hwords has]
  · rfl

theorem packageProblems_of_agree : packageProblems P A k = packageProblems P' A k := by
  unfold packageProblems
  split
  · rename_i package keyword name hwords
    cases has : Text.sameName keyword "as" with
    | false => rfl
    | true => rw [contains_of_agree h hk hwords has]
  · rfl

end

theorem mem_mentionedBy_of_binding? (hk : isPackage k = true)
    (h : binding? P k = some (name, package)) : package ∈ mentionedBy k := by
  unfold binding? at h
  split at h
  · rename_i first keyword last hwords
    split_ifs at h with hknown
    cases h
    rw [mentionedBy_package hk hwords (Bool.and_eq_true_iff.mp hknown).1]
    exact List.mem_cons_self
  · cases h

/-- Two tables agree on all that is looked up for a node, where `A` says what the aliases stand
for. -/
structure Alike (P P' : PackageTable) (A : String → Option String) (k : Kind) : Prop where
  agree : ∀ name ∈ mentionedBy k, Agree P P' name
  agree_word : isUse k = true → ∀ word ∈ directiveWords k, Agree P P' ((A word).getD word)

namespace Alike

theorem useProblems_eq (h : Alike P P' A k) (hk : isUse k = true) (inRule repeated : Bool) :
    useProblems P A inRule repeated k = useProblems P' A inRule repeated k := by
  have hwords : (directiveWords k).filterMap (unknownWord? P A) =
      (directiveWords k).filterMap (unknownWord? P' A) := by
    refine List.filterMap_congr fun word hword => ?_
    rw [unknownWord?, unknownWord?, (h.agree_word hk word hword).contains_eq]
  rw [useProblems, useProblems, hwords]

theorem injected_eq (h : Alike P P' A k) (hk : isUse k = true) :
    injected P A k = injected P' A k :=
  List.flatMap_congr fun word hword => (h.agree_word hk word hword).stylesOf_eq

theorem injects_eq {u : Site} (h : Alike P P' A u.kind) (hk : isUse u.kind = true) :
    u.injects P A = u.injects P' A := by
  have hwords : (directiveWords u.kind).any (fun word => P.contains ((A word).getD word)) =
      (directiveWords u.kind).any fun word => P'.contains ((A word).getD word) := by
    rw [Bool.eq_iff_iff, List.any_eq_true, List.any_eq_true]
    refine exists_congr fun word => and_congr_right fun hword => ?_
    rw [(h.agree_word hk word hword).contains_eq]
  rw [Site.injects, Site.injects, hwords]

end Alike

theorem addedTo_of_alike {ks : List Kind} (h : ∀ k ∈ ks, Alike P P' A k) (inRule : Bool) :
    addedTo P A inRule ks = addedTo P' A inRule ks := by
  unfold addedTo
  cases hfind : ks.find? isUse with
  | none => rfl
  | some k =>
    have hinjected := (h k (List.mem_of_find?_eq_some hfind)).injected_eq
      (List.find?_some hfind)
    rw [Option.map_some, Option.map_some, hinjected]

mutual

theorem expanded_of_alike : (t : Css.Tree Kind) → (∀ k ∈ t.labels, Alike P P' A k) →
    expanded P A t = expanded P' A t
  | node k ts, h => by
    have hbelow : ∀ l ∈ ts.flatMap labels, Alike P P' A l := fun l hl => by
      refine h l ?_
      rw [labels_node]
      exact List.mem_cons_of_mem k hl
    have hchildren : ∀ l ∈ ts.map label, Alike P P' A l := fun l hl => by
      obtain ⟨t, ht, rfl⟩ := List.mem_map.mp hl
      exact hbelow _ (List.mem_flatMap.mpr ⟨t, ht, label_mem_labels t⟩)
    rw [expanded, expanded, expandedAll_of_alike k.isRule false ts hbelow,
      addedTo_of_alike hchildren]

/-- Nodes become the same where the tables agree on all that is looked up for them. -/
theorem expandedAll_of_alike (inRule used : Bool) : (ts : List (Css.Tree Kind)) →
    (∀ k ∈ ts.flatMap labels, Alike P P' A k) →
    expandedAll P A inRule used ts = expandedAll P' A inRule used ts
  | [], _ => rfl
  | t :: ts, h => by
    simp only [List.flatMap_cons, List.mem_append] at h
    have hlabel := h t.label (Or.inl (label_mem_labels t))
    have ht := expanded_of_alike t fun k hk => h k (Or.inl hk)
    have hts := expandedAll_of_alike inRule used ts fun k hk => h k (Or.inr hk)
    have hts' := expandedAll_of_alike inRule true ts fun k hk => h k (Or.inr hk)
    rw [expandedAll, expandedAll]
    by_cases hp : isPackage t.label
    · rw [if_pos hp, if_pos hp, packageProblems_of_agree hlabel.agree hp, hts]
    · rw [if_neg hp, if_neg hp]
      by_cases hu : isUse t.label
      · rw [if_pos hu, if_pos hu, hlabel.useProblems_eq hu, hts']
      · rw [if_neg hu, if_neg hu, ht, hts]

end

theorem mem_mentioned {i : Nat} (hi : i ∈ s.walk) (hname : name ∈ mentionedBy (s.kind i)) :
    name ∈ mentioned s :=
  List.mem_flatMap.mpr ⟨i, hi, hname⟩

theorem mem_packageDirectives {i : Nat} (hi : i ∈ packageDirectives s) :
    i ∈ s.walk ∧ isPackage (s.kind i) = true := by
  obtain ⟨hw, hexposed⟩ := List.mem_filter.mp hi
  exact ⟨hw, (exposed_iff.mp hexposed).1⟩

/-- An alias stands for a package that is mentioned. -/
theorem mem_mentioned_of_aliasTarget (h : aliasTarget P s name = some package) :
    package ∈ mentioned s := by
  obtain ⟨l, r, hbindings, -⟩ := List.lookup_eq_some_iff.mp h
  have hmem : (name, package) ∈ ((packageDirectives s).map s.kind).filterMap (binding? P) := by
    simp [hbindings]
  obtain ⟨k, hk, hbinding⟩ := List.mem_filterMap.mp hmem
  obtain ⟨i, hi, rfl⟩ := List.mem_map.mp hk
  obtain ⟨hw, hp⟩ := mem_packageDirectives hi
  exact mem_mentioned hw (mem_mentionedBy_of_binding? hp hbinding)

section
variable (hagree : ∀ name ∈ mentioned s, Agree P P' name)
include hagree

/-- The same aliases are bound, to the same packages. -/
theorem bindings_of_agree :
    ((packageDirectives s).map s.kind).filterMap (binding? P) =
      ((packageDirectives s).map s.kind).filterMap (binding? P') := by
  refine List.filterMap_congr fun k hk => ?_
  obtain ⟨i, hi, rfl⟩ := List.mem_map.mp hk
  obtain ⟨hw, hp⟩ := mem_packageDirectives hi
  exact binding?_of_agree (fun name hname => hagree name (mem_mentioned hw hname)) hp

theorem aliasTarget_of_agree : aliasTarget P s = aliasTarget P' s := by
  funext name
  rw [aliasTarget, aliasTarget, firstBinding, firstBinding, bindings_of_agree hagree]

/-- Whatever a directive of the stylesheet looks up is mentioned in it. -/
theorem alike_of_agree {i : Nat} (hi : i ∈ s.walk) :
    Alike P P' (aliasTarget P s) (s.kind i) := by
  refine ⟨fun name hname => hagree name (mem_mentioned hi hname), fun hu word hword => ?_⟩
  cases htarget : aliasTarget P s word with
  | none => exact hagree word (mem_mentioned hi (by rwa [mentionedBy_use hu]))
  | some package => exact hagree package (mem_mentioned_of_aliasTarget htarget)

end

/-- A stylesheet becomes the same, with the same report, whatever the packages are that its
directives do not mention. -/
theorem transform_of_agree (h : Reachable s) (hagree : ∀ name ∈ mentioned s, Agree P P' name) :
    (transform P s).1.contents = (transform P' s).1.contents ∧
    (transform P s).2.diagnostics = (transform P' s).2.diagnostics ∧
    (transform P s).2.aliasesRegistered = (transform P' s).2.aliasesRegistered ∧
    (transform P s).2.rulesExpanded = (transform P' s).2.rulesExpanded := by
  have hs := h.linked
  have htarget := aliasTarget_of_agree hagree
  have hbindings := bindings_of_agree hagree
  have halike : ∀ i ∈ s.walk, Alike P P' (aliasTarget P' s) (s.kind i) := fun i hi => by
    rw [← htarget]
    exact alike_of_agree hagree hi
  refine ⟨?_, ?_, ?_, ?_⟩
  · rw [transform_of_linked P hs, transform_of_linked P' hs, expansion, expansion,
      boundTo_contents P hs, boundTo_contents P' hs, htarget]
    refine expandedAll_of_alike false false s.contents fun k hk => ?_
    rw [labels_contents] at hk
    obtain ⟨i, hi, rfl⟩ := List.mem_map.mp hk
    exact halike i hi
  · rw [diagnostics_transform P hs, diagnostics_transform P' hs, boundTo_contents P hs,
      boundTo_contents P' hs, htarget, outermostAll_isPackage hs, sites_useDirectives hs,
      List.flatMap_map, List.flatMap_map, List.flatMap_map, List.flatMap_map]
    congr 1
    · refine List.flatMap_congr fun i hi => ?_
      obtain ⟨hw, hp⟩ := mem_packageDirectives hi
      exact packageProblems_of_agree (halike i hw).agree hp
    · refine List.flatMap_congr fun i hi => ?_
      obtain ⟨hw, hu⟩ := mem_useDirectives hi
      exact (halike i hw).useProblems_eq hu _ _
  · rw [aliasesRegistered_transform P hs, aliasesRegistered_transform P' hs,
      outermostAll_isPackage hs, hbindings]
  · rw [rulesExpanded_transform P hs, rulesExpanded_transform P' hs, boundTo_contents P hs,
      boundTo_contents P' hs, htarget, sites_useDirectives hs, List.countP_map, List.countP_map]
    refine List.countP_congr fun i hi => ?_
    obtain ⟨hw, hu⟩ := mem_useDirectives hi
    have hinjects := (halike i hw).injects_eq (u := useSite s i) hu
    rw [Function.comp_apply, Function.comp_apply, hinjects]

/-- A rule that uses an alias and a name that stands for nothing. -/
def buttonUse : Sheet := Sheet.parse ".a\x7b@use b ghost;\x7d@package btn as b;"

/-- A package for it. -/
def button : Descriptor := ⟨"btn", .ofList [("color", "red")]⟩

/-- Another package does not matter, though it has the name of the rule's class. -/
theorem transform_of_agree_button :
    Reachable buttonUse ∧ mentioned buttonUse = ["b", "ghost", "btn"] ∧
    (∀ name ∈ mentioned buttonUse,
      Agree (.ofDescriptors [button]) (.ofDescriptors [⟨"a", .empty⟩, button]) name) ∧
    (transform (.ofDescriptors [button]) buttonUse).1.contents =
      (transform (.ofDescriptors [⟨"a", .empty⟩, button]) buttonUse).1.contents ∧
    (transform (.ofDescriptors [button]) buttonUse).2.diagnostics =
      (transform (.ofDescriptors [⟨"a", .empty⟩, button]) buttonUse).2.diagnostics := by
  have hmentioned : mentioned buttonUse = ["b", "ghost", "btn"] := by decide +kernel
  have hagree : ∀ name ∈ mentioned buttonUse,
      Agree (.ofDescriptors [button]) (.ofDescriptors [⟨"a", .empty⟩, button]) name := by
    rw [hmentioned]
    unfold Agree
    decide
  obtain ⟨hcontents, hdiagnostics, -⟩ := transform_of_agree (.parse _) hagree
  exact ⟨.parse _, hmentioned, hagree, hcontents, hdiagnostics⟩

end StylePack
