import Mathlib.Logic.Function.Basic
import StylePack.Proofs.Transform.Report

/-! It does not matter where in a stylesheet aliases are bound, nor in which order, as long as none
is bound to two packages: moving `@package` directives about changes nothing but where comments
stand. -/
namespace StylePack
open Css Css.Sheet Css.Tree

def isComment : Kind → Bool
  | .comment _ => true
  | _ => false

/-- A problem of a `@package` directive. -/
def Diagnostic.ofPackage : Diagnostic → Bool
  | unknownPackage _ => true
  | aliasTaken .. => true
  | unknownInUse _ => false
  | repeatedUse _ => false

section
variable {P : PackageTable} {A : String → Option String}

theorem ofPackage_of_mem_packageProblems {k : Kind} {d : Diagnostic}
    (h : d ∈ packageProblems P A k) : d.ofPackage = true := by
  unfold packageProblems at h
  repeat' split at h
  all_goals simp_all [Diagnostic.ofPackage]

theorem not_ofPackage_of_mem_problems {u : Site} {d : Diagnostic} (h : d ∈ u.problems P A) :
    d.ofPackage = false := by
  unfold Site.problems useProblems at h
  split at h
  · simp at h
  · split at h
    · rw [List.mem_singleton.mp h]
      rfl
    · obtain ⟨word, -, hword⟩ := List.mem_filterMap.mp h
      unfold unknownWord? at hword
      split at hword
      · cases hword
      · cases hword
        rfl

/-- Only the words of a directive count. -/
theorem packageProblems_congr {k k' : Kind} (h : directiveWords k = directiveWords k') :
    packageProblems P A k = packageProblems P A k' := by
  unfold packageProblems
  rw [h]

theorem binding?_congr {k k' : Kind} (h : directiveWords k = directiveWords k') :
    binding? P k = binding? P k' := by
  unfold binding?
  rw [h]

theorem exists_binding_of_words (P : PackageTable) : ∃ f, binding? P = f ∘ directiveWords :=
  (Function.factorsThrough_iff _).mp fun _ _ h => binding?_congr h

theorem exists_problems_of_words (P : PackageTable) (A : String → Option String) :
    ∃ f, packageProblems P A = f ∘ directiveWords :=
  (Function.factorsThrough_iff _).mp fun _ _ h => packageProblems_congr h

/-- Looking up in a list where no name has two values finds what is in the list. -/
theorem lookup_eq_some_iff_mem {bs : List (String × String)}
    (h : ∀ b ∈ bs, ∀ c ∈ bs, b.1 = c.1 → b.2 = c.2) {name value : String} :
    bs.lookup name = some value ↔ (name, value) ∈ bs := by
  have hmem : ∀ {v : String}, bs.lookup name = some v → (name, v) ∈ bs := by
    intro v hv
    obtain ⟨l, r, rfl, -⟩ := List.lookup_eq_some_iff.mp hv
    simp
  refine ⟨hmem, fun hb => ?_⟩
  have hsome : (bs.lookup name).isSome = true :=
    List.lookup_isSome_iff.mpr ⟨(name, value), hb, beq_self_eq_true _⟩
  obtain ⟨v, hv⟩ := Option.isSome_iff_exists.mp hsome
  have hval : v = value := h _ (hmem hv) _ hb rfl
  rw [hv, hval]

theorem lookup_perm {bs bs' : List (String × String)} (hp : bs.Perm bs')
    (h : ∀ b ∈ bs, ∀ c ∈ bs, b.1 = c.1 → b.2 = c.2) (name : String) :
    bs.lookup name = bs'.lookup name := by
  ext value
  rw [lookup_eq_some_iff_mem h, hp.mem_iff,
    lookup_eq_some_iff_mem fun b hb c hc => h b (hp.mem_iff.mpr hb) c (hp.mem_iff.mpr hc)]

theorem withoutAll_notes (ds : List Diagnostic) (ts : List (Css.Tree Kind)) :
    withoutAll isComment ((notesOf ds).map leaf ++ ts) = withoutAll isComment ts := by
  induction ds with
  | nil => rfl
  | cons d ds ih => exact ih

theorem find?_isUse_withoutAll (ts : List (Css.Tree Kind)) :
    ((withoutAll isPackage ts).map label).find? isUse = (ts.map label).find? isUse := by
  induction ts with
  | nil => rfl
  | cons t ts ih =>
    rw [withoutAll, List.map_cons, List.find?_cons]
    by_cases hp : isPackage t.label
    · rw [if_pos hp, ih, not_isUse_of_isPackage hp]
    · rw [if_neg hp, List.map_cons, List.find?_cons, label_without, ih]

@[simp] theorem label_expanded (t : Css.Tree Kind) : (expanded P A t).label = t.label := by
  cases t
  rfl

mutual

theorem expanded_without : (t : Css.Tree Kind) → without isComment
    (expanded P A (without isPackage t)) = without isComment (expanded P A t)
  | node k ts => by
    have hts := expandedAll_withoutAll k.isRule false ts
    rw [without, expanded, expanded, without, without, withoutAll_append, withoutAll_append, hts,
      addedTo, addedTo, find?_isUse_withoutAll]

/-- Where the aliases stand for the same packages, the `@package` directives themselves leave
nothing but comments. -/
theorem expandedAll_withoutAll (inRule used : Bool) : (ts : List (Css.Tree Kind)) →
    withoutAll isComment (expandedAll P A inRule used (withoutAll isPackage ts)) =
      withoutAll isComment (expandedAll P A inRule used ts)
  | [] => rfl
  | t :: ts => by
    have ht := expanded_without t
    have hts := expandedAll_withoutAll inRule used ts
    have hts' := expandedAll_withoutAll inRule true ts
    rw [withoutAll, expandedAll]
    by_cases hp : isPackage t.label
    · rw [if_pos hp, if_pos hp, withoutAll_notes, hts]
    · rw [if_neg hp, if_neg hp, expandedAll, label_without, if_neg hp]
      by_cases hu : isUse t.label
      · rw [if_pos hu, if_pos hu, withoutAll_notes, withoutAll_notes, hts']
      · rw [if_neg hu, if_neg hu, withoutAll, withoutAll, label_expanded, label_expanded,
          label_without, ht, hts]

end
end

variable {P : PackageTable} {s s' : Sheet}

/-- The words of the `@package` directives that count, in document order. -/
def packageWords (s : Sheet) : List (List String) :=
  (packageDirectives s).map fun i => directiveWords (s.kind i)

/-- No alias is bound to two packages. -/
def Unambiguous (P : PackageTable) (s : Sheet) : Prop :=
  ∀ i ∈ packageDirectives s, ∀ j ∈ packageDirectives s, ∀ name package package',
    binding? P (s.kind i) = some (name, package) →
      binding? P (s.kind j) = some (name, package') → package = package'

theorem packageWords_eq (h : Linked s) :
    packageWords s = (outermostAll isPackage s.contents).map directiveWords := by
  rw [outermostAll_isPackage h, List.map_map]
  rfl

/-- The aliases that the directives bind, with their packages. -/
def bindings (P : PackageTable) (s : Sheet) : List (String × String) :=
  (outermostAll isPackage s.contents).filterMap (binding? P)

theorem bindings_eq (h : Linked s) (h' : Linked s') (hwords : packageWords s = packageWords s') :
    bindings P s = bindings P s' := by
  obtain ⟨f, hf⟩ := exists_binding_of_words P
  rw [packageWords_eq h, packageWords_eq h'] at hwords
  rw [bindings, bindings, hf, ← List.filterMap_map, ← List.filterMap_map, hwords]

theorem bindings_perm (h : Linked s) (h' : Linked s')
    (hwords : (packageWords s).Perm (packageWords s')) :
    (bindings P s).Perm (bindings P s') := by
  obtain ⟨f, hf⟩ := exists_binding_of_words P
  rw [packageWords_eq h, packageWords_eq h'] at hwords
  rw [bindings, bindings, hf, ← List.filterMap_map, ← List.filterMap_map]
  exact hwords.filterMap f

theorem Unambiguous.bindings (hu : Unambiguous P s) (h : Linked s) :
    ∀ b ∈ bindings P s, ∀ c ∈ bindings P s, b.1 = c.1 → b.2 = c.2 := by
  have hmem : ∀ {b : String × String}, b ∈ StylePack.bindings P s →
      ∃ i ∈ packageDirectives s, binding? P (s.kind i) = some b := by
    intro b hb
    rw [StylePack.bindings, outermostAll_isPackage h, List.filterMap_map] at hb
    exact List.mem_filterMap.mp hb
  rintro ⟨name, package⟩ hb ⟨name', package'⟩ hc rfl
  obtain ⟨i, hi, hbi⟩ := hmem hb
  obtain ⟨j, hj, hcj⟩ := hmem hc
  exact hu i hi j hj name package package' hbi hcj

/-- The aliases stand for the same packages. -/
theorem boundTo_moved (h : Linked s) (h' : Linked s') (hwords : packageWords s = packageWords s' ∨
    (packageWords s).Perm (packageWords s') ∧ Unambiguous P s) :
    boundTo P s.contents = boundTo P s'.contents := by
  funext name
  change (bindings P s).lookup name = (bindings P s').lookup name
  rcases hwords with hwords | ⟨hwords, hu⟩
  · rw [bindings_eq h h' hwords]
  · exact lookup_perm (bindings_perm h h' hwords) (hu.bindings h) name

section
variable (P) (h : Linked s)
include h

theorem packageDiagnostics_transform : (transform P s).2.diagnostics.filter (·.ofPackage) =
    (outermostAll isPackage s.contents).flatMap (packageProblems P (boundTo P s.contents)) := by
  rw [diagnostics_transform P h, List.filter_append, List.filter_eq_self.mpr,
    List.filter_eq_nil_iff.mpr, List.append_nil]
  · intro d hd
    obtain ⟨u, -, hu⟩ := List.mem_flatMap.mp hd
    rw [not_ofPackage_of_mem_problems hu]
    exact Bool.false_ne_true
  · intro d hd
    obtain ⟨k, -, hk⟩ := List.mem_flatMap.mp hd
    exact ofPackage_of_mem_packageProblems hk

theorem useDiagnostics_transform : (transform P s).2.diagnostics.filter (!·.ofPackage) =
    (sites isPackage false false s.contents).flatMap (Site.problems P (boundTo P s.contents)) := by
  rw [diagnostics_transform P h, List.filter_append, List.filter_eq_nil_iff.mpr,
    List.filter_eq_self.mpr, List.nil_append]
  · intro d hd
    obtain ⟨u, -, hu⟩ := List.mem_flatMap.mp hd
    rw [not_ofPackage_of_mem_problems hu]
    rfl
  · intro d hd
    obtain ⟨k, -, hk⟩ := List.mem_flatMap.mp hd
    rw [ofPackage_of_mem_packageProblems hk]
    exact Bool.false_ne_true

end

/-- Two stylesheets that differ only in where their `@package` directives stand, or in the order of
those if no alias is bound to two packages, are expanded alike: only the comments and the order of
the problems of `@package` directives may differ. -/
theorem transform_moved (P : PackageTable) (h : Reachable s) (h' : Reachable s')
    (htrees : withoutAll isPackage s.contents = withoutAll isPackage s'.contents)
    (hwords : packageWords s = packageWords s' ∨
      (packageWords s).Perm (packageWords s') ∧ Unambiguous P s) :
    (transform P s).2.aliasesRegistered = (transform P s').2.aliasesRegistered ∧
    (transform P s).2.rulesExpanded = (transform P s').2.rulesExpanded ∧
    (transform P s).2.diagnostics.filter (!·.ofPackage) =
      (transform P s').2.diagnostics.filter (!·.ofPackage) ∧
    ((transform P s).2.diagnostics.filter (·.ofPackage)).Perm
      ((transform P s').2.diagnostics.filter (·.ofPackage)) ∧
    (packageWords s = packageWords s' → (transform P s).2.diagnostics.filter (·.ofPackage) =
      (transform P s').2.diagnostics.filter (·.ofPackage)) ∧
    withoutAll isComment (transform P s).1.contents =
      withoutAll isComment (transform P s').1.contents := by
  have hbound := boundTo_moved h.linked h'.linked hwords
  have hperm : (packageWords s).Perm (packageWords s') := hwords.elim (· ▸ .refl _) And.left
  have hsites : sites isPackage false false s.contents =
      sites isPackage false false s'.contents := by
    rw [← sites_withoutAll, htrees, sites_withoutAll]
  obtain ⟨f, hf⟩ := exists_problems_of_words P (boundTo P s'.contents)
  have hflat : ∀ ks : List Kind, ks.flatMap (packageProblems P (boundTo P s'.contents)) =
      (ks.map directiveWords).flatMap f := by
    intro ks
    rw [hf, List.flatMap_map]
    rfl
  -- each part depends on the aliases and on the content without the directives only
  refine ⟨?_, ?_, ?_, ?_, fun heq => ?_, ?_⟩
  · rw [aliasesRegistered_transform P h.linked, aliasesRegistered_transform P h'.linked]
    exact ((bindings_perm h.linked h'.linked hperm).map Prod.fst).dedup.length_eq
  · rw [rulesExpanded_transform P h.linked, rulesExpanded_transform P h'.linked, hsites, hbound]
  · rw [useDiagnostics_transform P h.linked, useDiagnostics_transform P h'.linked, hsites, hbound]
  · rw [packageWords_eq h.linked, packageWords_eq h'.linked] at hperm
    rw [packageDiagnostics_transform P h.linked, packageDiagnostics_transform P h'.linked, hbound,
      hflat, hflat]
    exact hperm.flatMap_right f
  · rw [packageWords_eq h.linked, packageWords_eq h'.linked] at heq
    rw [packageDiagnostics_transform P h.linked, packageDiagnostics_transform P h'.linked, hbound,
      hflat, hflat, heq]
  · rw [transform_of_linked P h.linked, transform_of_linked P h'.linked, expansion, expansion,
      hbound, ← expandedAll_withoutAll, htrees, expandedAll_withoutAll]

/-- An alias is bound after its use. -/
def boundLate : Sheet := Sheet.parse ".a\x7b@use b;\x7d@package x as b;@package btn as b;"

/-- The same alias is bound before its use, and the useless binding stands elsewhere. -/
def boundEarly : Sheet := Sheet.parse "@package btn as b;.a\x7b@use b;@package x as b;\x7d"

/-- A table with one package. -/
def onlyButton : PackageTable := .ofDescriptors [⟨"btn", .empty⟩]

theorem transform_moved_late_alias :
    (Reachable boundLate ∧ Reachable boundEarly ∧
      withoutAll isPackage boundLate.contents = withoutAll isPackage boundEarly.contents ∧
      (packageWords boundLate).Perm (packageWords boundEarly) ∧
      Unambiguous onlyButton boundLate) ∧
    (transform onlyButton boundLate).2.rulesExpanded =
      (transform onlyButton boundEarly).2.rulesExpanded ∧
    withoutAll isComment (transform onlyButton boundLate).1.contents =
      withoutAll isComment (transform onlyButton boundEarly).1.contents := by
  have hreach : Reachable boundLate ∧ Reachable boundEarly := ⟨.parse _, .parse _⟩
  have hlate : boundLate.contents = [node (.rule ".a") [leaf (.atRule "use" "b" false)],
      leaf (.atRule "package" "x as b" false), leaf (.atRule "package" "btn as b" false)] :=
    (contents_parse _).trans rfl
  have hearly : boundEarly.contents = [leaf (.atRule "package" "btn as b" false),
      node (.rule ".a") [leaf (.atRule "use" "b" false),
        leaf (.atRule "package" "x as b" false)]] :=
    (contents_parse _).trans rfl
  have htrees : withoutAll isPackage boundLate.contents =
      withoutAll isPackage boundEarly.contents := by
    rw [hlate, hearly]
    simp +decide [withoutAll, without, leaf]
  have hkinds : outermostAll isPackage boundLate.contents =
      [.atRule "package" "x as b" false, .atRule "package" "btn as b" false] := by
    rw [hlate]
    decide
  have hperm : (packageWords boundLate).Perm (packageWords boundEarly) := by
    rw [packageWords_eq hreach.1.linked, packageWords_eq hreach.2.linked, hkinds, hearly]
    decide
  have hone : Unambiguous onlyButton boundLate := by
    have hbound : ∀ i ∈ packageDirectives boundLate, ∀ b,
        binding? onlyButton (boundLate.kind i) = some b → b = ("b", "btn") := by
      intro i hi b hb
      have hk := List.mem_map_of_mem (f := boundLate.kind) hi
      rw [← outermostAll_isPackage hreach.1.linked, hkinds, List.mem_pair] at hk
      rcases hk with hk | hk <;> rw [hk] at hb
      · have hnone : binding? onlyButton (.atRule "package" "x as b" false) = none := by decide
        rw [hnone] at hb
        cases hb
      · have hsome : binding? onlyButton (.atRule "package" "btn as b" false) =
            some ("b", "btn") := by decide
        exact (Option.some.inj (hsome.symm.trans hb)).symm
    intro i hi j hj name package package' hpi hpj
    cases hbound i hi _ hpi
    cases hbound j hj _ hpj
    rfl
  obtain ⟨-, hrules, -, -, -, h⟩ := transform_moved _ hreach.1 hreach.2 htrees (.inr ⟨hperm, hone⟩)
  exact ⟨⟨hreach.1, hreach.2, htrees, hperm, hone⟩, hrules, h⟩

end StylePack
