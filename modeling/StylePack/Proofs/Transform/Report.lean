import StylePack.Proofs.Transform.Totals

/-! The report of a transform in terms of the nodes of the sheet: which directives count, what is
said of each of them, and which rules get declarations. -/
namespace StylePack
open Css Css.Sheet Css.Tree
variable {P : PackageTable} {s : Sheet}

/-- The `@package` directives with no `@package` around them, in document order. -/
def packageDirectives (s : Sheet) : List Nat :=
  s.walk.filter (s.exposed fun i => isPackage (s.kind i))

/-- The `@use` directives with no directive around them, in document order. -/
def useDirectives (s : Sheet) : List Nat :=
  s.walk.filter fun i =>
    isUse (s.kind i) && s.exposed (fun a => isPackage (s.kind a) || isUse (s.kind a)) i

/-- The package that an alias stands for: the one that the first directive binds it to. -/
def aliasTarget (P : PackageTable) (s : Sheet) : String → Option String :=
  firstBinding P ((packageDirectives s).map s.kind)

/-- The aliases that are bound, one for each directive that binds one. -/
def boundNames (P : PackageTable) (s : Sheet) : List String :=
  (packageDirectives s).filterMap fun i => (binding? P (s.kind i)).map Prod.fst

/-- The problems of a `@package` directive, with the aliases that the directives before it bind. -/
def packageProblemsAt (P : PackageTable) (s : Sheet) (i : Nat) : List Diagnostic :=
  packageProblems P (firstBinding P (((packageDirectives s).takeWhile (· != i)).map s.kind))
    (s.kind i)

/-- A `@use` directive of a document; it is repeated if one before it has the same parent. -/
def useSite (s : Sheet) (i : Nat) : Site where
  inRule := (s.parent? i).any s.isRule
  repeated := ((useDirectives s).takeWhile (· != i)).any fun j => s.parent? j == s.parent? i
  kind := s.kind i

/-- Whether the first `@use` of a node has a word that stands for a package. -/
def usesPackage (P : PackageTable) (s : Sheet) (r : Nat) : Bool :=
  ((useDirectives s).find? fun i => s.parent? i == some r).any fun i =>
    (directiveWords (s.kind i)).any fun word => P.contains ((aliasTarget P s word).getD word)

theorem packageDirectives_eq (h : Linked s) :
    packageDirectives s = s.topmost (fun i => isPackage (s.kind i)) root :=
  (h.topmost_eq_filter _).symm

theorem useDirectives_eq (h : Linked s) : useDirectives s = usesBelow isPackage s root := by
  rw [usesBelow, h.topmost_eq_filter, List.filter_filter]
  rfl

theorem nodup_useDirectives (h : Linked s) : (useDirectives s).Nodup := h.nodup_walk.filter _

theorem mem_useDirectives {i : Nat} (hi : i ∈ useDirectives s) :
    i ∈ s.walk ∧ isUse (s.kind i) = true := by
  obtain ⟨hw, hu⟩ := List.mem_filter.mp hi
  exact ⟨hw, (Bool.and_eq_true_iff.mp hu).1⟩

theorem outermostAll_isPackage (h : Linked s) :
    outermostAll isPackage s.contents = (packageDirectives s).map s.kind := by
  rw [outermostAll_contents, packageDirectives_eq h]

theorem boundTo_contents (P : PackageTable) (h : Linked s) :
    boundTo P s.contents = aliasTarget P s := by
  rw [boundTo, outermostAll_isPackage h, aliasTarget]

/-- What is bound later does not matter to a `@package` directive. -/
theorem packageProblemsAt_eq (h : Linked s) {c : Nat} (hc : c ∈ packageDirectives s) :
    packageProblems P (aliasTarget P s) (s.kind c) = packageProblemsAt P s c := by
  rw [packageDirectives_eq h] at hc
  obtain ⟨done, p, l, r, ht⟩ := h.exists_turn hc
  obtain ⟨rest, horder⟩ := ht.order
  rw [packageProblemsAt, aliasTarget, packageDirectives_eq h, horder,
    takeWhile_ne (ht.notMem_done h), List.map_append, List.map_cons, packageProblems_append]

/-- Of the `@use` directives before one, those with its parent are those before it below that. -/
theorem siteAt_eq_useSite (h : Linked s) {c : Nat} (hc : c ∈ useDirectives s) :
    siteAt s c = useSite s c := by
  have huse := (mem_useDirectives hc).2
  have hmem := hc
  rw [useDirectives_eq h, usesBelow, List.mem_filter] at hmem
  obtain ⟨done, p, l, r, ht⟩ := h.exists_turn hmem.1
  obtain ⟨rest, horder⟩ := ht.order
  have hparent : s.parent? c = some p := h.mem_children.mp ht.mem_children
  have hlist : useDirectives s = done.filter (fun i => isUse (s.kind i)) ++
      c :: rest.filter (fun i => isUse (s.kind i)) := by
    rw [useDirectives_eq h, usesBelow, horder, List.filter_append, List.filter_cons, if_pos huse]
  have hnew : c ∉ done.filter fun i => isUse (s.kind i) :=
    fun hm => ht.notMem_done h (List.mem_of_mem_filter hm)
  have hbefore : (l.any fun i => isUse (s.kind i)) =
      (done.filter fun i => isUse (s.kind i)).any fun j => s.parent? j == s.parent? c := by
    rw [Bool.eq_iff_iff, List.any_eq_true, List.any_eq_true]
    constructor
    · rintro ⟨x, hx, hu⟩
      have hchild : x ∈ s.children p := by simp [ht.children_eq, hx]
      have hdone := (ht.mem_done x hchild).mpr ⟨hx, by simp [hu]⟩
      refine ⟨x, List.mem_filter.mpr ⟨hdone, hu⟩, ?_⟩
      rw [hparent, h.mem_children.mp hchild, beq_self_eq_true]
    · rintro ⟨x, hx, hp⟩
      obtain ⟨hdone, hu⟩ := List.mem_filter.mp hx
      have hchild : x ∈ s.children p := by
        rw [h.mem_children, ← hparent]
        exact eq_of_beq hp
      exact ⟨x, ((ht.mem_done x hchild).mp hdone).1, hu⟩
  rw [siteAt_eq h ht.children_eq, useSite, hlist, takeWhile_ne hnew, ← hbefore, hparent,
    Option.any_some]

theorem sites_useDirectives (h : Linked s) :
    sites isPackage false false s.contents = (useDirectives s).map (useSite s) := by
  rw [← sites_contents h (fun _ => not_isUse_of_isPackage), ← useDirectives_eq h]
  exact List.map_congr_left fun c hc => siteAt_eq_useSite h hc

/-- Of two different nodes in a list one comes before the other. -/
theorem mem_takeWhile_or {l : List Nat} (hl : l.Nodup) {a b : Nat} (ha : a ∈ l) (hb : b ∈ l)
    (hne : a ≠ b) : a ∈ l.takeWhile (· != b) ∨ b ∈ l.takeWhile (· != a) := by
  obtain ⟨l₁, l₂, rfl, hfirst⟩ := List.eq_append_cons_of_mem ha
  rcases List.mem_append.mp hb with hb | hb
  · right
    rwa [takeWhile_ne hfirst]
  · left
    obtain ⟨r₁, r₂, hr⟩ := List.append_of_mem ((List.mem_cons.mp hb).resolve_left hne.symm)
    have hsplit : l₁ ++ a :: l₂ = (l₁ ++ a :: r₁) ++ b :: r₂ := by
      rw [hr, List.append_assoc, List.cons_append]
    rw [hsplit] at hl ⊢
    rw [takeWhile_ne (notMem_around hl).1]
    simp

/-- The `@use` directives that put a package into their rule. -/
def injectors (P : PackageTable) (s : Sheet) : List Nat :=
  (useDirectives s).filter fun i => (useSite s i).injects P (aliasTarget P s)

theorem mem_injectors {i : Nat} : i ∈ injectors P s ↔ i ∈ useDirectives s ∧
    (∃ r, s.parent? i = some r ∧ s.isRule r = true) ∧
    (∀ j ∈ (useDirectives s).takeWhile (· != i), s.parent? j ≠ s.parent? i) ∧
    (directiveWords (s.kind i)).any
      (fun word => P.contains ((aliasTarget P s word).getD word)) = true := by
  simp [injectors, Site.injects, useSite, Option.any_eq_true, and_assoc]

/-- No rule has two of them. -/
theorem nodup_injectors (P : PackageTable) (h : Linked s) :
    ((injectors P s).map s.parent?).Nodup := by
  refine List.Nodup.map_on (fun i hi j hj heq => ?_) ((nodup_useDirectives h).filter _)
  obtain ⟨hiu, -, hifirst, -⟩ := mem_injectors.mp hi
  obtain ⟨hju, -, hjfirst, -⟩ := mem_injectors.mp hj
  by_contra hne
  rcases mem_takeWhile_or (nodup_useDirectives h) hiu hju hne with hm | hm
  · exact hjfirst i hm heq
  · exact hifirst j hm heq.symm

theorem mem_rules_iff (h : Linked s) {r : Nat} :
    r ∈ s.rules ↔ s.isAttached r = true ∧ s.isRule r = true := by
  rw [rules, List.mem_filter, h.mem_walk_iff, and_assoc, and_congr_right_iff]
  intro _
  rw [and_iff_right_iff_imp]
  rintro hr rfl
  rw [h.isRule_root] at hr
  cases hr

/-- The rules of these directives are those whose first `@use` has a word that stands for a
package. -/
theorem mem_injectors_parent_iff (P : PackageTable) (h : Linked s) (o : Option Nat) :
    o ∈ (injectors P s).map s.parent? ↔
      o ∈ (s.rules.filter (usesPackage P s)).map some := by
  rw [List.mem_map, List.mem_map]
  constructor
  · rintro ⟨i, hi, rfl⟩
    obtain ⟨hiu, ⟨r, hr, hrule⟩, hfirst, hwords⟩ := mem_injectors.mp hi
    refine ⟨r, List.mem_filter.mpr ⟨(mem_rules_iff h).mpr ⟨?_, hrule⟩, ?_⟩, hr.symm⟩
    · rw [← h.isAttached_parent hr]
      exact ((h.mem_walk_iff i).mp (mem_useDirectives hiu).1).1
    · obtain ⟨l, l', hl, hnew⟩ := List.eq_append_cons_of_mem hiu
      rw [hl, takeWhile_ne hnew] at hfirst
      have hfind : ((useDirectives s).find? fun j => s.parent? j == some r) = some i := by
        rw [List.find?_eq_some_iff_append]
        refine ⟨by simp [hr], l, l', hl, fun j hj => ?_⟩
        have hne := hfirst j hj
        rw [hr] at hne
        simpa using hne
      rw [usesPackage, hfind, Option.any_some]
      exact hwords
  · rintro ⟨r, hr, rfl⟩
    obtain ⟨hrules, huses⟩ := List.mem_filter.mp hr
    obtain ⟨i, hfind, hwords⟩ := (Option.any_eq_true ..).mp huses
    obtain ⟨hparent, l, l', hl, hbefore⟩ := List.find?_eq_some_iff_append.mp hfind
    have hpi : s.parent? i = some r := eq_of_beq hparent
    have hnew : i ∉ l := (notMem_around (hl ▸ nodup_useDirectives h)).1
    refine ⟨i, mem_injectors.mpr ⟨by simp [hl], ⟨r, hpi, ((mem_rules_iff h).mp hrules).2⟩, ?_,
      hwords⟩, hpi⟩
    intro j hj
    rw [hl, takeWhile_ne hnew] at hj
    rw [hpi]
    simpa using hbefore j hj

theorem length_injectors (P : PackageTable) (h : Linked s) :
    (injectors P s).length = (s.rules.filter (usesPackage P s)).length := by
  have hrules : ((s.rules.filter (usesPackage P s)).map some).Nodup :=
    ((h.nodup_walk.filter _).filter _).map fun _ _ => Option.some.inj
  have hperm := (List.perm_ext_iff_of_nodup (nodup_injectors P h) hrules).mpr
    (mem_injectors_parent_iff P h)
  simpa using hperm.length_eq

/-- The report of a transform: the problems of the `@package` directives and then those of the
`@use` directives, in document order, how many aliases are bound, and how many rules have a first
`@use` with a word that stands for a package. -/
theorem transform_report (P : PackageTable) (h : Reachable s) : (transform P s).2 =
    { diagnostics := (packageDirectives s).flatMap (packageProblemsAt P s) ++
        (useDirectives s).flatMap fun i => (useSite s i).problems P (aliasTarget P s)
      packagesLoaded := P.size
      aliasesRegistered := (boundNames P s).dedup.length
      rulesExpanded := (s.rules.filter (usesPackage P s)).length } := by
  have hdiagnostics := diagnostics_transform P h.linked
  have haliases := aliasesRegistered_transform P h.linked
  have hrules := rulesExpanded_transform P h.linked
  rw [outermostAll_isPackage h.linked, boundTo_contents P h.linked, sites_useDirectives h.linked,
    List.flatMap_map, List.flatMap_map] at hdiagnostics
  rw [outermostAll_isPackage h.linked, List.filterMap_map, List.map_filterMap] at haliases
  rw [boundTo_contents P h.linked, sites_useDirectives h.linked, List.countP_map,
    List.countP_eq_length_filter] at hrules
  have hpackages : ((packageDirectives s).flatMap fun i =>
      packageProblems P (aliasTarget P s) (s.kind i)) =
        (packageDirectives s).flatMap (packageProblemsAt P s) :=
    List.flatMap_congr fun c hc => packageProblemsAt_eq h.linked hc
  rw [hpackages] at hdiagnostics
  have hinjected := hrules.trans (length_injectors P h.linked)
  exact Report.ext hdiagnostics rfl haliases hinjected

theorem transform_report_late_alias :
    Reachable (Sheet.parse ".a\x7b@use b x;@use c d;\x7d@package btn as b;@package card as b;") ∧
      (transform (.ofDescriptors [⟨"btn", ⟨[("color", "red")], by decide⟩⟩, ⟨"card", .empty⟩])
        (Sheet.parse
          ".a\x7b@use b x;@use c d;\x7d@package btn as b;@package card as b;")).2 =
        { diagnostics := [.aliasTaken "b" "btn" "card", .unknownInUse "x", .repeatedUse "c d"]
          packagesLoaded := 2
          aliasesRegistered := 1
          rulesExpanded := 1 } := by
  refine ⟨.parse _, (transform_report _ (.parse _)).trans ?_⟩
  decide +kernel

end StylePack
