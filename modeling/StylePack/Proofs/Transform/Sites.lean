import StylePack.Proofs.Sheet.Exposed
import StylePack.Proofs.Transform.Used

/-! Where the `@use` directives of a stylesheet stand. What becomes of one depends on whether it
stands in a rule and on whether another one stands before it there. -/
namespace StylePack
open Css Css.Sheet Css.Tree

/-- A `@use` directive, in a rule or elsewhere; `repeated` if one stands before it there. -/
structure Site where
  inRule : Bool
  repeated : Bool
  kind : Kind

namespace Site

/-- The problems of the directive. -/
def problems (P : PackageTable) (A : String → Option String) (u : Site) : List Diagnostic :=
  useProblems P A u.inRule u.repeated u.kind

/-- Whether the directive puts a package into its rule. -/
def injects (P : PackageTable) (A : String → Option String) (u : Site) : Bool :=
  u.inRule && !u.repeated && (directiveWords u.kind).any fun word => P.contains ((A word).getD word)

end Site

section
variable (skip : Kind → Bool)

mutual

/-- The `@use` directives below a node that is none, without those that stand below another one or
below a node that is skipped. -/
def sitesIn : Css.Tree Kind → List Site
  | node k ts => sites k.isRule false ts

/-- Those among some of the nodes directly below one node, and below them: whether it is a rule, and
whether a `@use` stands before them. -/
def sites (inRule used : Bool) : List (Css.Tree Kind) → List Site
  | [] => []
  | t :: ts =>
    if skip t.label then sites inRule used ts
    else if isUse t.label then ⟨inRule, used, t.label⟩ :: sites inRule true ts
    else sitesIn t ++ sites inRule used ts

end
end

section
variable {P : PackageTable} {A : String → Option String}

theorem sites_comments (inRule used : Bool) (ds : List Diagnostic) (ts : List (Css.Tree Kind)) :
    sites (fun _ => false) inRule used ((notesOf ds).map leaf ++ ts) =
      sites (fun _ => false) inRule used ts := by
  induction ds with
  | nil => rfl
  | cons d ds ih =>
    have hleaf : sitesIn (fun _ => false) (leaf (.comment d.comment)) = [] := rfl
    have huse : isUse (leaf (Kind.comment d.comment)).label = false := rfl
    simp only [notesOf, List.map_cons, List.cons_append, sites, hleaf, huse, List.nil_append,
      Bool.false_eq_true, if_false] at ih ⊢
    exact ih

mutual

theorem sitesIn_bound :
    (t : Css.Tree Kind) → sitesIn (fun _ => false) (bound P A t) = sitesIn isPackage t
  | node k ts => sites_boundAll k.isRule false ts

/-- What is left after the `@package` directives has the same `@use` directives. -/
theorem sites_boundAll (inRule used : Bool) : (ts : List (Css.Tree Kind)) →
    sites (fun _ => false) inRule used (boundAll P A ts) = sites isPackage inRule used ts
  | [] => rfl
  | t :: ts => by
    have ht := sitesIn_bound t
    have hts := sites_boundAll inRule used ts
    have hts' := sites_boundAll inRule true ts
    rw [boundAll, sites]
    by_cases hp : isPackage t.label
    · rw [if_pos hp, if_pos hp, sites_comments, hts]
    · rw [if_neg hp, if_neg hp, List.singleton_append, sites, label_bound, hts, hts', ht]
      simp

end

mutual

theorem sitesIn_without :
    (t : Css.Tree Kind) → sitesIn isPackage (without isPackage t) = sitesIn isPackage t
  | node k ts => sites_withoutAll k.isRule false ts

/-- The `@package` directives do not matter to where the `@use` directives stand. -/
theorem sites_withoutAll (inRule used : Bool) : (ts : List (Css.Tree Kind)) →
    sites isPackage inRule used (withoutAll isPackage ts) = sites isPackage inRule used ts
  | [] => rfl
  | t :: ts => by
    have ht := sitesIn_without t
    have hts := sites_withoutAll inRule used ts
    have hts' := sites_withoutAll inRule true ts
    rw [withoutAll, sites]
    by_cases hp : isPackage t.label
    · rw [if_pos hp, if_pos hp, hts]
    · rw [if_neg hp, if_neg hp, sites, label_without, if_neg hp, hts, hts', ht]

end

end

section
variable {P : PackageTable} {A : String → Option String} {s : Sheet} {skip : Kind → Bool}

/-- Where the `@use` directive with this number stands. -/
def siteAt (s : Sheet) (c : Nat) : Site where
  inRule := (s.parent? c).any s.isRule
  repeated := (s.parent? c).any fun p =>
    ((s.children p).takeWhile (· != c)).any fun i => isUse (s.kind i)
  kind := s.kind c

theorem siteAt_eq (hs : Linked s) {p c : Nat} {l r : List Nat}
    (hlr : s.children p = l ++ c :: r) :
    siteAt s c = ⟨s.isRule p, l.any fun i => isUse (s.kind i), s.kind c⟩ := by
  have hparent : s.parent? c = some p := hs.mem_children.mp (by simp [hlr])
  have hl := (notMem_around (hlr ▸ hs.nodup_children p)).1
  simp only [siteAt, hparent, Option.any_some, hlr, takeWhile_ne hl]

theorem useProblemsAt_eq_problems :
    useProblemsAt P A s = fun c => (siteAt s c).problems P A := by
  funext c
  unfold useProblemsAt siteAt Site.problems
  cases s.parent? c with
  | none => simp [useProblems]
  | some p => rfl

/-- The `@use` directives with nothing around them that is skipped or a `@use`. -/
def usesBelow (skip : Kind → Bool) (s : Sheet) (i : Nat) : List Nat :=
  (s.topmost (fun i => skip (s.kind i) || isUse (s.kind i)) i).filter fun i => isUse (s.kind i)

/-- Where the directives in the last children `r` of a node stand, if it is known for what is below
them. -/
theorem sites_children (hs : Linked s) (hskip : ∀ k, skip k = true → isUse k = false) {p : Nat}
    {l r : List Nat} (hlr : s.children p = l ++ r)
    (hbelow : ∀ c ∈ s.children p, (usesBelow skip s c).map (siteAt s) =
      sites skip (s.isRule c) false (s.subtrees c)) :
    ((r.flatMap (s.branch fun i => skip (s.kind i) || isUse (s.kind i))).filter
        fun i => isUse (s.kind i)).map (siteAt s) =
      sites skip (s.isRule p) (l.any fun i => isUse (s.kind i))
        (r.map fun c => .node (s.kind c) (s.subtrees c)) := by
  induction r generalizing l with
  | nil => rfl
  | cons c r ih =>
    have hc : c ∈ s.children p := by simp [hlr]
    have hnext := ih (l := l ++ [c]) (by simp [hlr])
    have hbranch := hbelow c hc
    unfold usesBelow at hbranch
    rw [List.any_append] at hnext
    rw [List.flatMap_cons, List.filter_append, List.map_append, hnext, List.map_cons, sites,
      branch, sitesIn, ← isRule_eq, ← hbranch]
    by_cases hk : skip (s.kind c)
    · have hu := hskip _ hk
      simp [label, hk, hu]
    · by_cases hu : isUse (s.kind c)
      · simp [label, hk, hu, siteAt_eq hs hlr]
      · simp [label, hk, hu]

theorem sites_below (hs : Linked s) (hskip : ∀ k, skip k = true → isUse k = false) (p : Nat) :
    (usesBelow skip s p).map (siteAt s) = sites skip (s.isRule p) false (s.subtrees p) := by
  induction p using s.downward with
  | step p ih =>
    rw [usesBelow, topmost_eq, s.subtrees_eq p]
    exact sites_children hs hskip (l := []) rfl ih

/-- The directives of a sheet stand where its content says. -/
theorem sites_contents (hs : Linked s) (hskip : ∀ k, skip k = true → isUse k = false) :
    (usesBelow skip s root).map (siteAt s) = sites skip false false s.contents := by
  rw [sites_below hs hskip, hs.isRule_root, contents_eq]

/-- Where nothing is skipped. -/
theorem usesBelow_none (s : Sheet) : usesBelow (fun _ => false) s root =
    s.topmost (fun i => isUse (s.kind i)) root := by
  unfold usesBelow
  simp only [Bool.false_or]
  rw [List.filter_eq_self]
  exact fun x hx => (mem_below_of_mem_topmost hx).2

end
end StylePack
