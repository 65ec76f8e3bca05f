import StylePack.Proofs.Tree
import StylePack.Transform

/-! The expansion of a stylesheet as a recursion on its content. Every node that is no directive is
copied; a directive goes with all that is below it, and the problems with it are noted in its
place. The declarations of the packages that a rule uses come after its other nodes.

The expansion has two halves, `bound` for `@package` and `applied` for `@use`; one after the other
they come to the same as both at once (`appliedAll_boundAll`). -/
namespace StylePack
open Css Css.Tree

def isPackage (k : Kind) : Bool := k.isAtRule "package"

def isUse (k : Kind) : Bool := k.isAtRule "use"

/-- The words of a directive. -/
def directiveWords (k : Kind) : List String := Text.wordsOf (k.params?.getD "")

/-- The alias that a `@package` directive binds, with its package. -/
def binding? (P : PackageTable) (k : Kind) : Option (String × String) :=
  match directiveWords k with
  | [package, keyword, name] =>
    if Text.sameName keyword "as" && P.contains package then some (name, package) else none
  | _ => none

/-- The package to which the first of the directives that binds an alias binds it. -/
def firstBinding (P : PackageTable) (ks : List Kind) (name : String) : Option String :=
  (ks.filterMap (binding? P)).lookup name

/-- The package that an alias stands for in a stylesheet. -/
def boundTo (P : PackageTable) (ts : List (Css.Tree Kind)) : String → Option String :=
  firstBinding P (outermostAll isPackage ts)

section
variable (P : PackageTable) (A : String → Option String)

/-- The problems of a `@package` directive, where `A` says what the aliases stand for. -/
def packageProblems (k : Kind) : List Diagnostic :=
  match directiveWords k with
  | [package, keyword, name] =>
    if !Text.sameName keyword "as" then []
    else if !P.contains package then [.unknownPackage package]
    else match A name with
      | some existing => if existing = package then [] else [.aliasTaken name existing package]
      | none => []
  | _ => []

/-- What is wrong with a word of a `@use` directive. -/
def unknownWord? (word : String) : Option Diagnostic :=
  if P.contains ((A word).getD word) then none else some (.unknownInUse ((A word).getD word))

/-- The problems of a `@use` directive, in a rule or elsewhere; `repeated` if one stands before it
in the rule. -/
def useProblems (inRule repeated : Bool) (k : Kind) : List Diagnostic :=
  if !inRule then []
  else if repeated then [.repeatedUse (" ".intercalate (directiveWords k))]
  else (directiveWords k).filterMap (unknownWord? P A)

/-- The declarations of the package that a word stands for, or none where there is none. -/
def stylesOf (word : String) : List Kind :=
  match P.get? ((A word).getD word) with
  | some package => package.styles.entries.map fun e => .declaration ⟨e.1, e.2, false⟩
  | none => []

/-- The declarations that a `@use` directive puts into its rule. -/
def injected (k : Kind) : List Kind := (directiveWords k).flatMap (stylesOf P A)

/-- What a rule with these nodes gets; only its first `@use` counts. -/
def addedTo (inRule : Bool) (children : List Kind) : List Kind :=
  if inRule then ((children.find? isUse).map (injected P A)).getD [] else []

/-- The comments that note problems. -/
def notesOf (ds : List Diagnostic) : List Kind := ds.map fun d => .comment d.comment

mutual

/-- What becomes of a node that is no directive. -/
def expanded : Css.Tree Kind → Css.Tree Kind
  | node k ts =>
    node k (expandedAll k.isRule false ts ++ (addedTo P A k.isRule (ts.map label)).map leaf)

/-- What becomes of some of the nodes directly below one node: whether it is a rule, and whether a
`@use` stands before them. -/
def expandedAll (inRule used : Bool) : List (Css.Tree Kind) → List (Css.Tree Kind)
  | [] => []
  | t :: ts =>
    if isPackage t.label then
      (notesOf (packageProblems P A t.label)).map leaf ++ expandedAll inRule used ts
    else if isUse t.label then
      (notesOf (useProblems P A inRule used t.label)).map leaf ++
        expandedAll inRule true ts
    else expanded t :: expandedAll inRule used ts

end

mutual

/-- The half of the expansion that is about `@package`. -/
def bound : Css.Tree Kind → Css.Tree Kind
  | node k ts => node k (boundAll ts)

def boundAll : List (Css.Tree Kind) → List (Css.Tree Kind)
  | [] => []
  | t :: ts =>
    (if isPackage t.label then (notesOf (packageProblems P A t.label)).map leaf else [bound t]) ++
      boundAll ts

end

mutual

/-- The half of the expansion that is about `@use`. -/
def applied : Css.Tree Kind → Css.Tree Kind
  | node k ts =>
    node k (appliedAll k.isRule false ts ++ (addedTo P A k.isRule (ts.map label)).map leaf)

def appliedAll (inRule used : Bool) : List (Css.Tree Kind) → List (Css.Tree Kind)
  | [] => []
  | t :: ts =>
    if isUse t.label then
      (notesOf (useProblems P A inRule used t.label)).map leaf ++
        appliedAll inRule true ts
    else applied t :: appliedAll inRule used ts

end

/-- The content of a stylesheet after its expansion. -/
def expansion (ts : List (Css.Tree Kind)) : List (Css.Tree Kind) :=
  expandedAll P (boundTo P ts) false false ts

end

section
variable {P : PackageTable} {A : String → Option String}

@[simp] theorem label_bound (t : Css.Tree Kind) : (bound P A t).label = t.label := by
  cases t
  rfl

theorem appliedAll_comments (inRule used : Bool) (ds : List Diagnostic)
    (ts : List (Css.Tree Kind)) :
    appliedAll P A inRule used ((notesOf ds).map leaf ++ ts) =
      (notesOf ds).map leaf ++ appliedAll P A inRule used ts := by
  induction ds with
  | nil => rfl
  | cons d ds ih =>
    have hleaf : ∀ text, applied P A (leaf (.comment text)) = leaf (.comment text) := by
      intro text
      simp [leaf, applied, appliedAll, addedTo, Kind.isRule, Kind.selector?]
    simp only [notesOf, List.map_cons, List.cons_append, appliedAll, hleaf] at ih ⊢
    rw [ih]
    simp [leaf, label, isUse, Kind.isAtRule]

theorem not_isUse_of_isPackage {k : Kind} (h : isPackage k = true) : isUse k = false := by
  cases k with
  | atRule name params hasBlock =>
    refine Bool.eq_false_iff.mpr fun hu => ?_
    have h' : Text.sameLetters "package".toList name.toList = true :=
      (Text.sameLetters_comm _ _).trans h
    exact absurd (Text.sameLetters_trans h' hu) (by decide)
  | _ => exact absurd h Bool.false_ne_true

/-- The nodes that the first half leaves have the same first `@use`. -/
theorem find?_isUse_boundAll (ts : List (Css.Tree Kind)) :
    ((boundAll P A ts).map label).find? isUse = (ts.map label).find? isUse := by
  induction ts with
  | nil => rfl
  | cons t ts ih =>
    have hnotes : ∀ ds : List Diagnostic,
        (((notesOf ds).map leaf).map label).find? isUse = none := by
      intro ds
      simp [notesOf, leaf, label, isUse, Kind.isAtRule]
    rw [boundAll, List.map_append, List.find?_append, ih, List.map_cons, List.find?_cons]
    by_cases hp : isPackage t.label
    · rw [if_pos hp, hnotes, Option.none_or, not_isUse_of_isPackage hp]
    · cases hu : isUse t.label <;> simp [hp, hu]

mutual

theorem applied_bound : (t : Css.Tree Kind) → applied P A (bound P A t) = expanded P A t
  | node k ts => by
    rw [bound, applied, expanded, appliedAll_boundAll, addedTo, addedTo, find?_isUse_boundAll]

/-- Both halves of the expansion, one after the other, are the whole. -/
theorem appliedAll_boundAll (inRule used : Bool) : (ts : List (Css.Tree Kind)) →
    appliedAll P A inRule used (boundAll P A ts) = expandedAll P A inRule used ts
  | [] => rfl
  | t :: ts => by
    have ht := applied_bound t
    have hts := appliedAll_boundAll inRule used ts
    have hts' := appliedAll_boundAll inRule true ts
    rw [boundAll, expandedAll]
    by_cases hp : isPackage t.label
    · rw [if_pos hp, if_pos hp, appliedAll_comments, hts]
    · rw [if_neg hp, if_neg hp, List.singleton_append, appliedAll, label_bound, hts, hts', ht]

end

end

end StylePack
