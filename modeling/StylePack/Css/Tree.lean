import StylePack.Css.Declaration

/-! Stylesheets as trees. A tree is labelled; with node kinds as labels it is a stylesheet's
content, with numbers it is the outline of a sheet. -/
namespace StylePack.Css

/-- A label and the trees below it, in order. -/
inductive Tree (α : Type)
  | node (label : α) (children : List (Tree α))
  deriving Repr

/-- What a node of a stylesheet is. -/
inductive Kind
  | root
  | rule (selector : String)
  | atRule (name params : String) (hasBlock : Bool)
  | declaration (content : Declaration)
  | comment (text : String)
  deriving DecidableEq, Repr, Inhabited

namespace Kind

def selector? : Kind → Option String
  | rule selector => some selector
  | _ => none

def params? : Kind → Option String
  | atRule _ params _ => some params
  | _ => none

def declaration? : Kind → Option Declaration
  | declaration content => some content
  | _ => none

def isRule (k : Kind) : Bool := k.selector?.isSome

/-- An at-rule with this name, in letters of either case. -/
def isAtRule (name : String) : Kind → Bool
  | atRule n _ _ => Text.sameName n name
  | _ => false

end Kind

namespace Tree

def label {α : Type} : Tree α → α
  | node label _ => label

def children {α : Type} : Tree α → List (Tree α)
  | node _ children => children

mutual

def map {α β : Type} (f : α → β) : Tree α → Tree β
  | node label children => node (f label) (mapAll f children)

def mapAll {α β : Type} (f : α → β) : List (Tree α) → List (Tree β)
  | [] => []
  | t :: ts => t.map f :: mapAll f ts

end

mutual

/-- The labels of a tree, each before those below it. -/
def labels {α : Type} : Tree α → List α
  | node label children => label :: labelsAll children

def labelsAll {α : Type} : List (Tree α) → List α
  | [] => []
  | t :: ts => t.labels ++ labelsAll ts

end

@[simp] theorem mapAll_eq_map {α β : Type} (f : α → β) (ts : List (Tree α)) :
    mapAll f ts = ts.map (map f) := by
  induction ts with
  | nil => rfl
  | cons t ts ih => simp [mapAll, ih]

@[simp] theorem labelsAll_eq_flatMap {α : Type} (ts : List (Tree α)) :
    labelsAll ts = ts.flatMap labels := by
  induction ts with
  | nil => rfl
  | cons t ts ih => simp [labelsAll, ih]

theorem map_node {α β : Type} (f : α → β) (a : α) (ts : List (Tree α)) :
    map f (node a ts) = node (f a) (ts.map (map f)) := by simp [map]

theorem labels_node {α : Type} (a : α) (ts : List (Tree α)) :
    labels (node a ts) = a :: ts.flatMap labels := by simp [labels]

mutual

theorem labels_map {α β : Type} (f : α → β) : (t : Tree α) → (t.map f).labels = t.labels.map f
  | node label children => by
    have h := labelsAll_mapAll f children
    simp_all [map, labels]

theorem labelsAll_mapAll {α β : Type} (f : α → β) :
    (ts : List (Tree α)) → labelsAll (mapAll f ts) = (labelsAll ts).map f
  | [] => rfl
  | t :: ts => by
    have h := labels_map f t
    have hs := labelsAll_mapAll f ts
    simp_all

end

end Tree
end StylePack.Css
