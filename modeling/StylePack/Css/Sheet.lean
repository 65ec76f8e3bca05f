import StylePack.Css.Tree

/-! Sheets: stylesheets whose nodes are numbered, so that they can be edited in place. Node `0` is
the root. Numbers are never reused, and a node that was removed keeps its number. -/
namespace StylePack.Css

structure SheetNode where
  kind : Kind
  parent : Option Nat
  children : List Nat
  deriving DecidableEq, Repr, Inhabited

/-- The nodes of a stylesheet by their numbers. A node below another one has the larger number, so
that following the children downwards comes to an end. -/
structure Sheet where
  nodes : Array SheetNode
  ascending : ∀ (i : Nat) (n : SheetNode), nodes[i]? = some n →
    ∀ c ∈ n.children, i < c ∧ c < nodes.size

namespace Sheet

def root : Nat := 0

/-- The sheet with no node but its root. -/
def empty : Sheet where
  nodes := #[⟨.root, none, []⟩]
  ascending i n h c hc := by
    rcases i with _ | i <;> simp at h
    simp [← h] at hc

instance : Inhabited Sheet := ⟨empty⟩

/-- How many numbers are taken; the next node gets this number. -/
def size (s : Sheet) : Nat := s.nodes.size

def kind? (s : Sheet) (i : Nat) : Option Kind := s.nodes[i]?.map (·.kind)

def parent? (s : Sheet) (i : Nat) : Option Nat := s.nodes[i]?.bind (·.parent)

/-- The nodes directly below a node; none for a number that is not taken. -/
def children (s : Sheet) (i : Nat) : List Nat := (s.nodes[i]?.map (·.children)).getD []

theorem lt_of_mem_children {s : Sheet} {i c : Nat} (h : c ∈ s.children i) : i < c ∧ c < s.size := by
  unfold children at h
  cases hn : s.nodes[i]? with
  | none => simp [hn] at h
  | some n => exact s.ascending i n hn c (by simpa [hn] using h)

/-- What holds of a node once it holds of the nodes directly below it, holds of every node. -/
@[elab_as_elim]
theorem downward (s : Sheet) {motive : Nat → Prop}
    (step : ∀ a, (∀ c ∈ s.children a, motive c) → motive a) (a : Nat) : motive a :=
  step a fun c hc =>
    have := lt_of_mem_children hc
    s.downward step c
termination_by s.size - a

def kind (s : Sheet) (i : Nat) : Kind := (s.kind? i).getD .root

def isRule (s : Sheet) (i : Nat) : Bool := (s.kind? i).any Kind.isRule

def selector? (s : Sheet) (i : Nat) : Option String := (s.kind? i).bind Kind.selector?

def params? (s : Sheet) (i : Nat) : Option String := (s.kind? i).bind Kind.params?

/-- The declarations directly below a node, in order. -/
def declarations (s : Sheet) (i : Nat) : List Declaration :=
  (s.children i).filterMap fun c => (s.kind? c).bind Kind.declaration?

/-- Whether the root is met within `steps` steps from a node to its parent. -/
def reachesRoot (s : Sheet) : Nat → Nat → Bool
  | 0, i => i == root
  | steps + 1, i => i == root || (match s.parent? i with
    | some p => s.reachesRoot steps p
    | none => false)

/-- Whether a node belongs to the stylesheet still: the root is among it and its ancestors. -/
def isAttached (s : Sheet) (i : Nat) : Bool := s.reachesRoot s.size i

/-- The numbers below a node, as trees. -/
def outlineBelow (s : Sheet) (i : Nat) : List (Tree Nat) :=
  (s.children i).attach.map fun c =>
    have := lt_of_mem_children c.2
    .node c.1 (s.outlineBelow c.1)
termination_by s.size - i

theorem outlineBelow_eq (s : Sheet) (i : Nat) :
    s.outlineBelow i = (s.children i).map fun c => .node c (s.outlineBelow c) := by
  rw [outlineBelow]
  exact List.attach_map_val (f := fun c => Tree.node c (s.outlineBelow c))

/-- The numbers of the nodes that belong to the stylesheet, except the root, as trees. -/
def outline (s : Sheet) : List (Tree Nat) := s.outlineBelow root

/-- What belongs to the stylesheet, as trees. -/
def contents (s : Sheet) : List (Tree Kind) := s.outline.map (Tree.map s.kind)

/-- The nodes below a node, in document order. -/
def below (s : Sheet) (i : Nat) : List Nat := (s.outlineBelow i).flatMap Tree.labels

/-- The nodes that belong to the stylesheet, except the root, in document order. -/
def walk (s : Sheet) : List Nat := s.below root

theorem below_eq (s : Sheet) (i : Nat) :
    s.below i = (s.children i).flatMap fun c => c :: s.below c := by
  unfold below
  rw [outlineBelow_eq, List.flatMap_map]
  congr 1
  funext c
  rw [Tree.labels_node]

/-- The rules of the stylesheet, in document order. -/
def rules (s : Sheet) : List Nat := s.walk.filter s.isRule

/-- The at-rules with a name, in document order. -/
def atRules (s : Sheet) (name : String) : List Nat :=
  s.walk.filter fun i => (s.kind? i).any (Kind.isAtRule name)

end Sheet
end StylePack.Css
