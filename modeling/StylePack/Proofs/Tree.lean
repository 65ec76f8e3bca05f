import StylePack.Css.Tree

/-! The labels of a tree that have a property and stand below no other label that has it, and what
is left of a tree without them and what is below them. -/
namespace StylePack.Css.Tree
variable {α β : Type}

/-- A tree with nothing below its label. -/
def leaf (a : α) : Tree α := node a []

theorem label_mem_labels (t : Tree α) : t.label ∈ t.labels := by
  cases t
  rw [labels_node]
  exact List.mem_cons_self

theorem labels_leaves (as : List α) : (as.map leaf).flatMap labels = as := by
  induction as with
  | nil => rfl
  | cons a as ih =>
    rw [List.map_cons, List.flatMap_cons, ih, leaf, labels_node]
    rfl

mutual

/-- The labels with a property that stand below no other label with it. -/
def outermost (p : α → Bool) : Tree α → List α
  | node a ts => if p a then [a] else outermostAll p ts

def outermostAll (p : α → Bool) : List (Tree α) → List α
  | [] => []
  | t :: ts => outermost p t ++ outermostAll p ts

end

theorem outermostAll_eq_flatMap (p : α → Bool) (ts : List (Tree α)) :
    outermostAll p ts = ts.flatMap (outermost p) := by
  induction ts with
  | nil => rfl
  | cons t ts ih => rw [outermostAll, ih, List.flatMap_cons]

mutual

theorem outermost_map (p : β → Bool) (f : α → β) :
    (t : Tree α) → outermost p (t.map f) = (outermost (p ∘ f) t).map f
  | node a ts => by
    have h := outermostAll_mapAll p f ts
    simp only [map, outermost, Function.comp_apply]
    split
    · rfl
    · exact h

theorem outermostAll_mapAll (p : β → Bool) (f : α → β) :
    (ts : List (Tree α)) → outermostAll p (mapAll f ts) = (outermostAll (p ∘ f) ts).map f
  | [] => rfl
  | t :: ts => by
    have h := outermost_map p f t
    have hs := outermostAll_mapAll p f ts
    simp only [mapAll, outermostAll, List.map_append, h, hs]

end

mutual

/-- A tree without the nodes below its label that have a property; what is below them goes too. -/
def without (p : α → Bool) : Tree α → Tree α
  | node a ts => node a (withoutAll p ts)

def withoutAll (p : α → Bool) : List (Tree α) → List (Tree α)
  | [] => []
  | t :: ts => if p t.label then withoutAll p ts else without p t :: withoutAll p ts

end

@[simp] theorem label_without (p : α → Bool) (t : Tree α) : (without p t).label = t.label := by
  cases t
  rfl

theorem withoutAll_append (p : α → Bool) (ts us : List (Tree α)) :
    withoutAll p (ts ++ us) = withoutAll p ts ++ withoutAll p us := by
  induction ts with
  | nil => rfl
  | cons t ts ih =>
    rw [List.cons_append, withoutAll, withoutAll, ih]
    split <;> rfl

end StylePack.Css.Tree
