import StylePack.Css.Sheet

/-! Edits of a sheet: adding a node below another one or before it, and removing a node. -/
namespace StylePack.Css.Sheet

/-- A new node that no node lists among its children yet. -/
def allocate (s : Sheet) (kind : Kind) (parent : Nat) : Sheet where
  nodes := s.nodes.push ⟨kind, some parent, []⟩
  ascending i n h c hc := by
    rw [Array.getElem?_push] at h
    rw [Array.size_push]
    split at h
    · cases h; simp at hc
    · have := s.ascending i n h c hc
      omega

/-- The sheet with other children below a node. -/
def setChildren (s : Sheet) (i : Nat) (cs : List Nat) (h : ∀ c ∈ cs, i < c ∧ c < s.size) :
    Sheet where
  nodes := s.nodes.modify i ({ · with children := cs })
  ascending j n hn c hc := by
    rw [Array.getElem?_modify] at hn
    rw [Array.size_modify]
    split at hn
    · obtain ⟨m, -, rfl⟩ := Option.map_eq_some_iff.1 hn
      rename_i hij
      exact hij ▸ h c hc
    · exact s.ascending j n hn c hc

/-- The sheet with a node that no longer has a parent. -/
def clearParent (s : Sheet) (i : Nat) : Sheet where
  nodes := s.nodes.modify i ({ · with parent := none })
  ascending j n hn c hc := by
    rw [Array.getElem?_modify] at hn
    rw [Array.size_modify]
    split at hn
    · obtain ⟨m, hm, rfl⟩ := Option.map_eq_some_iff.1 hn
      exact s.ascending j m hm c hc
    · exact s.ascending j n hn c hc

@[simp] theorem size_allocate (s : Sheet) (kind : Kind) (parent : Nat) :
    (s.allocate kind parent).size = s.size + 1 := by
  simp [size, allocate]

@[simp] theorem size_setChildren (s : Sheet) (i : Nat) (cs : List Nat) (h) :
    (s.setChildren i cs h).size = s.size := by
  simp [size, setChildren]

@[simp] theorem size_clearParent (s : Sheet) (i : Nat) : (s.clearParent i).size = s.size := by
  simp [size, clearParent]

/-- Adds a last child to `parent` and gives its number. Below a number that is not taken yet the
new node is in no list of children. -/
def append (s : Sheet) (parent : Nat) (kind : Kind) : Sheet × Nat :=
  let new := s.size
  if h : parent < new then
    ((s.allocate kind parent).setChildren parent (s.children parent ++ [new]) (by
      intro c hc
      rw [size_allocate]
      rcases List.mem_append.1 hc with hc | hc
      · have := lt_of_mem_children hc
        omega
      · have := List.mem_singleton.1 hc
        omega), new)
  else (s.allocate kind parent, new)

/-- A list with `new` put before the first `target`. -/
def placeBefore (new target : Nat) : List Nat → List Nat
  | [] => []
  | c :: cs => if c = target then new :: c :: cs else c :: placeBefore new target cs

theorem mem_placeBefore {new target c : Nat} {cs : List Nat} (h : c ∈ placeBefore new target cs) :
    c = new ∨ c ∈ cs := by
  fun_induction placeBefore new target cs with
  | case1 => simp at h
  | case2 => simpa using h
  | case3 d ds _ ih =>
    rcases List.mem_cons.1 h with rfl | h
    · simp
    · rcases ih h with h | h <;> simp [h]

/-- Adds a node directly before `target` and gives its number. The root and a node that was
removed have nothing before them. -/
def insertBefore (s : Sheet) (target : Nat) (kind : Kind) : Option (Sheet × Nat) :=
  match s.parent? target with
  | none => none
  | some parent =>
    if ht : target ∈ s.children parent then
      let new := s.size
      some ((s.allocate kind parent).setChildren parent
        (placeBefore new target (s.children parent)) (by
          intro c hc
          rw [size_allocate]
          have := lt_of_mem_children ht
          rcases mem_placeBefore hc with hc | hc
          · omega
          · have := lt_of_mem_children hc
            omega), new)
    else none

/-- Takes a node and what is below it out of the stylesheet. -/
def remove (s : Sheet) (i : Nat) : Sheet :=
  match s.parent? i with
  | none => s
  | some parent =>
    (s.setChildren parent ((s.children parent).filter (· != i))
      (fun _ hc => lt_of_mem_children (List.mem_filter.1 hc).1)).clearParent i

mutual

/-- Adds a tree below a node, each node before those below it. -/
def graft (s : Sheet) (parent : Nat) : Tree Kind → Sheet
  | .node kind children =>
    let (s', i) := s.append parent kind
    s'.graftAll i children

def graftAll (s : Sheet) (parent : Nat) : List (Tree Kind) → Sheet
  | [] => s
  | t :: ts => (s.graft parent t).graftAll parent ts

end

/-- The sheet with the given content, numbered in document order. -/
def ofTrees (ts : List (Tree Kind)) : Sheet := empty.graftAll root ts

end StylePack.Css.Sheet
