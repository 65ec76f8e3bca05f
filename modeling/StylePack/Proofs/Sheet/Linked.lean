import Mathlib.Data.List.Nodup
import Mathlib.Data.Nat.Basic
import Mathlib.Order.Basic
import StylePack.Css.Sheet.Text

/-! What the edits of a sheet do to its links. A sheet that was built by edits is linked: the
parents and the lists of children say the same, and no node is listed twice. -/
namespace StylePack.Css.Sheet
variable {s s' : Sheet} {kind : Kind} {p c i : Nat} {cs : List Nat}

theorem kind?_allocate (s : Sheet) (kind : Kind) (parent i : Nat) :
    (s.allocate kind parent).kind? i = if i = s.size then some kind else s.kind? i := by
  simp only [kind?, allocate, size, Array.getElem?_push]
  by_cases h : i = s.nodes.size <;> simp [h]

theorem parent?_allocate (s : Sheet) (kind : Kind) (parent i : Nat) :
    (s.allocate kind parent).parent? i = if i = s.size then some parent else s.parent? i := by
  simp only [parent?, allocate, size, Array.getElem?_push]
  by_cases h : i = s.nodes.size <;> simp [h]

@[simp] theorem children_allocate (s : Sheet) (kind : Kind) (parent i : Nat) :
    (s.allocate kind parent).children i = s.children i := by
  simp only [children, allocate, Array.getElem?_push]
  split
  · rename_i h
    simp [h]
  · rfl

@[simp] theorem kind?_setChildren (s : Sheet) (i : Nat) (cs : List Nat) (h) (j : Nat) :
    (s.setChildren i cs h).kind? j = s.kind? j := by
  simp only [kind?, setChildren, Array.getElem?_modify]
  split <;> cases s.nodes[j]? <;> rfl

@[simp] theorem parent?_setChildren (s : Sheet) (i : Nat) (cs : List Nat) (h) (j : Nat) :
    (s.setChildren i cs h).parent? j = s.parent? j := by
  simp only [parent?, setChildren, Array.getElem?_modify]
  split <;> cases s.nodes[j]? <;> rfl

theorem children_setChildren (s : Sheet) (cs : List Nat) (h) (hi : i < s.size) (j : Nat) :
    (s.setChildren i cs h).children j = if j = i then cs else s.children j := by
  simp only [children, setChildren, Array.getElem?_modify, eq_comm (a := j)]
  split
  · rename_i hj
    subst hj
    rw [Array.getElem?_eq_getElem hi]
    rfl
  · rfl

@[simp] theorem kind?_clearParent (s : Sheet) (i j : Nat) :
    (s.clearParent i).kind? j = s.kind? j := by
  simp only [kind?, clearParent, Array.getElem?_modify]
  split <;> cases s.nodes[j]? <;> rfl

theorem parent?_clearParent (s : Sheet) (i j : Nat) :
    (s.clearParent i).parent? j = if j = i then none else s.parent? j := by
  simp only [parent?, clearParent, Array.getElem?_modify, eq_comm (a := j)]
  split <;> cases s.nodes[j]? <;> rfl

@[simp] theorem children_clearParent (s : Sheet) (i j : Nat) :
    (s.clearParent i).children j = s.children j := by
  simp only [children, clearParent, Array.getElem?_modify]
  split <;> cases s.nodes[j]? <;> rfl

theorem kind?_eq_none (h : s.size ≤ i) : s.kind? i = none := by
  simp only [kind?, size] at *
  rw [Array.getElem?_eq_none h, Option.map_none]

theorem lt_of_kind? {kind : Kind} (h : s.kind? i = some kind) : i < s.size := by
  by_contra hi
  rw [kind?_eq_none (Nat.le_of_not_lt hi)] at h
  cases h

theorem parent?_eq_none (h : s.size ≤ i) : s.parent? i = none := by
  simp only [parent?, size] at *
  rw [Array.getElem?_eq_none h, Option.bind_none]

theorem children_eq_nil (h : s.size ≤ i) : s.children i = [] := by
  simp only [children, size] at *
  rw [Array.getElem?_eq_none h, Option.map_none, Option.getD_none]

/-- What adding a node does: the number `s.size` is a node below `p`, whose list of children is
`cs` now. -/
structure Grown (s : Sheet) (p : Nat) (kind : Kind) (cs : List Nat) (s' : Sheet) : Prop where
  size_eq : s'.size = s.size + 1
  kind?_eq : ∀ i, s'.kind? i = if i = s.size then some kind else s.kind? i
  parent?_eq : ∀ i, s'.parent? i = if i = s.size then some p else s.parent? i
  children_eq : ∀ i, s'.children i = if i = p then cs else s.children i

theorem grown_setChildren (hp : p < s.size) (h) :
    Grown s p kind cs ((s.allocate kind p).setChildren p cs h) where
  size_eq := by simp
  kind?_eq i := by rw [kind?_setChildren, kind?_allocate]
  parent?_eq i := by rw [parent?_setChildren, parent?_allocate]
  children_eq i := by
    rw [children_setChildren _ _ _ (by rw [size_allocate]; omega), children_allocate]

theorem append_grown (hp : p < s.size) (kind : Kind) :
    Grown s p kind (s.children p ++ [s.size]) (s.append p kind).1 := by
  simp only [append, hp, dif_pos]
  exact grown_setChildren hp _

@[simp] theorem append_snd (s : Sheet) (p : Nat) (kind : Kind) : (s.append p kind).2 = s.size := by
  unfold append
  dsimp only
  split <;> rfl

theorem size_append (s : Sheet) (p : Nat) (kind : Kind) :
    (s.append p kind).1.size = s.size + 1 := by
  unfold append
  dsimp only
  split
  · rw [size_setChildren, size_allocate]
  · rw [size_allocate]

theorem graft_node (s : Sheet) (p : Nat) (kind : Kind) (children : List (Tree Kind)) :
    s.graft p (.node kind children) = (s.append p kind).1.graftAll s.size children := by
  rw [graft, ← append_snd s p kind]

/-- A node that its parent lists can get a node before it. -/
theorem insertBefore_grown (hp : s.parent? i = some p) (hi : i ∈ s.children p) (kind : Kind) :
    ∃ s', s.insertBefore i kind = some (s', s.size) ∧
      Grown s p kind (placeBefore s.size i (s.children p)) s' := by
  have hlt : p < s.size := by
    have := lt_of_mem_children hi
    omega
  unfold insertBefore
  rw [hp]
  dsimp only
  rw [dif_pos hi]
  exact ⟨_, rfl, grown_setChildren hlt _⟩

/-- An insertion that is not refused goes before a node that its parent lists. -/
theorem insertBefore_eq_some {target new : Nat} (h : s.insertBefore target kind = some (s', new)) :
    new = s.size ∧ ∃ p, s.parent? target = some p ∧ target ∈ s.children p ∧
      Grown s p kind (placeBefore s.size target (s.children p)) s' := by
  cases hp : s.parent? target with
  | none => simp [insertBefore, hp] at h
  | some p =>
    by_cases hm : target ∈ s.children p
    · obtain ⟨t, ht, hg⟩ := insertBefore_grown hp hm kind
      rw [ht] at h
      cases h
      exact ⟨rfl, p, rfl, hm, hg⟩
    · simp [insertBefore, hp, hm] at h

theorem placeBefore_append {new target : Nat} {l r : List Nat} (h : target ∉ l) :
    placeBefore new target (l ++ target :: r) = l ++ new :: target :: r := by
  induction l with
  | nil => simp [placeBefore]
  | cons d l ih =>
    rw [List.mem_cons, not_or] at h
    simp [placeBefore, Ne.symm h.1, ih h.2]

theorem placeBefore_perm {new target : Nat} (h : target ∈ cs) :
    (placeBefore new target cs).Perm (new :: cs) := by
  obtain ⟨l, r, rfl, hl⟩ := List.eq_append_cons_of_mem h
  rw [placeBefore_append hl]
  exact List.perm_middle

/-- The root and a node that was removed stay as they are. -/
theorem remove_of_parent?_none (h : s.parent? i = none) : s.remove i = s := by
  unfold remove
  rw [h]

@[simp] theorem size_remove (s : Sheet) (i : Nat) : (s.remove i).size = s.size := by
  unfold remove
  cases s.parent? i <;> simp

@[simp] theorem kind?_remove (s : Sheet) (i j : Nat) : (s.remove i).kind? j = s.kind? j := by
  unfold remove
  cases s.parent? i <;> simp

theorem parent?_remove (s : Sheet) (i j : Nat) :
    (s.remove i).parent? j = if j = i then none else s.parent? j := by
  cases h : s.parent? i with
  | none =>
    rw [remove_of_parent?_none h]
    by_cases hj : j = i <;> simp [hj, h]
  | some p =>
    unfold remove
    rw [h]
    dsimp only
    rw [parent?_clearParent, parent?_setChildren]

theorem children_remove (h : s.parent? i = some p) (hp : p < s.size) (j : Nat) :
    (s.remove i).children j = if j = p then (s.children p).filter (· != i) else s.children j := by
  unfold remove
  rw [h]
  dsimp only
  rw [children_clearParent, children_setChildren _ _ _ hp]

/-- The links of a sheet agree with each other. -/
structure Linked (s : Sheet) : Prop where
  kind?_root : s.kind? root = some .root
  parent?_root : s.parent? root = none
  mem_children : ∀ {p c : Nat}, c ∈ s.children p ↔ s.parent? c = some p
  nodup_children : ∀ p, (s.children p).Nodup

namespace Linked

theorem root_lt (h : Linked s) : root < s.size := lt_of_kind? h.kind?_root

theorem parent_lt (h : Linked s) (hp : s.parent? c = some p) : p < c ∧ c < s.size :=
  lt_of_mem_children (h.mem_children.mpr hp)

theorem parent_lt_size (h : Linked s) (hp : s.parent? c = some p) : p < s.size :=
  (h.parent_lt hp).1.trans (h.parent_lt hp).2

theorem parent_unique (h : Linked s) {a b : Nat} (ha : c ∈ s.children a)
    (hb : c ∈ s.children b) : a = b := by
  rw [h.mem_children] at ha hb
  exact Option.some.inj (ha.symm.trans hb)

theorem isRule_root (h : Linked s) : s.isRule root = false := by
  simp [isRule, h.kind?_root, Kind.isRule, Kind.selector?]

theorem empty : Linked empty where
  kind?_root := rfl
  parent?_root := rfl
  mem_children {p c} := by
    rcases p with _ | p <;> rcases c with _ | c <;>
      simp [children, parent?, Sheet.empty]
  nodup_children p := by
    rcases p with _ | p <;> simp [children, Sheet.empty]

/-- A new node keeps the links, wherever it is put among the children of its parent. -/
theorem grow (h : Linked s) (hp : p < s.size) (hg : Grown s p kind cs s')
    (hcs : cs.Perm (s.size :: s.children p)) : Linked s' where
  kind?_root := by
    rw [hg.kind?_eq, if_neg (Nat.ne_of_lt h.root_lt)]
    exact h.kind?_root
  parent?_root := by
    rw [hg.parent?_eq, if_neg (Nat.ne_of_lt h.root_lt)]
    exact h.parent?_root
  mem_children {q c} := by
    rw [hg.children_eq, hg.parent?_eq]
    have hnew : s.parent? s.size = none := parent?_eq_none le_rfl
    have hold : s.size ∉ s.children q := fun hm => Nat.lt_irrefl _ (lt_of_mem_children hm).2
    by_cases hq : q = p <;> by_cases hc : c = s.size
    · subst hq hc
      simp [hcs.mem_iff]
    · subst hq
      simp [hcs.mem_iff, hc, h.mem_children]
    · subst hc
      simp [hq, Ne.symm hq, hold]
    · simp [hq, hc, h.mem_children]
  nodup_children q := by
    rw [hg.children_eq]
    split
    · refine hcs.nodup_iff.mpr (List.nodup_cons.mpr ⟨?_, h.nodup_children p⟩)
      exact fun hm => Nat.lt_irrefl _ (lt_of_mem_children hm).2
    · exact h.nodup_children q

theorem append (h : Linked s) (hp : p < s.size) (kind : Kind) :
    Linked (s.append p kind).1 :=
  h.grow hp (append_grown hp kind) (List.perm_append_singleton _ _)

theorem insertBefore (h : Linked s) {target new : Nat}
    (hs : s.insertBefore target kind = some (s', new)) : Linked s' := by
  obtain ⟨-, p, -, hm, hg⟩ := insertBefore_eq_some hs
  have := lt_of_mem_children hm
  exact h.grow (by omega) hg (placeBefore_perm hm)

theorem remove (h : Linked s) (i : Nat) : Linked (s.remove i) := by
  cases hi : s.parent? i with
  | none => rwa [remove_of_parent?_none hi]
  | some p =>
    have hp := h.parent_lt_size hi
    refine ⟨?_, ?_, ?_, ?_⟩
    · rw [kind?_remove]
      exact h.kind?_root
    · rw [parent?_remove, h.parent?_root, ite_self]
    · intro q c
      rw [children_remove hi hp, parent?_remove]
      by_cases hc : c = i
      · subst hc
        by_cases hq : q = p <;> simp [hq, h.mem_children, hi, Ne.symm]
      · by_cases hq : q = p <;> simp [hq, hc, h.mem_children]
    · intro q
      rw [children_remove hi hp]
      split
      · exact (h.nodup_children p).filter _
      · exact h.nodup_children q

end Linked

mutual

theorem Linked.graft : (t : Tree Kind) → {s : Sheet} → Linked s → {p : Nat} → p < s.size →
    Linked (s.graft p t) ∧ s.size ≤ (s.graft p t).size
  | .node kind children, s, h, p, hp => by
    have hsize := (append_grown hp kind).size_eq
    obtain ⟨hl, hle⟩ := Linked.graftAll children (h.append hp kind) (p := s.size) (by omega)
    rw [graft_node]
    exact ⟨hl, by omega⟩

theorem Linked.graftAll : (ts : List (Tree Kind)) → {s : Sheet} → Linked s → {p : Nat} →
    p < s.size → Linked (s.graftAll p ts) ∧ s.size ≤ (s.graftAll p ts).size
  | [], _, h, _, _ => ⟨h, le_rfl⟩
  | t :: ts, s, h, p, hp => by
    obtain ⟨hl, hle⟩ := Linked.graft t h hp
    obtain ⟨hl', hle'⟩ := Linked.graftAll ts hl (Nat.lt_of_lt_of_le hp hle)
    rw [Sheet.graftAll]
    exact ⟨hl', Nat.le_trans hle hle'⟩

end

theorem Linked.parse (css : String) : Linked (parse css) :=
  (Linked.graftAll _ Linked.empty Linked.empty.root_lt).1

/-- The sheets that come about by reading stylesheets and by edits at numbers that are taken. -/
inductive Reachable : Sheet → Prop
  | empty : Reachable empty
  | parse (css : String) : Reachable (parse css)
  | append {s : Sheet} {p : Nat} (h : Reachable s) (hp : p < s.size) (kind : Kind) :
    Reachable (s.append p kind).1
  | insertBefore {s s' : Sheet} {target new : Nat} {kind : Kind} (h : Reachable s)
    (ht : target < s.size) (hs : s.insertBefore target kind = some (s', new)) : Reachable s'
  | remove {s : Sheet} {i : Nat} (h : Reachable s) (hi : i < s.size) : Reachable (s.remove i)

/-- Edits keep the links. -/
theorem Reachable.linked (h : Reachable s) : Linked s := by
  induction h with
  | empty => exact Linked.empty
  | parse css => exact Linked.parse css
  | append _ hp kind ih => exact ih.append hp kind
  | insertBefore _ _ hs ih => exact ih.insertBefore hs
  | remove _ _ ih => exact ih.remove _

end StylePack.Css.Sheet
