import StylePack.Proofs.Sheet.Numbered

/-! Insertions that are refused. An insertion before a node looks at the node's link to its parent,
and only taking out the node itself cuts this link (`Pruned.orphaned`). What stands below a node
that was taken out is detached too (`Pruned.isAttached_eq_false_iff`), and yet an insertion before
it is not refused. -/
namespace StylePack.Css.Sheet
open Relation
variable {s s' : Sheet} {removed : List Nat} {kind : Kind} {a i p t : Nat} {cs : List Nat}

/-- The sheets that come about by reading and by edits at numbers that are taken, with the numbers
that were taken out. -/
inductive Pruned : List Nat → Sheet → Prop
  | empty : Pruned [] empty
  | parse (css : String) : Pruned [] (parse css)
  | append {removed : List Nat} {s : Sheet} {p : Nat} (h : Pruned removed s) (hp : p < s.size)
    (kind : Kind) : Pruned removed (s.append p kind).1
  | insertBefore {removed : List Nat} {s s' : Sheet} {target new : Nat} {kind : Kind}
    (h : Pruned removed s) (ht : target < s.size)
    (hs : s.insertBefore target kind = some (s', new)) : Pruned removed s'
  | remove {removed : List Nat} {s : Sheet} {i : Nat} (h : Pruned removed s) (hi : i < s.size) :
    Pruned (i :: removed) (s.remove i)

theorem Pruned.reachable (h : Pruned removed s) : Reachable s := by
  induction h with
  | empty => exact .empty
  | parse css => exact .parse css
  | append _ hp kind ih => exact ih.append hp kind
  | insertBefore _ ht hs ih => exact ih.insertBefore ht hs
  | remove _ hi ih => exact ih.remove hi

/-- However a sheet came about, some numbers were taken out, if only none. So what holds of pruned
sheets holds of all that are reachable. -/
theorem Reachable.exists_pruned (h : Reachable s) : ∃ removed, Pruned removed s := by
  induction h with
  | empty => exact ⟨[], .empty⟩
  | parse css => exact ⟨[], .parse css⟩
  | append _ hp kind ih =>
    obtain ⟨removed, h⟩ := ih
    exact ⟨removed, h.append hp kind⟩
  | insertBefore _ ht hs ih =>
    obtain ⟨removed, h⟩ := ih
    exact ⟨removed, h.insertBefore ht hs⟩
  | @remove s i _ hi ih =>
    obtain ⟨removed, h⟩ := ih
    exact ⟨i :: removed, h.remove hi⟩

/-- The nodes without a parent are the root and those that were taken out. -/
structure Orphaned (removed : List Nat) (s : Sheet) : Prop where
  lt_size : ∀ a ∈ removed, a < s.size
  parent?_eq_none_iff : ∀ i < s.size, s.parent? i = none ↔ i = root ∨ i ∈ removed

theorem Orphaned.of_attached (h : Linked s) (hall : ∀ i < s.size, s.isAttached i = true) :
    Orphaned [] s where
  lt_size a ha := absurd ha List.not_mem_nil
  parent?_eq_none_iff i hi := by
    constructor
    · intro hnone
      by_contra hr
      obtain ⟨p, hp, -⟩ := h.exists_parent (hall i hi) fun he => hr (Or.inl he)
      rw [hp] at hnone
      cases hnone
    · rintro (rfl | hm)
      · exact h.parent?_root
      · exact absurd hm List.not_mem_nil

/-- A new node has a parent. -/
theorem Orphaned.grow (h : Orphaned removed s) (hs : Linked s) (hg : Grown s p kind cs s') :
    Orphaned removed s' where
  lt_size a ha := by
    have hlt := h.lt_size a ha
    rw [hg.size_eq]
    omega
  parent?_eq_none_iff i hi := by
    rw [hg.size_eq] at hi
    rw [hg.parent?_eq]
    by_cases hnew : i = s.size
    · subst hnew
      have hroot : s.size ≠ root := hs.root_lt.ne'
      have hold : s.size ∉ removed := fun hm => Nat.lt_irrefl _ (h.lt_size _ hm)
      simp [hroot, hold]
    · rw [if_neg hnew, h.parent?_eq_none_iff i (by omega)]

theorem Orphaned.remove (h : Orphaned removed s) (ht : t < s.size) :
    Orphaned (t :: removed) (s.remove t) where
  lt_size a ha := by
    rw [size_remove]
    rcases List.mem_cons.mp ha with rfl | ha
    · exact ht
    · exact h.lt_size a ha
  parent?_eq_none_iff i hi := by
    rw [size_remove] at hi
    rw [parent?_remove]
    by_cases hit : i = t
    · simp [hit]
    · rw [if_neg hit, h.parent?_eq_none_iff i hi, List.mem_cons, or_iff_right hit]

theorem Pruned.orphaned (h : Pruned removed s) : Orphaned removed s := by
  induction h with
  | empty =>
    refine .of_attached Linked.empty fun i hi => ?_
    obtain rfl : i = root := Nat.lt_one_iff.mp hi
    exact Linked.empty.isAttached_root
  | parse css => exact .of_attached (Linked.parse css) fun i hi => isAttached_parse hi
  | append h hp kind ih => exact ih.grow h.reachable.linked (append_grown hp kind)
  | insertBefore h _ hs ih =>
    obtain ⟨-, p, -, -, hg⟩ := insertBefore_eq_some hs
    exact ih.grow h.reachable.linked hg
  | remove _ hi ih => exact ih.remove hi

theorem Linked.not_isAttached_under (h : Linked s) (hr : a ≠ root) (ha : s.parent? a = none)
    (hu : s.Under a i) : s.isAttached i = false := by
  have hdetached := h.isAttached_detached hr ha
  rw [Bool.eq_false_iff, ne_eq, h.isAttached_iff] at hdetached ⊢
  intro hi
  rcases h.under_total hi hu with hra | har
  · exact hdetached hra
  · exact hr (Nat.le_zero.mp har.le)

/-- Detached are the nodes that were taken out and all that stands below them. -/
theorem Pruned.isAttached_eq_false_iff (h : Pruned removed s) (hi : i < s.size) :
    s.isAttached i = false ↔ ∃ a ∈ removed, a ≠ root ∧ s.Under a i := by
  have hs := h.reachable.linked
  constructor
  · intro hd
    induction i using Nat.strong_induction_on with
    | _ i ih =>
      have hr : i ≠ root := by
        rintro rfl
        rw [hs.isAttached_root] at hd
        cases hd
      cases hp : s.parent? i with
      | none =>
        have hm := (h.orphaned.parent?_eq_none_iff i hi).mp hp
        exact ⟨i, hm.resolve_left hr, hr, ReflTransGen.refl⟩
      | some p =>
        have hlt := hs.parent_lt hp
        obtain ⟨a, ha, har, hu⟩ := ih p hlt.1 (by omega) (hs.isAttached_parent hp ▸ hd)
        exact ⟨a, ha, har, hu.tail (hs.mem_children.mpr hp)⟩
  · rintro ⟨a, ha, hr, hu⟩
    have hnone := (h.orphaned.parent?_eq_none_iff a (h.orphaned.lt_size a ha)).mpr (Or.inr ha)
    exact hs.not_isAttached_under hr hnone hu

theorem Linked.insertBefore_eq_none_iff (h : Linked s) (t : Nat) (kind : Kind) :
    s.insertBefore t kind = none ↔ s.parent? t = none := by
  cases hp : s.parent? t with
  | none => simp [Sheet.insertBefore, hp]
  | some p =>
    obtain ⟨s', hs, -⟩ := insertBefore_grown hp (h.mem_children.mpr hp) kind
    simp [hs]

/-- Refused are insertions before the root and before the nodes that were taken out, while detached
is all that stands below these too. The two agree on a target just if its parent is attached, where
it has one. This says it of every reachable sheet, since numbers were taken out of each of them, if
only none (`Reachable.exists_pruned`). -/
theorem refused_iff (h : Pruned removed s) (ht : t < s.size) (kind : Kind) :
    (s.insertBefore t kind = none ↔ t = root ∨ t ∈ removed) ∧
    (s.isAttached t = false ↔ ∃ a ∈ removed, a ≠ root ∧ s.Under a t) ∧
    ((s.insertBefore t kind = none ↔ t = root ∨ s.isAttached t = false) ↔
      ∀ p, s.parent? t = some p → s.isAttached p = true) := by
  have hs := h.reachable.linked
  have hnone := hs.insertBefore_eq_none_iff t kind
  refine ⟨hnone.trans (h.orphaned.parent?_eq_none_iff t ht), h.isAttached_eq_false_iff ht, ?_⟩
  rw [hnone]
  cases hp : s.parent? t with
  | none =>
    have hclaim : t = root ∨ s.isAttached t = false :=
      or_iff_not_imp_left.mpr fun hr => hs.isAttached_detached hr hp
    simp [hclaim]
  | some p =>
    have hr : t ≠ root := by
      rintro rfl
      rw [hs.parent?_root] at hp
      cases hp
    simp [hr, hs.isAttached_parent hp]

theorem refused_before_removed :
    Pruned [1] ((parse ".a\x7bb:c\x7d").remove 1) ∧ 1 < ((parse ".a\x7bb:c\x7d").remove 1).size ∧
      ((parse ".a\x7bb:c\x7d").remove 1).insertBefore 1 (.comment "d") = none := by
  have hsize : 1 < (parse ".a\x7bb:c\x7d").size := by decide +kernel
  have hpruned := (Pruned.parse ".a\x7bb:c\x7d").remove hsize
  have hlt := hsize.trans_eq (size_remove _ 1).symm
  exact ⟨hpruned, hlt, (refused_iff hpruned hlt (.comment "d")).1.mpr (by simp)⟩

/-- Below a node that was taken out, an insertion goes on. -/
theorem accepted_below_removed :
    ¬ (((parse ".a\x7bb:c\x7d").remove 1).insertBefore 2 (.comment "d") = none ↔
      2 = root ∨ ((parse ".a\x7bb:c\x7d").remove 1).isAttached 2 = false) ∧
    Reachable ((parse ".a\x7bb:c\x7d").remove 1) ∧
    2 < ((parse ".a\x7bb:c\x7d").remove 1).size := by
  have hsize : 2 < (parse ".a\x7bb:c\x7d").size := by decide +kernel
  have hsome : (((parse ".a\x7bb:c\x7d").remove 1).insertBefore 2 (.comment "d")).isSome = true := by
    decide +kernel
  have hdetached : ((parse ".a\x7bb:c\x7d").remove 1).isAttached 2 = false := by decide +kernel
  refine ⟨fun h => ?_, (Reachable.parse _).remove (Nat.lt_of_succ_lt hsize),
    hsize.trans_eq (size_remove _ 1).symm⟩
  rw [h.mpr (Or.inr hdetached)] at hsome
  cases hsome

end StylePack.Css.Sheet
