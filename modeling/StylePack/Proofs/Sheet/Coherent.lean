import StylePack.Proofs.Sheet.Order

/-! What holds of a sheet however it was edited: parents and children agree, numbers and kinds
stay, and the search for the root and the walk through the document end and find the same nodes. -/
namespace StylePack.Css.Sheet
open Relation
variable {s s' : Sheet}

/-- One edit at a number that is taken. -/
inductive Edit : Sheet → Sheet → Prop
  | append {s : Sheet} {p : Nat} (hp : p < s.size) (kind : Kind) : Edit s (s.append p kind).1
  | insertBefore {s s' : Sheet} {target new : Nat} {kind : Kind} (ht : target < s.size)
    (hs : s.insertBefore target kind = some (s', new)) : Edit s s'
  | remove {s : Sheet} {i : Nat} (hi : i < s.size) : Edit s (s.remove i)

/-- Edits one after the other. -/
def Edited : Sheet → Sheet → Prop := ReflTransGen Edit

/-- Numbers that are taken stay taken, by nodes of the same kinds. -/
structure Keeps (s s' : Sheet) : Prop where
  size_le : s.size ≤ s'.size
  kind?_eq : ∀ i < s.size, s'.kind? i = s.kind? i

theorem Grown.keeps {p : Nat} {kind : Kind} {cs : List Nat} (h : Grown s p kind cs s') :
    Keeps s s' where
  size_le := by rw [h.size_eq]; omega
  kind?_eq i hi := by rw [h.kind?_eq, if_neg hi.ne]

theorem Edit.keeps (h : Edit s s') : Keeps s s' := by
  cases h with
  | append hp kind => exact (append_grown hp kind).keeps
  | insertBefore _ hs =>
    obtain ⟨-, p, -, -, hg⟩ := insertBefore_eq_some hs
    exact hg.keeps
  | remove hi => exact ⟨(size_remove s _).ge, fun i _ => kind?_remove s _ i⟩

theorem Edited.keeps (h : Edited s s') : Keeps s s' := by
  induction h with
  | refl => exact ⟨le_rfl, fun _ _ => rfl⟩
  | tail _ he ih =>
    have hk := he.keeps
    exact ⟨ih.size_le.trans hk.size_le, fun i hi =>
      (hk.kind?_eq i (hi.trans_le ih.size_le)).trans (ih.kind?_eq i hi)⟩

/-- What holds of every sheet that was built by edits. -/
structure Coherent (s : Sheet) : Prop where
  parent?_root : s.parent? root = none
  parent_lt : ∀ {c p : Nat}, s.parent? c = some p → p < c
  parent?_iff : ∀ {c p : Nat}, s.parent? c = some p ↔ c ∈ s.children p
  count_children : ∀ {c p : Nat}, c ∈ s.children p → (s.children p).count c = 1
  parent_unique : ∀ {c p q : Nat}, c ∈ s.children p → c ∈ s.children q → p = q
  /-- No later edit changes what a number stands for. -/
  keeps : ∀ {s' : Sheet}, Edited s s' → Keeps s s'
  /-- The number of a node that is added later was not taken before, and is taken afterwards. -/
  append_fresh : ∀ {s' : Sheet}, Edited s s' → ∀ (p : Nat) (kind : Kind),
    s.size ≤ (s'.append p kind).2 ∧ (s'.append p kind).2 < (s'.append p kind).1.size
  insertBefore_fresh : ∀ {s' t : Sheet} {target new : Nat} {kind : Kind}, Edited s s' →
    s'.insertBefore target kind = some (t, new) → s.size ≤ new ∧ new < t.size
  /-- The search for the root ends. -/
  climbs_iff : ∀ {i : Nat} {b : Bool}, s.Climbs i b ↔ s.isAttached i = b
  /-- The walk with a stack ends. -/
  visits_iff : ∀ {out : List Nat}, s.Visits (s.children root) out ↔ s.walk = out
  count_walk : ∀ {i : Nat}, i ≠ root → s.walk.count i = if s.isAttached i then 1 else 0
  descendant_after : ∀ {a x : Nat}, a ∈ s.walk → TransGen s.Child a x → [a, x].Sublist s.walk
  siblings_in_order : ∀ {p : Nat}, s.isAttached p = true → (s.children p).Sublist s.walk

theorem coherent_of_reachable (h : Reachable s) : Coherent s where
  parent?_root := h.linked.parent?_root
  parent_lt hp := (h.linked.parent_lt hp).1
  parent?_iff := h.linked.mem_children.symm
  count_children hc := List.count_eq_one_of_mem (h.linked.nodup_children _) hc
  parent_unique := h.linked.parent_unique
  keeps he := he.keeps
  append_fresh he p kind := by
    rw [append_snd, size_append]
    exact ⟨he.keeps.size_le, Nat.lt_succ_self _⟩
  insertBefore_fresh he hs := by
    obtain ⟨rfl, p, -, -, hg⟩ := insertBefore_eq_some hs
    rw [hg.size_eq]
    exact ⟨he.keeps.size_le, Nat.lt_succ_self _⟩
  climbs_iff := h.linked.climbs_iff
  visits_iff := Sheet.visits_iff
  count_walk := h.linked.count_walk
  descendant_after := pair_sublist_walk
  siblings_in_order := h.linked.children_sublist_walk

theorem coherent_below_removed :
    Reachable ((parse ".a\x7b@use b;\x7d").remove 1) ∧
      Coherent ((parse ".a\x7b@use b;\x7d").remove 1) ∧
      ((parse ".a\x7b@use b;\x7d").remove 1).Climbs 2 false := by
  have hsize : 1 < (parse ".a\x7b@use b;\x7d").size := by decide +kernel
  have h := coherent_of_reachable ((Reachable.parse ".a\x7b@use b;\x7d").remove hsize)
  exact ⟨(Reachable.parse _).remove hsize, h, h.climbs_iff.mpr (by decide +kernel)⟩

end StylePack.Css.Sheet
