import Mathlib.Data.List.Basic
import StylePack.Proofs.Sheet.Descent

/-! The order of a document. A walk with a stack takes every attached node once, each before what
stands below it, and the nodes below one node in the order in which they are listed. -/
namespace StylePack.Css.Sheet
open Relation
variable {s : Sheet} {a b c i p x : Nat}

theorem mem_below_iff_transGen : x ∈ s.below a ↔ TransGen s.Child a x := by
  rw [mem_below_iff, TransGen.head'_iff]
  rfl

theorem lt_of_mem_below (h : x ∈ s.below a) : a < x ∧ x < s.size := by
  rw [mem_below_iff_transGen] at h
  induction h with
  | single hc => exact lt_of_mem_children hc
  | tail _ hc ih =>
    have := lt_of_mem_children hc
    omega

/-- A branch of a node is one run of what stands below the node. -/
theorem infix_below (h : x ∈ s.below a) : x :: s.below x <:+: s.below a := by
  have hchild : ∀ {p c : Nat}, c ∈ s.children p → c :: s.below c <:+: s.below p := by
    intro p c hc
    rw [below_eq s p]
    exact List.infix_flatMap_of_mem hc fun c => c :: s.below c
  rw [mem_below_iff_transGen] at h
  induction h with
  | single hc => exact hchild hc
  | tail _ hc ih => exact (hchild hc).trans ((List.suffix_cons _ _).isInfix.trans ih)

theorem children_sublist_below (s : Sheet) (a : Nat) : (s.children a).Sublist (s.below a) := by
  rw [below_eq]
  induction s.children a with
  | nil => exact List.Sublist.refl _
  | cons c cs ih =>
    rw [List.flatMap_cons, List.cons_append]
    exact (ih.trans (List.sublist_append_right _ _)).cons_cons c

/-- Nothing is met twice below a node. -/
theorem Linked.nodup_below (h : Linked s) (a : Nat) : (s.below a).Nodup := by
  induction a using s.downward with
  | step a ih =>
    rw [below_eq, List.nodup_flatMap]
    constructor
    · intro c hc
      refine List.nodup_cons.mpr ⟨fun hm => ?_, ih c hc⟩
      exact Nat.lt_irrefl c (lt_of_mem_below hm).1
    · refine (List.nodup_iff_pairwise_ne.mp (h.nodup_children a)).imp_of_mem ?_
      intro c d hc hd hne x hxc hxd
      have hunder : ∀ {c : Nat}, x ∈ c :: s.below c → s.Under c x := by
        intro c hx
        rcases List.mem_cons.mp hx with rfl | hx
        · exact ReflTransGen.refl
        · exact under_of_mem_below hx
      exact hne (h.child_unique hc hd (hunder hxc) (hunder hxd))

theorem Linked.nodup_walk (h : Linked s) : s.walk.Nodup := h.nodup_below root

/-- An attached node is listed once, and one that was taken out is not listed. -/
theorem Linked.count_walk (h : Linked s) (hi : i ≠ root) :
    s.walk.count i = if s.isAttached i then 1 else 0 := by
  by_cases ha : s.isAttached i
  · rw [if_pos ha]
    exact List.count_eq_one_of_mem h.nodup_walk ((h.mem_walk_iff i).mpr ⟨ha, hi⟩)
  · rw [if_neg ha]
    exact List.count_eq_zero_of_not_mem fun hm => ha ((h.mem_walk_iff i).mp hm).1

theorem Linked.infix_walk (h : Linked s) (ha : s.isAttached a = true) : s.below a <:+: s.walk := by
  by_cases hr : a = root
  · rw [hr]
    exact List.infix_rfl
  · have hm : a ∈ s.below root := (h.mem_walk_iff a).mpr ⟨ha, hr⟩
    exact (List.suffix_cons _ _).isInfix.trans (infix_below hm)

/-- Siblings come in the order in which their parent lists them. -/
theorem Linked.children_sublist_walk (h : Linked s) (hp : s.isAttached p = true) :
    (s.children p).Sublist s.walk :=
  (children_sublist_below s p).trans (h.infix_walk hp).sublist

/-- A node comes before what stands below it. -/
theorem pair_sublist_walk (ha : a ∈ s.walk) (hx : TransGen s.Child a x) :
    [a, x].Sublist s.walk := by
  refine List.Sublist.trans ?_ (infix_below ha).sublist
  exact (List.singleton_sublist.mpr (mem_below_iff_transGen.mpr hx)).cons_cons a

/-- A search for the root from a node upwards: it ends at the root, or at another node that has no
parent. -/
inductive Climbs (s : Sheet) : Nat → Bool → Prop
  | found : Climbs s root true
  | lost {i : Nat} (hi : i ≠ root) (h : s.parent? i = none) : Climbs s i false
  | up {i p : Nat} {b : Bool} (hi : i ≠ root) (h : s.parent? i = some p) (hp : Climbs s p b) :
    Climbs s i b

theorem Linked.isAttached_parent (h : Linked s) (hp : s.parent? i = some p) :
    s.isAttached i = s.isAttached p := by
  have hc : s.Child p i := h.mem_children.mpr hp
  have hlt := h.parent_lt hp
  rw [Bool.eq_iff_iff, h.isAttached_iff, h.isAttached_iff]
  refine ⟨fun hi => ?_, fun hq => hq.tail hc⟩
  rcases ReflTransGen.cases_tail hi with rfl | ⟨q, hq, hqi⟩
  · exact absurd hlt.1 (Nat.not_lt_zero p)
  · rwa [h.parent_unique hc hqi]

theorem Linked.isAttached_detached (h : Linked s) (hi : i ≠ root) (hp : s.parent? i = none) :
    s.isAttached i = false := by
  rw [Bool.eq_false_iff, ne_eq, h.isAttached_iff]
  intro hu
  rcases ReflTransGen.cases_tail hu with rfl | ⟨q, -, hq⟩
  · exact hi rfl
  · rw [h.mem_children.mp hq] at hp
    cases hp

theorem Linked.isAttached_root (h : Linked s) : s.isAttached root = true :=
  (h.isAttached_iff root).mpr ReflTransGen.refl

theorem Linked.exists_parent (h : Linked s) (hx : s.isAttached x = true) (hr : x ≠ root) :
    ∃ p, s.parent? x = some p ∧ s.isAttached p = true := by
  cases hp : s.parent? x with
  | none =>
    rw [h.isAttached_detached hr hp] at hx
    cases hx
  | some p => exact ⟨p, rfl, h.isAttached_parent hp ▸ hx⟩

theorem Linked.climbs (h : Linked s) (i : Nat) : s.Climbs i (s.isAttached i) := by
  induction i using Nat.strong_induction_on with
  | _ i ih =>
    by_cases hi : i = root
    · rw [hi, h.isAttached_root]
      exact Climbs.found
    · cases hp : s.parent? i with
      | none =>
        rw [h.isAttached_detached hi hp]
        exact Climbs.lost hi hp
      | some p =>
        rw [h.isAttached_parent hp]
        exact Climbs.up hi hp (ih p (h.parent_lt hp).1)

/-- The search for the root ends, and with the answer whether the node is attached. -/
theorem Linked.climbs_iff (h : Linked s) {b : Bool} : s.Climbs i b ↔ s.isAttached i = b := by
  constructor
  · intro hc
    induction hc with
    | found => exact h.isAttached_root
    | lost hi hp => exact h.isAttached_detached hi hp
    | up _ hp _ ih => rw [h.isAttached_parent hp, ih]
  · rintro rfl
    exact h.climbs i

/-- A walk with a stack: the node on top of the stack is taken, its children are put on the stack
in its place, and so on until the stack is empty. -/
inductive Visits (s : Sheet) : List Nat → List Nat → Prop
  | done : Visits s [] []
  | take {i : Nat} {stack out : List Nat} (h : Visits s (s.children i ++ stack) out) :
    Visits s (i :: stack) (i :: out)

/-- Nodes on top of a stack are taken with all that is below them before the rest is. -/
theorem Visits.branches {stack out : List Nat} (h : Visits s stack out) {n : Nat} {cs : List Nat}
    (hcs : ∀ c ∈ cs, s.size - c < n) :
    Visits s (cs ++ stack) ((cs.flatMap fun c => c :: s.below c) ++ out) := by
  induction n generalizing cs stack out with
  | zero =>
    cases cs with
    | nil => exact h
    | cons c cs => exact absurd (hcs c List.mem_cons_self) (Nat.not_lt_zero _)
  | succ n ih =>
    induction cs with
    | nil => exact h
    | cons c cs ihcs =>
      have hrest := ihcs fun d hd => hcs d (List.mem_cons_of_mem c hd)
      have hc := hcs c List.mem_cons_self
      have hbelow : Visits s (s.children c ++ (cs ++ stack))
          (s.below c ++ ((cs.flatMap fun c => c :: s.below c) ++ out)) := by
        rw [below_eq s c]
        refine ih hrest fun d hd => ?_
        have := lt_of_mem_children hd
        omega
      simpa only [List.flatMap_cons, List.cons_append, List.append_assoc] using hbelow.take

theorem visits_walk (s : Sheet) : Visits s (s.children root) s.walk := by
  have hlt : ∀ c ∈ s.children root, s.size - c < s.size + 1 := fun c _ => by omega
  have h := Visits.done.branches hlt
  rwa [List.append_nil, List.append_nil, ← below_eq] at h

theorem Visits.unique {stack out out' : List Nat} (h : Visits s stack out)
    (h' : Visits s stack out') : out = out' := by
  induction h generalizing out' with
  | done =>
    cases h'
    rfl
  | take _ ih =>
    cases h' with
    | take h' => rw [ih h']

/-- The walk with a stack ends, and with the nodes of the document in their order. -/
theorem visits_iff {out : List Nat} : Visits s (s.children root) out ↔ s.walk = out := by
  constructor
  · exact fun h => (visits_walk s).unique h
  · rintro rfl
    exact visits_walk s

end StylePack.Css.Sheet
