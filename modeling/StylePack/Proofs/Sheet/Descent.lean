import Mathlib.Logic.Relation
import StylePack.Proofs.Sheet.Linked

/-! Descent in a linked sheet: a node lies under the nodes above it. Looking upwards for the root
and walking downwards from it find the same nodes. -/
namespace StylePack.Css.Sheet
open Relation
variable {s s' : Sheet} {a b c d p x : Nat}

/-- `c` stands directly below `p`. -/
def Child (s : Sheet) (p c : Nat) : Prop := c ∈ s.children p

/-- `x` is `a` or stands somewhere below it. -/
def Under (s : Sheet) : Nat → Nat → Prop := ReflTransGen s.Child

theorem Under.le (h : s.Under a x) : a ≤ x := by
  induction h with
  | refl => exact Nat.le_refl a
  | tail _ hc ih =>
    have := lt_of_mem_children hc
    omega

theorem Under.lt_size (h : s.Under a x) (ha : a < s.size) : x < s.size := by
  rcases ReflTransGen.cases_tail h with rfl | ⟨q, -, hq⟩
  · exact ha
  · exact (lt_of_mem_children hq).2

/-- What is below a node stays as it is while no node under it gets other children. -/
theorem below_congr (h : ∀ i, s.Under a i → s'.children i = s.children i) :
    s'.below a = s.below a := by
  induction a using s.downward with
  | step a ih =>
    rw [below_eq, below_eq, h a ReflTransGen.refl]
    refine List.flatMap_congr fun c hc => ?_
    rw [ih c hc fun i hi => h i (hi.head hc)]

/-- Two nodes above one node are above one another. -/
theorem Linked.under_total (h : Linked s) (ha : s.Under a x) (hb : s.Under b x) :
    s.Under a b ∨ s.Under b a := by
  induction ha with
  | refl => exact Or.inr hb
  | @tail q y hq hy ih =>
    rcases ReflTransGen.cases_tail hb with rfl | ⟨q', hq', hy'⟩
    · exact Or.inl (hq.tail hy)
    · rw [← h.parent_unique hy hy'] at hq'
      exact ih hq'

/-- What stands under two children of one node stands under the same one. -/
theorem Linked.child_unique (h : Linked s) (hc : c ∈ s.children p) (hd : d ∈ s.children p)
    (hcx : s.Under c x) (hdx : s.Under d x) : c = d := by
  have key : ∀ {c d : Nat}, c ∈ s.children p → d ∈ s.children p → s.Under c d → c = d := by
    intro c d hc hd hcd
    rcases ReflTransGen.cases_tail hcd with rfl | ⟨q, hq, hdq⟩
    · rfl
    · have hle : c ≤ q := Under.le hq
      rw [h.parent_unique hdq hd] at hle
      have := lt_of_mem_children hc
      omega
  rcases h.under_total hcx hdx with hcd | hdc
  · exact key hc hd hcd
  · exact (key hd hc hdc).symm

/-- Looking upwards finds the root above the nodes under it. -/
theorem Linked.reachesRoot_iff (h : Linked s) {steps i : Nat} (hi : i ≤ steps) :
    s.reachesRoot steps i = true ↔ s.Under root i := by
  induction steps generalizing i with
  | zero =>
    obtain rfl : i = root := Nat.le_zero.mp hi
    exact ⟨fun _ => ReflTransGen.refl, fun _ => by simp [reachesRoot]⟩
  | succ n ih =>
    rw [Under, ReflTransGen.cases_tail_iff]
    simp only [reachesRoot, Bool.or_eq_true, beq_iff_eq]
    refine or_congr Iff.rfl ?_
    cases hp : s.parent? i with
    | none =>
      refine ⟨fun hf => by simp at hf, ?_⟩
      rintro ⟨q, -, hq⟩
      rw [h.mem_children.mp hq] at hp
      cases hp
    | some p =>
      have := h.parent_lt hp
      dsimp only
      rw [ih (by omega)]
      constructor
      · exact fun hr => ⟨p, hr, h.mem_children.mpr hp⟩
      · rintro ⟨q, hr, hq⟩
        rwa [h.parent_unique (h.mem_children.mpr hp) hq]

theorem Linked.isAttached_iff (h : Linked s) (i : Nat) :
    s.isAttached i = true ↔ s.Under root i := by
  unfold isAttached
  by_cases hi : i ≤ s.size
  · exact h.reachesRoot_iff hi
  · have hroot := h.root_lt
    have hnone : s.parent? i = none := parent?_eq_none (Nat.le_of_not_le hi)
    have hne : i ≠ root := by
      rintro rfl
      omega
    constructor
    · cases s.size <;> simp [reachesRoot, hne, hnone]
    · intro hu
      rcases ReflTransGen.cases_tail hu with he | ⟨q, -, hq⟩
      · exact absurd he hne
      · rw [h.mem_children.mp hq] at hnone
        cases hnone

/-- Walking downwards finds what stands under a child. -/
theorem mem_below_iff : x ∈ s.below a ↔ ∃ c ∈ s.children a, s.Under c x := by
  induction a using s.downward with
  | step a ih =>
    rw [below_eq, List.mem_flatMap]
    refine exists_congr fun c => and_congr_right fun hc => ?_
    rw [List.mem_cons, ih c hc, Under, ReflTransGen.cases_head_iff, eq_comm (a := x)]
    rfl

theorem under_of_mem_below (h : x ∈ s.below a) : s.Under a x := by
  obtain ⟨c, hc, hx⟩ := mem_below_iff.mp h
  exact hx.head hc

/-- The nodes of the document are those that are attached, except the root. -/
theorem Linked.mem_walk_iff (h : Linked s) (i : Nat) :
    i ∈ s.walk ↔ s.isAttached i = true ∧ i ≠ root := by
  rw [walk, mem_below_iff, h.isAttached_iff, Under, ReflTransGen.cases_head_iff]
  constructor
  · rintro ⟨c, hc, hi⟩
    have := lt_of_mem_children hc
    have := Under.le hi
    exact ⟨Or.inr ⟨c, hc, hi⟩, by omega⟩
  · rintro ⟨rfl | hi, hne⟩
    · exact absurd rfl hne
    · exact hi

theorem labels_contents (s : Sheet) : s.contents.flatMap Tree.labels = s.walk.map s.kind := by
  rw [contents, ← Tree.mapAll_eq_map, ← Tree.labelsAll_eq_flatMap, Tree.labelsAll_mapAll,
    Tree.labelsAll_eq_flatMap]
  rfl

/-- The labels of a sheet's content are the kinds of its attached nodes, except the root's. -/
theorem Linked.mem_labels_contents (h : Linked s) {k : Kind} (hk : k ≠ .root) :
    k ∈ s.contents.flatMap Tree.labels ↔ ∃ i, s.isAttached i = true ∧ s.kind? i = some k := by
  rw [labels_contents, List.mem_map]
  constructor
  · rintro ⟨i, hi, rfl⟩
    refine ⟨i, ((h.mem_walk_iff i).mp hi).1, ?_⟩
    unfold kind at hk ⊢
    cases hkind : s.kind? i with
    | none => exact absurd (by rw [hkind]; rfl) hk
    | some k => rfl
  · rintro ⟨i, hi, hkind⟩
    refine ⟨i, (h.mem_walk_iff i).mpr ⟨hi, ?_⟩, by rw [kind, hkind, Option.getD_some]⟩
    rintro rfl
    rw [h.kind?_root] at hkind
    exact hk (Option.some.inj hkind).symm

end StylePack.Css.Sheet
