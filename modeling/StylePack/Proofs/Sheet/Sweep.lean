import StylePack.Proofs.Sheet.Descent
import StylePack.Proofs.Sheet.Rewriting

/-! Sweeps over a sheet. The nodes with a mark are collected in document order and then handled one
by one, where handling a node takes it out, and one that is no longer attached is passed over. So
just the marked nodes with no marked node above them are handled (`sweep_walk`). -/
namespace StylePack.Css.Sheet
open Relation
variable {s s' : Sheet} {marked : Nat → Bool} {done : List Nat} {a c x : Nat}

/-- The marked nodes below a node with no marked node in between, in document order. -/
def topmost (s : Sheet) (marked : Nat → Bool) (i : Nat) : List Nat :=
  Tree.outermostAll marked (s.outlineBelow i)

/-- The topmost marked nodes of a node and of what is below it. -/
def branch (s : Sheet) (marked : Nat → Bool) (c : Nat) : List Nat :=
  if marked c then [c] else s.topmost marked c

/-- The root, or a node that is not marked and below no marked node. -/
def Clear (s : Sheet) (marked : Nat → Bool) : Nat → Prop :=
  ReflTransGen (fun p c => s.Child p c ∧ marked c = false) root

theorem topmost_eq (s : Sheet) (marked : Nat → Bool) (i : Nat) :
    s.topmost marked i = (s.children i).flatMap (s.branch marked) := by
  unfold topmost
  rw [outlineBelow_eq, Tree.outermostAll_eq_flatMap, List.flatMap_map]
  rfl

theorem mem_below_of_mem_topmost (h : x ∈ s.topmost marked a) :
    x ∈ s.below a ∧ marked x = true := by
  induction a using s.downward with
  | step a ih =>
    rw [topmost_eq, List.mem_flatMap] at h
    obtain ⟨c, hc, hx⟩ := h
    rw [below_eq, List.mem_flatMap]
    unfold branch at hx
    by_cases hm : marked c
    · rw [if_pos hm, List.mem_singleton] at hx
      subst hx
      exact ⟨⟨x, hc, List.mem_cons_self⟩, hm⟩
    · rw [if_neg hm] at hx
      obtain ⟨hb, hmx⟩ := ih c hc hx
      exact ⟨⟨c, hc, List.mem_cons_of_mem _ hb⟩, hmx⟩

theorem mem_branch (h : x ∈ s.branch marked c) : s.Under c x ∧ marked x = true := by
  unfold branch at h
  by_cases hm : marked c
  · rw [if_pos hm, List.mem_singleton] at h
    exact ⟨h ▸ ReflTransGen.refl, h ▸ hm⟩
  · rw [if_neg hm] at h
    obtain ⟨hb, hmx⟩ := mem_below_of_mem_topmost h
    exact ⟨under_of_mem_below hb, hmx⟩

/-- Of the children of a clear node, the marked ones are topmost. -/
theorem Clear.mem_topmost_iff (h : s.Clear marked a) (hc : c ∈ s.children a) :
    c ∈ s.topmost marked root ↔ marked c = true := by
  have hsub : ∀ x ∈ s.topmost marked a, x ∈ s.topmost marked root := by
    clear hc
    induction h with
    | refl => exact fun _ hx => hx
    | @tail p q _ hq ih =>
      intro x hx
      refine ih x ?_
      rw [topmost_eq, List.mem_flatMap]
      refine ⟨q, hq.1, ?_⟩
      rwa [branch, hq.2, if_neg Bool.false_ne_true]
  constructor
  · exact fun hx => (mem_below_of_mem_topmost hx).2
  · intro hm
    refine hsub c ?_
    rw [topmost_eq, List.mem_flatMap]
    refine ⟨c, hc, ?_⟩
    rw [branch, if_pos hm]
    exact List.mem_singleton_self c

/-- The root, or an old node that is attached still when `done` was taken out. -/
def Kept (s : Sheet) (done : List Nat) : Nat → Prop :=
  ReflTransGen (fun p c => s.Child p c ∧ c ∉ done) root

theorem Cut.isAttached_iff (h : Cut s s' done) (hs : Linked s) (hx : x < s.size) :
    s'.isAttached x = true ↔ s.Kept done x := by
  have hchild : ∀ {p c : Nat}, c < s.size → (s'.Child p c ↔ s.Child p c ∧ c ∉ done) := by
    intro p c hc
    rw [Child, Child, h.linked.mem_children, hs.mem_children, h.parent?_eq c hc]
    by_cases hd : c ∈ done <;> simp [hd]
  rw [h.linked.isAttached_iff]
  constructor
  · intro hu
    induction hu with
    | refl => exact ReflTransGen.refl
    | tail _ hc ih =>
      have := lt_of_mem_children hc
      exact (ih (by omega)).tail ((hchild hx).mp hc)
  · intro hk
    induction hk with
    | refl => exact ReflTransGen.refl
    | tail _ hc ih =>
      have := lt_of_mem_children hc.1
      exact (ih (by omega)).tail ((hchild hx).mpr hc)

/-- What stands under a node that was taken out is no longer attached. -/
theorem Linked.not_kept (hs : Linked s) (hc : c ∈ done) (hroot : c ≠ root)
    (hu : s.Under c x) : ¬ s.Kept done x := by
  induction hu with
  | refl =>
    intro hk
    rcases ReflTransGen.cases_tail hk with he | ⟨q, -, hq⟩
    · exact hroot he
    · exact hq.2 hc
  | @tail q y hq hy ih =>
    intro hk
    rcases ReflTransGen.cases_tail hk with rfl | ⟨q', hk', hy'⟩
    · have := lt_of_mem_children hy
      exact Nat.not_lt_zero q this.1
    · rw [hs.parent_unique hy'.1 hy] at hk'
      exact ih hk'

theorem Clear.kept (h : s.Clear marked a) (hdone : ∀ x ∈ done, marked x = true) :
    s.Kept done a := by
  induction h with
  | refl => exact ReflTransGen.refl
  | @tail p c _ hc ih =>
    refine ih.tail ⟨hc.1, fun hm => ?_⟩
    rw [hdone c hm] at hc
    exact Bool.noConfusion hc.2

section
variable {σ : Type} (sheet : σ → Sheet) (handle : σ → Nat → σ)

/-- Handles nodes one after another, those that are attached. -/
def sweep (st : σ) (l : List Nat) : σ :=
  l.foldl (fun st i => if (sheet st).isAttached i then handle st i else st) st

theorem sweep_append (st : σ) (l r : List Nat) :
    sweep sheet handle st (l ++ r) = sweep sheet handle (sweep sheet handle st l) r :=
  List.foldl_append

theorem sweep_detached {st : σ} {l : List Nat} (h : ∀ x ∈ l, (sheet st).isAttached x = false) :
    sweep sheet handle st l = st := by
  induction l with
  | nil => rfl
  | cons x l ih =>
    rw [sweep, List.foldl_cons, h x List.mem_cons_self, if_neg (by simp)]
    exact ih fun y hy => h y (List.mem_cons_of_mem x hy)

/-- What is known when a sweep comes to a marked node `c`: it is a child of a clear node, and of
the other children those marked before it are done. -/
structure Turn (s : Sheet) (marked : Nat → Bool) (done : List Nat) (p : Nat) (l : List Nat)
    (c : Nat) (r : List Nat) : Prop where
  clear : s.Clear marked p
  children_eq : s.children p = l ++ c :: r
  marked_eq : marked c = true
  mem_done : ∀ x ∈ s.children p, x ∈ done ↔ x ∈ l ∧ marked x = true
  order : ∃ rest, s.topmost marked root = done ++ c :: rest

theorem Turn.mem_children {p : Nat} {l r : List Nat} (h : Turn s marked done p l c r) :
    c ∈ s.children p := by
  rw [h.children_eq]
  exact List.mem_append_right l List.mem_cons_self

theorem Turn.notMem_done {p : Nat} {l r : List Nat} (h : Turn s marked done p l c r)
    (hs : Linked s) : c ∉ done := by
  rw [h.mem_done c h.mem_children]
  exact fun hl => (notMem_around (h.children_eq ▸ hs.nodup_children p)).1 hl.1

/-- After a turn, the same nodes as before have a child that is done, and the parent has one. -/
theorem Turn.exists_done_iff {p : Nat} {l r : List Nat} (h : Turn s marked done p l c r)
    (hs : Linked s) (q : Nat) :
    (∃ x ∈ s.children q, x ∈ done ++ [c]) ↔ (∃ x ∈ s.children q, x ∈ done) ∨ q = p := by
  constructor
  · rintro ⟨x, hx, hm⟩
    rcases List.mem_append.mp hm with hm | hm
    · exact Or.inl ⟨x, hx, hm⟩
    · rw [List.mem_singleton] at hm
      exact Or.inr (hs.parent_unique (hm ▸ hx) h.mem_children)
  · rintro (⟨x, hx, hm⟩ | rfl)
    · exact ⟨x, hx, List.mem_append_left _ hm⟩
    · exact ⟨c, h.mem_children, by simp⟩

/-- What is said of the nodes that are done, said of one more. -/
theorem update_done {α : Type} {f : Nat → List α} (hc : c ∉ done) :
    Function.update (fun x => if x ∈ done then f x else []) c
        ((if c ∈ done then f c else []) ++ f c) =
      fun x => if x ∈ done ++ [c] then f x else [] := by
  funext x
  by_cases hx : x = c
  · subst hx
    simp [hc]
  · rw [Function.update_of_ne hx]
    simp [hx]

variable {Inv : List Nat → σ → Prop}

section
variable (hs : Linked s) (hcut : ∀ done st, Inv done st → Cut s (sheet st) done)
  (hturn : ∀ done st p l c r, Inv done st → Turn s marked done p l c r →
    Inv (done ++ [c]) (handle st c))
include hs hcut hturn

/-- A sweep over a child of a clear node and what is below it. A marked child is handled, and then
nothing below it is attached any more. -/
theorem sweep_child (ha : s.Clear marked a) {l r : List Nat} (hlr : s.children a = l ++ c :: r)
    (ih : ∀ {done : List Nat} {st : σ} {rest : List Nat}, Inv done st → s.Clear marked c →
      (∀ x ∈ s.below c, x ∉ done) →
      s.topmost marked root = done ++ s.topmost marked c ++ rest →
      Inv (done ++ s.topmost marked c) (sweep sheet handle st ((s.below c).filter marked)))
    {st : σ} {rest : List Nat} (hinv : Inv done st)
    (hmem : ∀ x ∈ s.children a, x ∈ done ↔ x ∈ l ∧ marked x = true)
    (hdone : ∀ x ∈ s.below c, x ∉ done)
    (horder : s.topmost marked root = done ++ s.branch marked c ++ rest) :
    Inv (done ++ s.branch marked c)
      (sweep sheet handle st ((c :: s.below c).filter marked)) := by
  have hc : c ∈ s.children a := by simp [hlr]
  have hlt := lt_of_mem_children hc
  unfold branch at horder ⊢
  by_cases hm : marked c
  · rw [if_pos hm] at horder ⊢
    have hmarked : ∀ x ∈ done, marked x = true := by
      intro x hx
      refine (mem_below_of_mem_topmost (s := s) (a := root) ?_).2
      simp [horder, hx]
    have hnew : c ∉ done := by
      rw [hmem c hc]
      exact fun h => (notMem_around (hlr ▸ hs.nodup_children a)).1 h.1
    have hatt : (sheet st).isAttached c = true :=
      ((hcut done st hinv).isAttached_iff hs hlt.2).mpr
        ((ha.kept hmarked).tail ⟨hc, hnew⟩)
    have hnext := hturn done st a l c r hinv
      ⟨ha, hlr, hm, hmem, rest, by simpa using horder⟩
    rw [List.filter_cons_of_pos hm, sweep, List.foldl_cons, if_pos hatt, ← sweep,
      sweep_detached]
    · exact hnext
    · intro x hx
      obtain ⟨hx, -⟩ := List.mem_filter.mp hx
      have hxlt : x < s.size := (under_of_mem_below hx).lt_size hlt.2
      rw [Bool.eq_false_iff, ne_eq, (hcut _ _ hnext).isAttached_iff hs hxlt]
      refine hs.not_kept (by simp) ?_ (under_of_mem_below hx)
      rintro rfl
      exact Nat.not_lt_zero a hlt.1
  · rw [if_neg hm] at horder ⊢
    rw [List.filter_cons_of_neg hm]
    exact ih hinv (ha.tail ⟨hc, by simpa using hm⟩) hdone horder

/-- A sweep over the children of a clear node that are left, with what is below them. -/
theorem sweep_children (ha : s.Clear marked a)
    (ih : ∀ c ∈ s.children a, ∀ {done : List Nat} {st : σ} {rest : List Nat}, Inv done st →
      s.Clear marked c → (∀ x ∈ s.below c, x ∉ done) →
      s.topmost marked root = done ++ s.topmost marked c ++ rest →
      Inv (done ++ s.topmost marked c) (sweep sheet handle st ((s.below c).filter marked)))
    {l r : List Nat} (hlr : s.children a = l ++ r) {st : σ} {rest : List Nat}
    (hinv : Inv done st) (hmem : ∀ x ∈ s.children a, x ∈ done ↔ x ∈ l ∧ marked x = true)
    (hdone : ∀ c ∈ r, ∀ x ∈ s.below c, x ∉ done)
    (horder : s.topmost marked root = done ++ r.flatMap (s.branch marked) ++ rest) :
    Inv (done ++ r.flatMap (s.branch marked))
      (sweep sheet handle st ((r.flatMap fun c => c :: s.below c).filter marked)) := by
  induction r generalizing l done st with
  | nil => simpa [sweep] using hinv
  | cons c r ihr =>
    have hc : c ∈ s.children a := by simp [hlr]
    have hfront : s.topmost marked root =
        done ++ s.branch marked c ++ (r.flatMap (s.branch marked) ++ rest) := by
      rw [horder, List.flatMap_cons]
      simp only [List.append_assoc]
    have hfirst := sweep_child sheet handle hs hcut hturn ha hlr (ih c hc) hinv hmem
      (hdone c List.mem_cons_self) hfront
    rw [List.flatMap_cons, List.flatMap_cons, List.filter_append, sweep_append,
      ← List.append_assoc]
    refine ihr (l := l ++ [c]) (by simp [hlr]) hfirst ?_ ?_ ?_
    · intro x hx
      have hbranch : x ∈ s.branch marked c ↔ x = c ∧ marked x = true := by
        constructor
        · intro hb
          obtain ⟨hu, hmx⟩ := mem_branch hb
          exact ⟨hs.child_unique hx hc ReflTransGen.refl hu, hmx⟩
        · rintro ⟨rfl, hmx⟩
          simp [branch, hmx]
      rw [List.mem_append, hmem x hx, List.mem_append, List.mem_singleton, hbranch, or_and_right]
    · intro d hd x hx hm
      rcases List.mem_append.mp hm with hm | hm
      · exact hdone d (List.mem_cons_of_mem c hd) x hx hm
      · have hdc := hs.child_unique (by simp [hlr, hd] : d ∈ s.children a) hc
          (under_of_mem_below hx) (mem_branch hm).1
        exact (notMem_around (hlr ▸ hs.nodup_children a)).2 (hdc ▸ hd)
    · rw [horder, List.flatMap_cons]
      simp only [List.append_assoc]

/-- One sweep over what is below a clear node. -/
theorem sweep_below {st : σ} {rest : List Nat} (hinv : Inv done st) (ha : s.Clear marked a)
    (hdone : ∀ x ∈ s.below a, x ∉ done)
    (horder : s.topmost marked root = done ++ s.topmost marked a ++ rest) :
    Inv (done ++ s.topmost marked a)
      (sweep sheet handle st ((s.below a).filter marked)) := by
  induction a using s.downward generalizing done st rest with
  | step a ih =>
    rw [topmost_eq s marked a] at horder ⊢
    rw [below_eq] at hdone ⊢
    have hmem : ∀ c ∈ s.children a, ∀ x ∈ c :: s.below c, x ∉ done := fun c hc x hx =>
      hdone x (List.mem_flatMap.mpr ⟨c, hc, hx⟩)
    refine sweep_children sheet handle hs hcut hturn ha ?_ (l := []) rfl hinv ?_ ?_ horder
    · intro c hc done' st' rest' hinv' hclear hd ho
      exact ih c hc hinv' hclear hd ho
    · intro x hx
      simp [hmem x hx x List.mem_cons_self]
    · exact fun c hc x hx => hmem c hc x (List.mem_cons_of_mem c hx)

/-- A sweep over the whole document handles the topmost marked nodes, in document order. -/
theorem sweep_walk {st : σ} (hinv : Inv [] st) :
    Inv (s.topmost marked root) (sweep sheet handle st (s.walk.filter marked)) := by
  have hall : s.topmost marked root = [] ++ s.topmost marked root ++ [] := by
    rw [List.nil_append, List.append_nil]
  have h := sweep_below sheet handle hs hcut hturn hinv ReflTransGen.refl
    (fun x _ => List.not_mem_nil) hall
  rwa [List.nil_append] at h

end
end

end StylePack.Css.Sheet
