import StylePack.Proofs.Sheet.Order
import StylePack.Proofs.Sheet.Sweep

/-! The topmost marked nodes are those of the document that are marked and have no marked node
around them (`topmost_eq_filter`), and each of them has its turn in a sweep (`exists_turn`). -/
namespace StylePack.Css.Sheet
open Relation
variable {s : Sheet} {marked : Nat → Bool} {a b c i x : Nat}

/-- The nodes of the document that a node stands below. -/
def enclosing (s : Sheet) (i : Nat) : List Nat := s.walk.filter fun a => i ∈ s.below a

/-- A marked node with no marked node around it. -/
def exposed (s : Sheet) (marked : Nat → Bool) (i : Nat) : Bool :=
  marked i && !(s.enclosing i).any marked

theorem exposed_iff : s.exposed marked i = true ↔
    marked i = true ∧ ∀ a ∈ s.walk, i ∈ s.below a → marked a = false := by
  simp [exposed, enclosing]

/-- Above a clear node there is no marked node, and it is not marked itself. -/
theorem Clear.marked_eq (h : Linked s) (ha : s.Clear marked a) (hb : s.Under b a) :
    b = root ∨ marked b = false := by
  induction ha with
  | refl =>
    have := Under.le hb
    exact Or.inl (Nat.le_zero.mp this)
  | @tail p c _ hc ih =>
    rcases ReflTransGen.cases_tail hb with rfl | ⟨q, hq, hqc⟩
    · exact Or.inr hc.2
    · apply ih
      rwa [h.parent_unique hc.1 hqc]

theorem Clear.mem_walk (h : Linked s) (ha : s.Clear marked a) (hc : c ∈ s.children a) :
    c ∈ s.walk := by
  have hu : s.Under root a := ReflTransGen.mono (fun _ _ hq => hq.1) root a ha
  have hlt := lt_of_mem_children hc
  rw [h.mem_walk_iff, h.isAttached_iff]
  refine ⟨hu.tail hc, ?_⟩
  rintro rfl
  exact Nat.not_lt_zero a hlt.1

/-- Of the children of a clear node, the marked ones are exposed. -/
theorem Clear.exposed_eq (h : Linked s) (ha : s.Clear marked a) (hc : c ∈ s.children a) :
    s.exposed marked c = marked c := by
  rw [Bool.eq_iff_iff, exposed_iff, and_iff_left_iff_imp]
  intro _ b hb hcb
  obtain ⟨d, hd, hdc⟩ := mem_below_iff.mp hcb
  have hba : s.Under b a := by
    rcases ReflTransGen.cases_tail hdc with rfl | ⟨q, hq, hqc⟩
    · rw [h.parent_unique hc hd]
      exact ReflTransGen.refl
    · rw [h.parent_unique hc hqc]
      exact hq.head hd
  refine (ha.marked_eq h hba).resolve_left ?_
  exact ((h.mem_walk_iff b).mp hb).2

theorem Clear.topmost_eq (h : Linked s) (ha : s.Clear marked a) :
    s.topmost marked a = (s.below a).filter (s.exposed marked) := by
  induction a using s.downward with
  | step a ih =>
    rw [Sheet.topmost_eq, below_eq, List.filter_flatMap]
    refine List.flatMap_congr fun c hc => ?_
    have hexp := ha.exposed_eq h hc
    unfold branch
    by_cases hm : marked c
    · have hcover : (s.below c).filter (s.exposed marked) = [] := by
        rw [List.filter_eq_nil_iff]
        intro x hx hx'
        have hcm := (exposed_iff.mp hx').2 c (ha.mem_walk h hc) hx
        simp [hm] at hcm
      rw [if_pos hm, List.filter_cons_of_pos (hexp.trans hm), hcover]
    · rw [if_neg hm, List.filter_cons_of_neg (by rw [hexp]; exact hm)]
      exact ih c hc (ha.tail ⟨hc, by simpa using hm⟩)

/-- The topmost marked nodes of a document, in its order. -/
theorem Linked.topmost_eq_filter (h : Linked s) (marked : Nat → Bool) :
    s.topmost marked root = s.walk.filter (s.exposed marked) :=
  Clear.topmost_eq h ReflTransGen.refl

/-- Marked nodes that were taken out, each at its turn. -/
structure Turned (s : Sheet) (marked : Nat → Bool) (done : List Nat) (t : Sheet) : Prop where
  rewritten : Rewritten s t done (fun _ => []) (fun _ => [])
  exists_turn : ∀ c ∈ done, ∃ done p l r, Turn s marked done p l c r

theorem Turned.step {done l r : List Nat} {t : Sheet} {p : Nat} (ht : Turned s marked done t)
    (h : Linked s) (hturn : Turn s marked done p l c r) :
    Turned s marked (done ++ [c]) (t.remove c) := by
  refine ⟨ht.rewritten.remove h hturn.mem_children (hturn.notMem_done h), fun d hd => ?_⟩
  rcases List.mem_append.mp hd with hd | hd
  · exact ht.exists_turn d hd
  · rw [List.mem_singleton.mp hd]
    exact ⟨done, p, l, r, hturn⟩

/-- Every topmost node has its turn, when the topmost ones in front of it are done. -/
theorem Linked.exists_turn (h : Linked s) (hc : c ∈ s.topmost marked root) :
    ∃ done p l r, Turn s marked done p l c r := by
  have hstart : Turned s marked [] s := ⟨Rewritten.refl h, by simp⟩
  have hall : Turned s marked (s.topmost marked root)
      (sweep (fun t => t) Sheet.remove s (s.walk.filter marked)) :=
    sweep_walk _ _ h (fun _ _ ht => ht.rewritten.toCut)
      (fun _ _ _ _ _ _ ht hturn => ht.step h hturn) hstart
  exact hall.exists_turn c hc

end StylePack.Css.Sheet
