import StylePack.Proofs.Transform.Registered

/-! The `@use` directives of a whole sheet, in document order. A rule counts as used from its first
`@use` on: just when one of the nodes directly below it is done. -/
namespace StylePack
open Css Css.Sheet
variable {P : PackageTable} {A : String → Option String} {s : Sheet}

/-- The problems of the `@use` directive with this number. -/
def useProblemsAt (P : PackageTable) (A : String → Option String) (s : Sheet) (c : Nat) :
    List Diagnostic :=
  match s.parent? c with
  | some p => useProblems P A (s.isRule p)
      (((s.children p).takeWhile (· != c)).any fun i => isUse (s.kind i)) (s.kind c)
  | none => []

theorem useProblemsAt_eq (hs : Linked s) {p c : Nat} {l r : List Nat}
    (hlr : s.children p = l ++ c :: r) : useProblemsAt P A s c =
      useProblems P A (s.isRule p) (l.any fun i => isUse (s.kind i)) (s.kind c) := by
  have hparent : s.parent? c = some p := hs.mem_children.mp (by simp [hlr])
  have hl := (notMem_around (hlr ▸ hs.nodup_children p)).1
  simp only [useProblemsAt, hparent, hlr, takeWhile_ne hl]

theorem isRule_eq (s : Sheet) (i : Nat) : s.isRule i = (s.kind i).isRule := by
  unfold isRule kind
  cases s.kind? i <;> rfl

/-- What becomes of the last children `r` of a node, if it is known for what is below them. -/
theorem appliedAll_children (hs : Linked s) {p : Nat}
    (hclear : s.Clear (fun i => isUse (s.kind i)) p) {l r : List Nat}
    (hlr : s.children p = l ++ r) (below : Nat → List (Css.Tree Kind))
    (hbelow : ∀ c ∈ s.children p, isUse (s.kind c) = false →
      Css.Tree.node (s.kind c) (below c) = applied P A (.node (s.kind c) (s.subtrees c))) :
    (r.flatMap fun c =>
      (if c ∈ s.topmost (fun i => isUse (s.kind i)) root then notesOf (useProblemsAt P A s c)
        else []).map Tree.leaf ++
      if c ∈ s.topmost (fun i => isUse (s.kind i)) root then []
        else [.node (s.kind c) (below c)]) =
      appliedAll P A (s.isRule p) (l.any fun i => isUse (s.kind i))
        (r.map fun c => .node (s.kind c) (s.subtrees c)) := by
  induction r generalizing l with
  | nil => rfl
  | cons c r ih =>
    have hc : c ∈ s.children p := by simp [hlr]
    have hnext := ih (l := l ++ [c]) (by simp [hlr])
    rw [List.flatMap_cons, hnext, List.map_cons, appliedAll, List.any_append]
    by_cases hm : isUse (s.kind c)
    · have hmem := (hclear.mem_topmost_iff hc).mpr hm
      simp only [if_pos hmem, Tree.label, hm, if_true, List.append_nil, List.any_cons,
        List.any_nil, Bool.or_false, Bool.or_true, useProblemsAt_eq hs hlr]
    · have hmem := mt (hclear.mem_topmost_iff hc).mp hm
      rw [Bool.not_eq_true] at hm
      simp only [if_neg hmem, Tree.label, hm, Bool.false_eq_true, if_false, List.map_nil,
        List.nil_append, List.singleton_append, List.any_cons, List.any_nil, Bool.or_false,
        hbelow c hc hm]

/-- A node gets what its `@use` directives ask for, if it has one at all. -/
theorem addedTo_children {p : Nat} (hclear : s.Clear (fun i => isUse (s.kind i)) p) :
    (if ∃ c ∈ s.children p, c ∈ s.topmost (fun i => isUse (s.kind i)) root then
      addedTo P A (s.isRule p) ((s.children p).map s.kind) else []) =
      addedTo P A (s.isRule p) ((s.subtrees p).map Tree.label) := by
  have hlabels : (s.subtrees p).map Tree.label = (s.children p).map s.kind := by
    rw [s.subtrees_eq, List.map_map]
    rfl
  rw [hlabels]
  by_cases hex : ∃ c ∈ s.children p, c ∈ s.topmost (fun i => isUse (s.kind i)) root
  · rw [if_pos hex]
  · have hnone : ((s.children p).map s.kind).find? isUse = none := by
      rw [List.find?_eq_none]
      intro k hk hm
      obtain ⟨c, hc, rfl⟩ := List.mem_map.mp hk
      exact hex ⟨c, hc, (hclear.mem_topmost_iff hc).mpr hm⟩
    rw [if_neg hex, addedTo, hnone, Option.map_none, Option.getD_none, ite_self]

namespace Expansion

/-- The `@use` directives `done` were handled. -/
structure Used (P : PackageTable) (A : String → Option String) (s : Sheet) (start : List Diagnostic)
    (done : List Nat) (e : Expansion) : Prop where
  rewritten : Rewritten s e.sheet done
    (fun c => if c ∈ done then notesOf (useProblemsAt P A s c) else [])
    fun p => if ∃ c ∈ s.children p, c ∈ done then
      addedTo P A (s.isRule p) ((s.children p).map s.kind) else []
  get?_eq : e.aliases.get? = A
  mem_used : ∀ p, p ∈ e.used ↔ s.isRule p = true ∧ ∃ c ∈ s.children p, c ∈ done
  diagnostics_eq : e.diagnostics = start ++ done.flatMap (useProblemsAt P A s)

theorem Used.start (hs : Linked s) {e : Expansion} (hsheet : e.sheet = s) (hused : e.used = []) :
    Used P e.aliases.get? s e.diagnostics [] e where
  rewritten := by
    subst hsheet
    simpa using Rewritten.refl hs
  get?_eq := rfl
  mem_used p := by simp [hused]
  diagnostics_eq := (List.append_nil _).symm

section
variable {start : List Diagnostic} {done l r : List Nat} {e : Expansion} {p c : Nat}
  (h : Used P A s start done e) (ht : Turn s (fun i => isUse (s.kind i)) done p l c r)
include h ht

/-- At the turn of a directive in a rule, the rule counts as used if a `@use` stands before it. -/
theorem Used.mem_used_iff (hr : s.isRule p = true) :
    p ∈ e.used ↔ (l.any fun i => isUse (s.kind i)) = true := by
  rw [h.mem_used, and_iff_right hr, List.any_eq_true]
  constructor
  · rintro ⟨x, hx, hd⟩
    exact ⟨x, (ht.mem_done x hx).mp hd⟩
  · rintro ⟨x, hx, hm⟩
    have hc : x ∈ s.children p := by
      rw [ht.children_eq]
      exact List.mem_append_left _ hx
    exact ⟨x, hc, (ht.mem_done x hc).mpr ⟨hx, hm⟩⟩

/-- What a directive adds to its rule is what the rule gets in all. -/
theorem Used.added_eq (hr : s.isRule p = true) (hu : p ∉ e.used) :
    addedTo P A (s.isRule p) ((s.children p).map s.kind) = injected P A (s.kind c) := by
  rw [h.mem_used_iff ht hr, List.any_eq_true] at hu
  have hl : (l.map s.kind).find? isUse = none := by
    rw [List.find?_eq_none]
    intro k hk
    obtain ⟨x, hx, rfl⟩ := List.mem_map.mp hk
    exact fun hm => hu ⟨x, hx, hm⟩
  have hc : isUse (s.kind c) = true := ht.marked_eq
  rw [addedTo, if_pos hr, ht.children_eq, List.map_append, List.map_cons, List.find?_append, hl,
    Option.none_or, List.find?_cons, hc]
  rfl

theorem Used.problems_eq (hs : Linked s) : useProblemsAt P A s c =
    useProblems P A (s.isRule p) (p ∈ e.used) (s.kind c) := by
  rw [useProblemsAt_eq hs ht.children_eq]
  by_cases hr : s.isRule p
  · have hu : decide (p ∈ e.used) = l.any fun i => isUse (s.kind i) := by
      rw [Bool.eq_iff_iff, decide_eq_true_iff, h.mem_used_iff ht hr]
    rw [hu]
  · simp [useProblems, hr]

/-- What the nodes have got after the turn of a directive. -/
theorem Used.update_added (hs : Linked s) : Function.update
    (fun p => if ∃ c ∈ s.children p, c ∈ done then
      addedTo P A (s.isRule p) ((s.children p).map s.kind) else []) p
    ((if ∃ c ∈ s.children p, c ∈ done then
      addedTo P A (s.isRule p) ((s.children p).map s.kind) else []) ++
      if s.isRule p ∧ p ∉ e.used then injected P A (s.kind c) else []) =
    fun q => if ∃ x ∈ s.children q, x ∈ done ++ [c] then
      addedTo P A (s.isRule q) ((s.children q).map s.kind) else [] := by
  funext q
  by_cases hq : q = p
  · subst hq
    rw [Function.update_self, if_pos ((ht.exists_done_iff hs q).mpr (Or.inr rfl))]
    by_cases hr : s.isRule q
    · by_cases hu : q ∈ e.used
      · rw [if_pos ((h.mem_used q).mp hu).2, if_neg (fun hn => hn.2 hu), List.append_nil]
      · rw [if_neg (fun he => hu ((h.mem_used q).mpr ⟨hr, he⟩)), if_pos ⟨hr, hu⟩,
          h.added_eq ht hr hu, List.nil_append]
    · simp [addedTo, hr]
  · rw [Function.update_of_ne hq]
    simp only [ht.exists_done_iff hs q, hq, or_false]

theorem Used.step (hs : Linked s) : Used P A s start (done ++ [c]) (e.expand P c).1 := by
  have hnew := ht.notMem_done hs
  have hrew := expand_rewritten (P := P) hs ht.mem_children hnew h.rewritten
  rw [h.get?_eq, ← h.problems_eq ht hs] at hrew
  refine ⟨?_, by rw [expand_aliases, h.get?_eq], ?_, ?_⟩
  · rwa [update_done hnew, h.update_added ht hs] at hrew
  · intro q
    rw [expand_used hs ht.mem_children hnew h.rewritten, ht.exists_done_iff hs q]
    by_cases hu : s.isRule p ∧ p ∉ e.used
    · rw [if_pos hu, List.mem_append, List.mem_singleton, h.mem_used, and_or_left]
      refine or_congr_right ⟨?_, fun hq => hq.2⟩
      rintro rfl
      exact ⟨hu.1, rfl⟩
    · rw [if_neg hu, h.mem_used, and_or_left]
      refine (or_iff_left_of_imp ?_).symm
      rintro ⟨hr, rfl⟩
      have hin := Classical.not_not.mp (not_and.mp hu hr)
      exact (h.mem_used q).mp hin
  · rw [expand_diagnostics hs ht.mem_children hnew h.rewritten, h.diagnostics_eq, h.get?_eq,
      List.flatMap_append, List.flatMap_singleton, h.problems_eq ht hs, List.append_assoc]

end

theorem expandAll_fst (P : PackageTable) (e : Expansion) (directives : List Nat) :
    (e.expandAll P directives).1 =
      sweep Expansion.sheet (fun e i => (e.expand P i).1) e directives := by
  induction directives generalizing e with
  | nil => rfl
  | cons i is ih =>
    rw [expandAll, sweep, List.foldl_cons]
    split
    · exact ih _
    · exact ih e

/-- The `@use` directives of a sheet after all of them were handled. -/
theorem Used.run (P : PackageTable) {e : Expansion} (hs : Linked e.sheet) (hused : e.used = []) :
    Used P e.aliases.get? e.sheet e.diagnostics
      (e.sheet.topmost (fun i => isUse (e.sheet.kind i)) root)
      (e.expandAll P (e.sheet.atRules "use")).1 := by
  rw [expandAll_fst, atRules_eq]
  exact sweep_walk Expansion.sheet (fun e i => (e.expand P i).1) hs
    (fun _ _ h => h.rewritten.toCut) (fun _ _ _ _ _ _ h ht => h.step ht hs)
    (Used.start hs rfl hused)

section
variable {start : List Diagnostic} {e : Expansion} {p : Nat}
  (h : Used P A s start (s.topmost (fun i => isUse (s.kind i)) root) e)
include h

theorem Used.subtrees_eq (hs : Linked s) (hp : p < s.size)
    (hclear : s.Clear (fun i => isUse (s.kind i)) p) :
    e.sheet.subtrees p = appliedAll P A (s.isRule p) false (s.subtrees p) ++
      (addedTo P A (s.isRule p) ((s.subtrees p).map Tree.label)).map Tree.leaf := by
  induction p using s.downward with
  | step p ih =>
    have hall := appliedAll_children (P := P) (A := A) hs hclear (l := []) (r := s.children p) rfl
      e.sheet.subtrees ?_
    · rw [h.rewritten.subtrees_eq hp, addedTo_children hclear, hall, ← s.subtrees_eq p]
      rfl
    · intro c hc hm
      have hlt := lt_of_mem_children hc
      rw [ih c hc hlt.2 (hclear.tail ⟨hc, hm⟩), isRule_eq, applied]

/-- What the `@use` directives make of a sheet. -/
theorem Used.contents_eq (hs : Linked s) :
    e.sheet.contents = appliedAll P A false false s.contents := by
  have hroot : s.isRule root = false := hs.isRule_root
  have hall := h.subtrees_eq hs hs.root_lt Relation.ReflTransGen.refl
  rw [hroot, addedTo, if_neg Bool.false_ne_true, List.map_nil, List.append_nil] at hall
  exact hall

end

end Expansion
end StylePack
