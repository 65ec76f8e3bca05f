import StylePack.Proofs.Transform.Sites

/-! How many rules get declarations. A directive says whether it put a package into its rule, and
the number of those that did is counted along with the sweep over them. -/
namespace StylePack.Expansion
open Css Css.Sheet
variable {P : PackageTable} {A : String → Option String} {s : Sheet}

section
variable {e : Expansion} {done : List Nat} {notes added : Nat → List Kind} {p d : Nat}

theorem useWord_snd (word : String) :
    (e.useWord P p d word).2 = P.contains (e.aliases.resolve word) := by
  rw [useWord_eq, PackageTable.contains_eq]
  cases P.get? (e.aliases.resolve word) <;> rfl

/-- The words of a directive put a package into the rule if one of them stands for a package. -/
theorem useWords_snd (words : List String) : (e.useWords P p d words).2 =
    words.any fun word => P.contains ((e.aliases.get? word).getD word) := by
  induction words generalizing e with
  | nil => rfl
  | cons word words ih =>
    rw [useWords, List.any_cons, ← AliasTable.resolve, ← useWord_snd (p := p) (d := d)]
    dsimp only
    rw [ih, useWord_aliases]

theorem expand_snd (hs : Linked s) (hd : d ∈ s.children p) (hdone : d ∉ done)
    (h : Rewritten s e.sheet done notes added) : (e.expand P d).2 =
      (s.isRule p && !decide (p ∈ e.used) && (directiveWords (s.kind d)).any fun word =>
        P.contains ((e.aliases.get? word).getD word)) := by
  rw [expand_pair hs hd hdone h]
  by_cases hr : s.isRule p
  · by_cases hu : p ∈ e.used
    · simp [hr, hu]
    · simp [hr, hu, useWords_snd]
  · simp [hr]

end

/-- The `@use` directives `done` were handled, and so many of them put a package into a rule. -/
structure Counted (P : PackageTable) (A : String → Option String) (s : Sheet)
    (start : List Diagnostic) (done : List Nat) (st : Expansion × Nat) : Prop where
  used : Used P A s start done st.1
  count_eq : st.2 = done.countP fun c => (siteAt s c).injects P A

theorem Counted.step {start : List Diagnostic} {done l r : List Nat} {st : Expansion × Nat}
    {p c : Nat} (h : Counted P A s start done st)
    (ht : Turn s (fun i => isUse (s.kind i)) done p l c r) (hs : Linked s) :
    Counted P A s start (done ++ [c])
      ((st.1.expand P c).1, st.2 + if (st.1.expand P c).2 then 1 else 0) where
  used := h.used.step ht hs
  count_eq := by
    have hinj : (st.1.expand P c).2 = (siteAt s c).injects P A := by
      rw [expand_snd hs ht.mem_children (ht.notMem_done hs) h.used.rewritten,
        siteAt_eq hs ht.children_eq, Site.injects, h.used.get?_eq]
      by_cases hr : s.isRule p
      · have hu : decide (p ∈ st.1.used) = l.any fun i => isUse (s.kind i) := by
          rw [Bool.eq_iff_iff, decide_eq_true_iff, h.used.mem_used_iff ht hr]
        rw [hu]
      · simp [hr]
    rw [hinj, List.countP_append, List.countP_singleton, ← h.count_eq]

/-- The sweep over the `@use` directives, with the count that is carried along. -/
theorem sweep_counted (P : PackageTable) (e : Expansion) (n : Nat) (directives : List Nat) :
    sweep (fun st => st.1.sheet) (fun st i =>
      ((st.1.expand P i).1, st.2 + if (st.1.expand P i).2 then 1 else 0)) (e, n) directives =
      ((e.expandAll P directives).1, n + (e.expandAll P directives).2) := by
  induction directives generalizing e n with
  | nil => rfl
  | cons i is ih =>
    rw [expandAll, sweep, List.foldl_cons]
    by_cases ha : e.sheet.isAttached i
    · simp only [ha, if_true]
      rw [← sweep, ih]
      congr 1
      split <;> omega
    · simp only [ha, Bool.false_eq_true, if_false]
      exact ih e n

/-- The `@use` directives of a sheet after all of them were handled and counted. -/
theorem Counted.run (P : PackageTable) {e : Expansion} (hs : Linked e.sheet) (hused : e.used = []) :
    Counted P e.aliases.get? e.sheet e.diagnostics
      (e.sheet.topmost (fun i => isUse (e.sheet.kind i)) root)
      (e.expandAll P (e.sheet.atRules "use")) := by
  have hstart : Counted P e.aliases.get? e.sheet e.diagnostics [] (e, 0) :=
    ⟨Used.start hs rfl hused, rfl⟩
  have hrun := sweep_walk (fun st : Expansion × Nat => st.1.sheet) (fun st i =>
      ((st.1.expand P i).1, st.2 + if (st.1.expand P i).2 then 1 else 0)) hs
    (fun _ _ h => h.used.rewritten.toCut) (fun _ _ _ _ _ _ h ht => h.step ht hs) hstart
  rw [sweep_counted, Nat.zero_add] at hrun
  rwa [atRules_eq]

end StylePack.Expansion
