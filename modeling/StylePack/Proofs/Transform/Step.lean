import StylePack.Proofs.Sheet.Rewriting
import StylePack.Proofs.Transform.Expanded

/-! What handling one directive does to a sheet that is part way through its expansion. Both
directives come down to notes in front of the directive, leaves at the end of the rule around it
and the removal of the directive. -/
namespace StylePack.Expansion
open Css Css.Sheet
variable {P : PackageTable} {s : Sheet} {e : Expansion} {done : List Nat}
  {notes added : Nat → List Kind} {p d : Nat}

theorem wordsAt_eq (e : Expansion) (d : Nat) : e.wordsAt d = directiveWords (e.sheet.kind d) := by
  unfold wordsAt directiveWords params? kind
  cases e.sheet.kind? d <;> rfl

@[simp] theorem drop_sheet : (e.drop d).sheet = e.sheet.remove d := rfl

@[simp] theorem drop_aliases : (e.drop d).aliases = e.aliases := rfl

@[simp] theorem drop_used : (e.drop d).used = e.used := rfl

@[simp] theorem drop_diagnostics : (e.drop d).diagnostics = e.diagnostics := rfl

/-- Reports problems with a directive, one after the other. -/
def reportAll (e : Expansion) (d : Nat) (ds : List Diagnostic) : Expansion :=
  ds.foldl (fun e problem => e.report d problem) e

theorem reportAll_cons (e : Expansion) (d : Nat) (problem : Diagnostic) (ds : List Diagnostic) :
    e.reportAll d (problem :: ds) = (e.report d problem).reportAll d ds := rfl

@[simp] theorem reportAll_aliases (ds : List Diagnostic) :
    (e.reportAll d ds).aliases = e.aliases := by
  induction ds generalizing e with
  | nil => rfl
  | cons problem ds ih => rw [reportAll_cons, ih, report]

@[simp] theorem reportAll_used (ds : List Diagnostic) : (e.reportAll d ds).used = e.used := by
  induction ds generalizing e with
  | nil => rfl
  | cons problem ds ih => rw [reportAll_cons, ih, report]

@[simp] theorem reportAll_diagnostics (ds : List Diagnostic) :
    (e.reportAll d ds).diagnostics = e.diagnostics ++ ds := by
  induction ds generalizing e with
  | nil => simp [reportAll]
  | cons problem ds ih =>
    rw [reportAll_cons, ih, report, List.append_assoc, List.singleton_append]

section
variable (hs : Linked s) (hd : d ∈ s.children p) (hdone : d ∉ done)
include hs hd hdone

theorem report_rewritten (h : Rewritten s e.sheet done notes added) (problem : Diagnostic) :
    Rewritten s (e.report d problem).sheet done
      (Function.update notes d (notes d ++ [.comment problem.comment])) added := by
  obtain ⟨t, ht, hr⟩ := h.insertBefore hs hd hdone (.comment problem.comment)
  simpa only [report, ht] using hr

theorem reportAll_rewritten (h : Rewritten s e.sheet done notes added) (ds : List Diagnostic) :
    Rewritten s (e.reportAll d ds).sheet done
      (Function.update notes d (notes d ++ notesOf ds)) added := by
  induction ds generalizing e notes with
  | nil =>
    have hsame : Function.update notes d (notes d ++ notesOf []) = notes := by
      simp [notesOf]
    rwa [hsame]
  | cons problem ds ih =>
    have hnext := ih (report_rewritten hs hd hdone h problem)
    rwa [Function.update_self, Function.update_idem, List.append_assoc] at hnext

end

/-- The aliases after a `@package` directive. -/
def bindKind (P : PackageTable) (t : AliasTable) (k : Kind) : AliasTable :=
  match binding? P k with
  | some (name, package) => (t.register name package).1
  | none => t

theorem get?_bindKind (t : AliasTable) (k : Kind) (word : String) :
    (bindKind P t k).get? word = (t.get? word).or ((binding? P k).toList.lookup word) := by
  unfold bindKind
  cases binding? P k with
  | none => simp
  | some b =>
    obtain ⟨name, package⟩ := b
    rw [AliasTable.get?_register, Option.toList_some, List.lookup_cons]
    by_cases hw : word = name
    · subst hw
      cases t.get? word <;> simp
    · rw [if_neg hw, beq_eq_false_iff_ne.mpr hw]
      exact (Option.or_none).symm

/-- A `@package` directive that is handled: its problems are noted, its alias is bound, and it is
taken out. -/
theorem register_eq (P : PackageTable) (e : Expansion) (d : Nat) :
    e.register P d =
      ({ e with aliases := bindKind P e.aliases (e.sheet.kind d) }.reportAll d
        (packageProblems P e.aliases.get? (e.sheet.kind d))).drop d := by
  unfold register bindKind binding? packageProblems
  rw [wordsAt_eq]
  generalize directiveWords (e.sheet.kind d) = words
  match words with
  | [package, keyword, name] =>
    by_cases hk : Text.sameName keyword "as"
    · by_cases hp : P.contains package
      · simp only [hk, hp, Bool.not_true, Bool.false_eq_true, if_false, Bool.and_self, if_true,
          bind, AliasTable.register]
        cases e.aliases.get? name with
        | none => rfl
        | some existing =>
          by_cases he : existing = package
          · simp only [he, if_true]
            rfl
          · simp only [he, if_false]
            rfl
      · simp only [hk, hp, Bool.not_true, Bool.not_false, Bool.false_eq_true, if_false, if_true,
          Bool.and_false]
        rfl
    · simp only [hk, Bool.not_false, if_true, Bool.false_and, Bool.false_eq_true, if_false]
      rfl
  | [] | [_] | [_, _] | _ :: _ :: _ :: _ :: _ => rfl

theorem useWord_eq (P : PackageTable) (p d : Nat) (e : Expansion) (word : String) :
    e.useWord P p d word = match P.get? (e.aliases.resolve word) with
      | some package => (e.inject p package.styles, true)
      | none => (e.report d (.unknownInUse (e.aliases.resolve word)), false) := rfl

@[simp] theorem useWord_aliases (word : String) :
    (e.useWord P p d word).1.aliases = e.aliases := by
  rw [useWord_eq]
  split <;> rfl

@[simp] theorem useWord_used (word : String) : (e.useWord P p d word).1.used = e.used := by
  rw [useWord_eq]
  split <;> rfl

theorem useWord_diagnostics (word : String) : (e.useWord P p d word).1.diagnostics =
    e.diagnostics ++ (unknownWord? P e.aliases.get? word).toList := by
  rw [useWord_eq, unknownWord?, PackageTable.contains_eq, ← AliasTable.resolve]
  cases P.get? (e.aliases.resolve word) with
  | none => rfl
  | some package => exact (List.append_nil _).symm

@[simp] theorem useWords_aliases (words : List String) :
    (e.useWords P p d words).1.aliases = e.aliases := by
  induction words generalizing e with
  | nil => rfl
  | cons word words ih => rw [useWords, ih, useWord_aliases]

@[simp] theorem useWords_used (words : List String) :
    (e.useWords P p d words).1.used = e.used := by
  induction words generalizing e with
  | nil => rfl
  | cons word words ih => rw [useWords, ih, useWord_used]

theorem useWords_diagnostics (words : List String) : (e.useWords P p d words).1.diagnostics =
    e.diagnostics ++ words.filterMap (unknownWord? P e.aliases.get?) := by
  induction words generalizing e with
  | nil => simp [useWords]
  | cons word words ih =>
    rw [useWords, ih, useWord_aliases, useWord_diagnostics, List.append_assoc,
      List.filterMap_cons]
    cases unknownWord? P e.aliases.get? word <;> rfl

theorem addStyles_rewritten (hp : p < s.size) {s' : Sheet}
    (h : Rewritten s s' done notes added) (styles : List (String × String)) :
    Rewritten s (addStyles p s' styles) done notes
      (Function.update added p
        (added p ++ styles.map fun x => .declaration ⟨x.1, x.2, false⟩)) := by
  induction styles generalizing s' added with
  | nil =>
    rw [addStyles, List.map_nil, List.append_nil, Function.update_eq_self]
    exact h
  | cons x styles ih =>
    have hnext := ih (h.append hp (.declaration ⟨x.1, x.2, false⟩))
    rwa [Function.update_self, Function.update_idem, List.append_assoc] at hnext

theorem useWords_rewritten (hs : Linked s) (hd : d ∈ s.children p) (hdone : d ∉ done)
    (h : Rewritten s e.sheet done notes added) (words : List String) :
    Rewritten s (e.useWords P p d words).1.sheet done
      (Function.update notes d
        (notes d ++ notesOf (words.filterMap (unknownWord? P e.aliases.get?))))
      (Function.update added p (added p ++ words.flatMap (stylesOf P e.aliases.get?))) := by
  have hp : p < s.size := by
    have := lt_of_mem_children hd
    omega
  induction words generalizing e notes added with
  | nil =>
    simp only [List.filterMap_nil, notesOf, List.map_nil, List.append_nil, List.flatMap_nil,
      Function.update_eq_self]
    exact h
  | cons word words ih =>
    rw [useWords, useWord_eq, List.filterMap_cons, List.flatMap_cons, unknownWord?, stylesOf,
      PackageTable.contains_eq, ← AliasTable.resolve]
    cases P.get? (e.aliases.resolve word) with
    | none =>
      have hnext := ih (report_rewritten hs hd hdone h (.unknownInUse (e.aliases.resolve word)))
      rw [Function.update_self, Function.update_idem, List.append_assoc] at hnext
      exact hnext
    | some package =>
      have hnext := ih (e := e.inject p package.styles)
        (addStyles_rewritten hp h package.styles.entries)
      rw [Function.update_self, Function.update_idem, List.append_assoc] at hnext
      exact hnext

@[simp] theorem expand_aliases : (e.expand P d).1.aliases = e.aliases := by
  unfold expand
  cases (e.sheet.parent? d).filter e.sheet.isRule with
  | none => rfl
  | some p =>
    by_cases hu : p ∈ e.used
    · simp only [if_pos hu]
      rfl
    · simp only [if_neg hu, drop_aliases, useWords_aliases]

/-- What handling a `@use` directive comes to, in terms of the sheet at the start. -/
theorem expand_pair (hs : Linked s) (hd : d ∈ s.children p) (hdone : d ∉ done)
    (h : Rewritten s e.sheet done notes added) : e.expand P d =
      if s.isRule p then
        if p ∈ e.used then
          ((e.report d (.repeatedUse (" ".intercalate (directiveWords (s.kind d))))).drop d, false)
        else
          (({ e with used := e.used ++ [p] }.useWords P p d (directiveWords (s.kind d))).1.drop d,
            ({ e with used := e.used ++ [p] }.useWords P p d (directiveWords (s.kind d))).2)
      else (e.drop d, false) := by
  have hlt := lt_of_mem_children hd
  have hparent : e.sheet.parent? d = some p := by
    rw [h.parent?_eq d hlt.2, if_neg hdone, hs.mem_children.mp hd]
  have hrule : e.sheet.isRule p = s.isRule p := by
    rw [isRule, isRule, h.kind?_eq p (by omega)]
  have hkind : e.sheet.kind d = s.kind d := by
    rw [kind, kind, h.kind?_eq d hlt.2]
  unfold expand
  rw [wordsAt_eq, hkind, hparent, Option.filter_some, hrule]
  by_cases hr : s.isRule p
  · rw [if_pos hr, if_pos hr]
  · rw [if_neg hr, if_neg hr]

theorem expand_eq (hs : Linked s) (hd : d ∈ s.children p) (hdone : d ∉ done)
    (h : Rewritten s e.sheet done notes added) : (e.expand P d).1 =
      if s.isRule p then
        if p ∈ e.used then
          (e.report d (.repeatedUse (" ".intercalate (directiveWords (s.kind d))))).drop d
        else ({ e with used := e.used ++ [p] }.useWords P p d
          (directiveWords (s.kind d))).1.drop d
      else e.drop d := by
  rw [expand_pair hs hd hdone h, apply_ite Prod.fst, apply_ite Prod.fst]

/-- A `@use` directive that is handled: in a rule its problems are noted and the declarations of
its packages are added, unless the rule has one already; then it is taken out. -/
theorem expand_rewritten (hs : Linked s) (hd : d ∈ s.children p) (hdone : d ∉ done)
    (h : Rewritten s e.sheet done notes added) : Rewritten s (e.expand P d).1.sheet (done ++ [d])
      (Function.update notes d (notes d ++
        notesOf (useProblems P e.aliases.get? (s.isRule p) (p ∈ e.used) (s.kind d))))
      (Function.update added p (added p ++ if s.isRule p ∧ p ∉ e.used then
        injected P e.aliases.get? (s.kind d) else [])) := by
  rw [expand_eq hs hd hdone h]
  by_cases hr : s.isRule p
  · by_cases hu : p ∈ e.used
    · have hnext := (report_rewritten hs hd hdone h
        (.repeatedUse (" ".intercalate (directiveWords (s.kind d))))).remove hs hd hdone
      simp only [hr, hu, if_true, useProblems, decide_true, not_true, and_false, if_false,
        List.append_nil, Function.update_eq_self, drop_sheet, notesOf, List.map_singleton,
        Bool.not_true, Bool.false_eq_true]
      exact hnext
    · have hnext := (useWords_rewritten (e := { e with used := e.used ++ [p] }) hs hd hdone h
        (P := P) (directiveWords (s.kind d))).remove hs hd hdone
      simp only [hr, hu, if_true, useProblems, decide_false, not_false_eq_true, and_self, if_false,
        Bool.false_eq_true, Bool.not_true, drop_sheet, injected]
      exact hnext
  · simp only [hr, if_false, false_and, List.append_nil, Function.update_eq_self,
      Bool.false_eq_true, drop_sheet, useProblems, Bool.not_false, if_true, notesOf, List.map_nil]
    exact h.remove hs hd hdone

theorem expand_used (hs : Linked s) (hd : d ∈ s.children p) (hdone : d ∉ done)
    (h : Rewritten s e.sheet done notes added) : (e.expand P d).1.used =
      if s.isRule p ∧ p ∉ e.used then e.used ++ [p] else e.used := by
  rw [expand_eq hs hd hdone h]
  by_cases hr : s.isRule p
  · by_cases hu : p ∈ e.used
    · simp only [hr, hu, if_true, not_true, and_false, if_false]
      rfl
    · simp only [hr, hu, if_true, not_false_eq_true, and_self, if_false, drop_used,
        useWords_used]
  · simp only [hr, if_false, false_and, Bool.false_eq_true]
    rfl

theorem expand_diagnostics (hs : Linked s) (hd : d ∈ s.children p) (hdone : d ∉ done)
    (h : Rewritten s e.sheet done notes added) : (e.expand P d).1.diagnostics =
      e.diagnostics ++ useProblems P e.aliases.get? (s.isRule p) (p ∈ e.used) (s.kind d) := by
  rw [expand_eq hs hd hdone h]
  by_cases hr : s.isRule p
  · by_cases hu : p ∈ e.used
    · simp only [hr, hu, if_true, drop_diagnostics, useProblems, decide_true, report,
        Bool.not_true, Bool.false_eq_true, if_false]
    · simp only [hr, hu, if_true, if_false, drop_diagnostics, useProblems, decide_false,
        Bool.not_true, Bool.false_eq_true, useWords_diagnostics]
  · simp only [hr, if_false, Bool.false_eq_true, drop_diagnostics, useProblems, Bool.not_false,
      if_true, List.append_nil]

end StylePack.Expansion
