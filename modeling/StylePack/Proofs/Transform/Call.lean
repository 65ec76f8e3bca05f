import StylePack.Proofs.Sheet.Coherent
import StylePack.Proofs.Transform.Step

/-! One directive handled by its number, whatever the node with that number is. The sheet gets
comments, and declarations in one rule that was not used before, and the node goes (`Stepped`). -/
namespace StylePack
open Css Css.Sheet

/-- What can be asked for a node of a sheet. -/
inductive Call
  | register (target : Nat)
  | expand (target : Nat)
  deriving DecidableEq, Repr

namespace Css.Sheet
variable {s s' : Sheet} {p i : Nat} {kind : Kind} {cs : List Nat} {home : Option Nat}

/-- `s'` is `s` with new comments, and with new declarations below one node only. -/
structure Sprouted (home : Option Nat) (s s' : Sheet) : Prop where
  edited : Edited s s'
  parent?_eq : ∀ i < s.size, s'.parent? i = s.parent? i
  new_kind : ∀ i, s.size ≤ i → i < s'.size → (∃ text, s'.kind? i = some (.comment text)) ∨
    ∃ d, s'.kind? i = some (.declaration d) ∧ s'.parent? i = home

theorem Sprouted.refl (home : Option Nat) (s : Sheet) : Sprouted home s s where
  edited := .refl
  parent?_eq _ _ := rfl
  new_kind i hi hlt := by omega

theorem Sprouted.trans {t : Sheet} (h : Sprouted home s s') (h' : Sprouted home s' t) :
    Sprouted home s t where
  edited := h.edited.trans h'.edited
  parent?_eq i hi := by
    rw [h'.parent?_eq i (hi.trans_le h.edited.keeps.size_le), h.parent?_eq i hi]
  new_kind i hi hlt := by
    by_cases hold : i < s'.size
    · rw [h'.edited.keeps.kind?_eq i hold, h'.parent?_eq i hold]
      exact h.new_kind i hi hold
    · exact h'.new_kind i (by omega) hlt

theorem Grown.sprouted (hg : Grown s p kind cs s') (he : Edit s s')
    (hkind : (∃ text, kind = .comment text) ∨ ∃ d, kind = .declaration d ∧ some p = home) :
    Sprouted home s s' where
  edited := .single he
  parent?_eq i hi := by rw [hg.parent?_eq, if_neg hi.ne]
  new_kind i hi hlt := by
    rw [hg.size_eq] at hlt
    obtain rfl : i = s.size := by omega
    rw [hg.kind?_eq, if_pos rfl, hg.parent?_eq, if_pos rfl]
    rcases hkind with ⟨text, rfl⟩ | ⟨d, rfl, hp⟩
    · exact Or.inl ⟨text, rfl⟩
    · exact Or.inr ⟨d, rfl, hp⟩

theorem Reachable.edit (h : Reachable s) (he : Edit s s') : Reachable s' := by
  cases he with
  | append hp kind => exact h.append hp kind
  | insertBefore ht hs => exact h.insertBefore ht hs
  | remove hi => exact h.remove hi

theorem Reachable.edited (h : Reachable s) (he : Edited s s') : Reachable s' := by
  induction he with
  | refl => exact h
  | tail _ he ih => exact ih.edit he

/-- Where only one node may have lost its parent, what is not below it is attached still. -/
theorem Linked.isAttached_of_parent?_eq (h : Linked s) (h' : Linked s') {t : Nat}
    (hp : ∀ j < s.size, j ≠ t → s'.parent? j = s.parent? j) (hi : s.isAttached i = true)
    (ht : ¬ s.Under t i) : s'.isAttached i = true := by
  rw [h.isAttached_iff] at hi
  rw [h'.isAttached_iff]
  induction hi with
  | refl => exact .refl
  | @tail q c _ hc ih =>
    have hct : c ≠ t := by
      rintro rfl
      exact ht .refl
    have hchild : s'.Child q c := by
      rw [Child, h'.mem_children, hp c (lt_of_mem_children hc).2 hct]
      exact h.mem_children.mp hc
    exact (ih fun hq => ht (hq.tail hc)).tail hchild

end Css.Sheet

namespace Expansion
variable {P : PackageTable} {e : Expansion} {home : Option Nat} {p i : Nat}

theorem report_sprouted (hi : i < e.sheet.size) (d : Diagnostic) :
    Sprouted home e.sheet (e.report i d).sheet := by
  unfold report
  cases hins : e.sheet.insertBefore i (.comment d.comment) with
  | none => exact .refl home e.sheet
  | some r =>
    obtain ⟨t, new⟩ := r
    obtain ⟨-, q, -, -, hg⟩ := insertBefore_eq_some hins
    exact hg.sprouted (.insertBefore hi hins) (Or.inl ⟨_, rfl⟩)

theorem reportAll_sprouted (hi : i < e.sheet.size) (ds : List Diagnostic) :
    Sprouted home e.sheet (e.reportAll i ds).sheet := by
  induction ds generalizing e with
  | nil => exact .refl home e.sheet
  | cons d ds ih =>
    have hfirst : Sprouted home e.sheet (e.report i d).sheet := report_sprouted hi d
    exact hfirst.trans (ih (hi.trans_le hfirst.edited.keeps.size_le))

theorem addStyles_sprouted {s : Sheet} (hp : p < s.size) (styles : List (String × String)) :
    Sprouted (some p) s (addStyles p s styles) := by
  induction styles generalizing s with
  | nil => exact .refl _ s
  | cons x styles ih =>
    have hfirst : Sprouted (some p) s (s.append p (.declaration ⟨x.1, x.2, false⟩)).1 :=
      (append_grown hp _).sprouted (.append hp _) (Or.inr ⟨_, rfl, rfl⟩)
    exact hfirst.trans (ih (hp.trans_le hfirst.edited.keeps.size_le))

theorem useWord_sprouted (hi : i < e.sheet.size) (hp : p < e.sheet.size) (word : String) :
    Sprouted (some p) e.sheet (e.useWord P p i word).1.sheet := by
  rw [useWord_eq]
  split
  · exact addStyles_sprouted hp _
  · exact report_sprouted hi _

theorem useWords_sprouted (hi : i < e.sheet.size) (hp : p < e.sheet.size) (words : List String) :
    Sprouted (some p) e.sheet (e.useWords P p i words).1.sheet := by
  induction words generalizing e with
  | nil => exact .refl _ e.sheet
  | cons word words ih =>
    have hfirst := useWord_sprouted (P := P) hi hp word
    have hle := hfirst.edited.keeps.size_le
    exact hfirst.trans (ih (hi.trans_le hle) (hp.trans_le hle))

end Expansion

namespace Call
variable {P : PackageTable} {e : Expansion} {c : Call}

def target : Call → Nat
  | register i => i
  | expand i => i

def perform (P : PackageTable) (e : Expansion) : Call → Expansion
  | register i => e.register P i
  | expand i => (e.expand P i).1

/-- The rule whose `@use` a call is taken to be: it was not used before, and the target stands
directly in it. -/
def rule? (e : Expansion) : Call → Option Nat
  | register _ => none
  | expand i => ((e.sheet.parent? i).filter e.sheet.isRule).filter (· ∉ e.used)

theorem rule?_eq_some {r : Nat} (h : c.rule? e = some r) :
    (∃ i, c = .expand i ∧ e.sheet.parent? i = some r) ∧ e.sheet.isRule r = true ∧
      r ∉ e.used := by
  cases c with
  | register i => cases h
  | expand i =>
    obtain ⟨hfilter, hused⟩ := Option.filter_eq_some_iff.mp h
    obtain ⟨hp, hr⟩ := Option.filter_eq_some_iff.mp hfilter
    exact ⟨⟨i, rfl, hp⟩, hr, by simpa using hused⟩

/-- What a call at a number that is taken does. -/
structure Stepped (P : PackageTable) (c : Call) (e e' : Expansion) : Prop where
  edited : Edited e.sheet e'.sheet
  parent?_eq : ∀ j < e.sheet.size, j ≠ c.target → e'.sheet.parent? j = e.sheet.parent? j
  parent?_target : e'.sheet.parent? c.target = none
  new_kind : ∀ j, e.sheet.size ≤ j → j < e'.sheet.size →
    (∃ text, e'.sheet.kind? j = some (.comment text)) ∨
      ∃ d, e'.sheet.kind? j = some (.declaration d) ∧ e'.sheet.parent? j = c.rule? e
  used_eq : e'.used = e.used ++ (c.rule? e).toList
  aliases_kept : ∀ {name package}, e.aliases.get? name = some package →
    e'.aliases.get? name = some package
  aliases_known : ∀ {name package}, e'.aliases.get? name = some package →
    e.aliases.get? name = some package ∨ P.contains package = true

/-- A call that lets leaves sprout and then takes its target out. -/
theorem stepped_drop {e₁ : Expansion} (hc : c.target < e.sheet.size)
    (hs : Sprouted (c.rule? e) e.sheet e₁.sheet) (hused : e₁.used = e.used ++ (c.rule? e).toList)
    (hkept : ∀ {name package}, e.aliases.get? name = some package →
      e₁.aliases.get? name = some package)
    (hknown : ∀ {name package}, e₁.aliases.get? name = some package →
      e.aliases.get? name = some package ∨ P.contains package = true) :
    Stepped P c e (e₁.drop c.target) where
  edited := hs.edited.tail (.remove (hc.trans_le hs.edited.keeps.size_le))
  parent?_eq j hj hne := by
    rw [Expansion.drop_sheet, parent?_remove, if_neg hne, hs.parent?_eq j hj]
  parent?_target := by rw [Expansion.drop_sheet, parent?_remove, if_pos rfl]
  new_kind j hj hlt := by
    rw [Expansion.drop_sheet, size_remove] at hlt
    rw [Expansion.drop_sheet, kind?_remove, parent?_remove, if_neg (by omega)]
    exact hs.new_kind j hj hlt
  used_eq := hused
  aliases_kept := hkept
  aliases_known := hknown

theorem get?_bindKind_of_some {t : AliasTable} {k : Kind} {name package : String}
    (h : t.get? name = some package) : (Expansion.bindKind P t k).get? name = some package := by
  rw [Expansion.get?_bindKind, h, Option.some_or]

theorem contains_of_binding? {k : Kind} {name package : String}
    (h : binding? P k = some (name, package)) : P.contains package = true := by
  unfold binding? at h
  split at h
  · split at h
    · rename_i hknown
      cases h
      exact (Bool.and_eq_true_iff.mp hknown).2
    · cases h
  · cases h

theorem known_of_get?_bindKind {t : AliasTable} {k : Kind} {name package : String}
    (h : (Expansion.bindKind P t k).get? name = some package) :
    t.get? name = some package ∨ P.contains package = true := by
  rw [Expansion.get?_bindKind] at h
  rcases Option.or_eq_some_iff.mp h with h | ⟨-, h⟩
  · exact Or.inl h
  · right
    cases hb : binding? P k with
    | none => simp [hb] at h
    | some b =>
      rw [hb, Option.toList_some, List.lookup_cons] at h
      split at h
      · cases h
        exact contains_of_binding? hb
      · simp at h

theorem register_stepped {i : Nat} (hi : i < e.sheet.size) :
    Stepped P (.register i) e (e.register P i) := by
  have hreport (ds : List Diagnostic) : Sprouted none e.sheet _ :=
    Expansion.reportAll_sprouted
      (e := { e with aliases := Expansion.bindKind P e.aliases (e.sheet.kind i) }) hi ds
  rw [Expansion.register_eq]
  refine stepped_drop (c := .register i) hi (hreport _) ?_ ?_ ?_
  · rw [Expansion.reportAll_used]
    exact (List.append_nil _).symm
  · intro name package h
    rw [Expansion.reportAll_aliases]
    exact get?_bindKind_of_some h
  · intro name package h
    rw [Expansion.reportAll_aliases] at h
    exact known_of_get?_bindKind h

theorem expand_stepped (hlinked : Linked e.sheet) {i : Nat} (hi : i < e.sheet.size) :
    Stepped P (.expand i) e (e.expand P i).1 := by
  have hsame : ∀ {e₁ : Expansion}, e₁.aliases = e.aliases →
      Sprouted ((Call.expand i).rule? e) e.sheet e₁.sheet →
      e₁.used = e.used ++ ((Call.expand i).rule? e).toList →
      Stepped P (.expand i) e (e₁.drop i) := by
    intro e₁ ha hs hu
    exact stepped_drop (c := .expand i) hi hs hu (by rw [ha]; exact id) (by rw [ha]; exact Or.inl)
  unfold Expansion.expand
  cases hr : (e.sheet.parent? i).filter e.sheet.isRule with
  | none =>
    have hnone : (Call.expand i).rule? e = none := by rw [rule?, hr, Option.filter_none]
    rw [hnone] at hsame
    exact hsame rfl (.refl _ _) (List.append_nil _).symm
  | some r =>
    by_cases hu : r ∈ e.used
    · have hnone : (Call.expand i).rule? e = none := by
        rw [rule?, hr, Option.filter_some, if_neg (by simpa using hu)]
      rw [hnone] at hsame
      simp only [if_pos hu]
      exact hsame rfl (Expansion.report_sprouted hi _) (List.append_nil _).symm
    · have hsome : (Call.expand i).rule? e = some r := by
        rw [rule?, hr, Option.filter_some, if_pos (by simpa using hu)]
      have hlt := hlinked.parent_lt (Option.filter_eq_some_iff.mp hr).1
      have hrlt : r < e.sheet.size := hlt.1.trans hlt.2
      rw [hsome] at hsame
      simp only [if_neg hu]
      refine hsame (Expansion.useWords_aliases _)
        (Expansion.useWords_sprouted (e := { e with used := e.used ++ [r] }) hi hrlt _) ?_
      rw [Expansion.useWords_used]
      rfl

theorem stepped (hlinked : Linked e.sheet) (hc : c.target < e.sheet.size) :
    Stepped P c e (c.perform P e) := by
  cases c with
  | register i => exact register_stepped hc
  | expand i => exact expand_stepped hlinked hc

end Call
end StylePack
