import StylePack.Proofs.Transform.Call

/-! Calls one after another, for any nodes and in any order. What one of them does is said by
`Stepped`; from it come an invariant of every run (`Valid`), what a longer run keeps of a shorter
one (`Later`), and what holds of all runs (`safe_of_reachable`). -/
namespace StylePack.Call
open Css Css.Sheet
variable {P : PackageTable} {s : Sheet} {e : Expansion} {c : Call} {cs ds : List Call} {r : Nat}

def performAll (P : PackageTable) (e : Expansion) (cs : List Call) : Expansion :=
  cs.foldl (perform P) e

/-- Each call is made at a number that is taken when its turn comes. -/
def Allowed (P : PackageTable) : Expansion → List Call → Prop
  | _, [] => True
  | e, c :: cs => c.target < e.sheet.size ∧ Allowed P (perform P e c) cs

/-- A call puts new declarations directly into a node. -/
def Declares (P : PackageTable) (e : Expansion) (c : Call) (r : Nat) : Prop :=
  ∃ i ∈ (c.perform P e).sheet.children r, e.sheet.size ≤ i ∧
    ∃ d, (c.perform P e).sheet.kind? i = some (.declaration d)

theorem performAll_append (e : Expansion) (cs ds : List Call) :
    performAll P e (cs ++ ds) = performAll P (performAll P e cs) ds :=
  List.foldl_append

theorem allowed_append : Allowed P e (cs ++ ds) ↔
    Allowed P e cs ∧ Allowed P (performAll P e cs) ds := by
  induction cs generalizing e with
  | nil => exact (and_iff_right trivial).symm
  | cons c cs ih =>
    rw [List.cons_append, Allowed, Allowed, ih, and_assoc]
    rfl

theorem target_lt (h : Allowed P e (cs ++ [c])) : c.target < (performAll P e cs).sheet.size :=
  (allowed_append.mp h).2.1

/-- What holds all along. -/
structure Valid (P : PackageTable) (e : Expansion) : Prop where
  reachable : Reachable e.sheet
  isRule_used : ∀ r ∈ e.used, e.sheet.isRule r = true
  contains_bound : ∀ {name package}, e.aliases.get? name = some package →
    P.contains package = true

/-- What a later state has kept of an earlier one. -/
structure Later (e e' : Expansion) : Prop where
  keeps : Keeps e.sheet e'.sheet
  used_extends : e.used <+: e'.used
  aliases_kept : ∀ {name package}, e.aliases.get? name = some package →
    e'.aliases.get? name = some package

theorem isRule_of_keeps {t : Sheet} (h : Keeps s t) (hr : r < s.size) :
    t.isRule r = s.isRule r := by
  rw [isRule, isRule, h.kind?_eq r hr]

theorem lt_of_isRule (h : s.isRule r = true) : r < s.size := by
  by_contra hr
  rw [isRule, kind?_eq_none (Nat.le_of_not_lt hr)] at h
  cases h

theorem Valid.start (h : Reachable s) : Valid P (.start s) where
  reachable := h
  isRule_used r hr := absurd hr List.not_mem_nil
  contains_bound h := by simp [Expansion.start] at h

theorem Valid.stepped (h : Valid P e) (hc : c.target < e.sheet.size) :
    Stepped P c e (c.perform P e) :=
  Call.stepped h.reachable.linked hc

theorem Stepped.later {e' : Expansion} (h : Stepped P c e e') : Later e e' where
  keeps := h.edited.keeps
  used_extends := ⟨_, h.used_eq.symm⟩
  aliases_kept := h.aliases_kept

theorem Valid.step (h : Valid P e) (hc : c.target < e.sheet.size) :
    Valid P (c.perform P e) where
  reachable := h.reachable.edited (h.stepped hc).edited
  isRule_used r hr := by
    have hkeeps := (h.stepped hc).edited.keeps
    have hrule : e.sheet.isRule r = true := by
      rw [(h.stepped hc).used_eq, List.mem_append, Option.mem_toList] at hr
      exact hr.elim (h.isRule_used r) fun hr => (rule?_eq_some hr).2.1
    rwa [isRule_of_keeps hkeeps (lt_of_isRule hrule)]
  contains_bound hb := ((h.stepped hc).aliases_known hb).elim h.contains_bound id

theorem Valid.run (h : Valid P e) (ha : Allowed P e cs) : Valid P (performAll P e cs) := by
  induction cs generalizing e with
  | nil => exact h
  | cons c cs ih => exact ih (h.step ha.1) ha.2

theorem Valid.later (h : Valid P e) (ha : Allowed P e cs) : Later e (performAll P e cs) := by
  induction cs generalizing e with
  | nil => exact ⟨⟨le_rfl, fun _ _ => rfl⟩, List.prefix_rfl, id⟩
  | cons c cs ih =>
    have hfirst := (h.stepped ha.1).later
    have hrest := ih (h.step ha.1) ha.2
    exact ⟨⟨hfirst.keeps.size_le.trans hrest.keeps.size_le, fun i hi =>
        (hrest.keeps.kind?_eq i (hi.trans_le hfirst.keeps.size_le)).trans
          (hfirst.keeps.kind?_eq i hi)⟩,
      hfirst.used_extends.trans hrest.used_extends, fun hb =>
        hrest.aliases_kept (hfirst.aliases_kept hb)⟩

/-- Declarations go to the rule whose `@use` the call is taken to be. -/
theorem rule?_of_declares (h : Valid P e) (hc : c.target < e.sheet.size)
    (hd : Declares P e c r) : c.rule? e = some r := by
  obtain ⟨i, hi, hnew, d, hkind⟩ := hd
  have hparent := (h.step hc).reachable.linked.mem_children.mp hi
  rcases (h.stepped hc).new_kind i hnew (lt_of_mem_children hi).2 with ⟨text, ht⟩ | ⟨d', -, hp⟩
  · rw [ht] at hkind
    cases hkind
  · rw [← hp, hparent]

/-- After a call for a node directly in a rule the rule counts as used. -/
theorem mem_used_expand (h : Valid P e) {j : Nat} (hj : j < e.sheet.size)
    (hp : e.sheet.parent? j = some r) (hr : e.sheet.isRule r = true) :
    r ∈ (perform P e (.expand j)).used := by
  rw [(h.stepped (c := .expand j) hj).used_eq, List.mem_append, Option.mem_toList, rule?, hp,
    Option.filter_some, if_pos hr]
  by_cases hu : r ∈ e.used
  · exact Or.inl hu
  · refine Or.inr ?_
    rw [Option.filter_some, if_pos (by simpa using hu)]

/-- A rule gets declarations from the first call for a node in it, if at all. -/
theorem first_of_declares (h : Valid P e) {j : Nat}
    (ha : Allowed P e (cs ++ .expand j :: ds ++ [c]))
    (hd : Declares P (performAll P e (cs ++ .expand j :: ds)) c r) :
    (performAll P e cs).sheet.parent? j ≠ some r := by
  intro hp
  have hsplit := allowed_append.mp (allowed_append.mp ha).1
  have hbefore := h.run hsplit.1
  have hlater := (hbefore.step hsplit.2.1).later hsplit.2.2
  have hdeclared := rule?_of_declares (h.run (allowed_append.mp ha).1) (target_lt ha) hd
  obtain ⟨-, hr, hunused⟩ := rule?_eq_some hdeclared
  have hlt := hbefore.reachable.linked.parent_lt hp
  have hrule := isRule_of_keeps (hbefore.later hsplit.2).keeps (hlt.1.trans hlt.2)
  rw [performAll_append] at hr hunused
  rw [hr] at hrule
  exact hunused (hlater.used_extends.subset (mem_used_expand hbefore hsplit.2.1 hp hrule.symm))

/-- The last call of a run that starts at a stylesheet. -/
theorem last_stepped (h : Reachable s) (ha : Allowed P (.start s) (cs ++ [c])) :
    Valid P (performAll P (.start s) cs) ∧
      Stepped P c (performAll P (.start s) cs) (performAll P (.start s) (cs ++ [c])) := by
  have hbefore := (Valid.start h).run (allowed_append.mp ha).1
  rw [performAll_append]
  exact ⟨hbefore, hbefore.stepped (target_lt ha)⟩

/-- A state in the middle of a run, and what is kept of it until the end. -/
theorem later_of_append (h : Reachable s) (ha : Allowed P (.start s) (cs ++ ds)) :
    Later (performAll P (.start s) cs) (performAll P (.start s) (cs ++ ds)) := by
  obtain ⟨hcs, hds⟩ := allowed_append.mp ha
  rw [performAll_append]
  exact ((Valid.start h).run hcs).later hds

theorem expand_of_declares (h : Reachable s) (ha : Allowed P (.start s) (cs ++ [c]))
    (hd : Declares P (performAll P (.start s) cs) c r) :
    (performAll P (.start s) cs).sheet.isRule r = true ∧
      ∃ i, c = .expand i ∧ (performAll P (.start s) cs).sheet.parent? i = some r := by
  obtain ⟨hi, hr, -⟩ := rule?_eq_some (rule?_of_declares (last_stepped h ha).1 (target_lt ha) hd)
  exact ⟨hr, hi⟩

/-- What holds of all runs of calls that start with no alias bound and no rule used. -/
structure Safe (P : PackageTable) (s : Sheet) : Prop where
  /-- An alias keeps its package for ever. -/
  alias_kept : ∀ {cs ds : List Call}, Allowed P (.start s) (cs ++ ds) → ∀ {name package : String},
    (performAll P (.start s) cs).aliases.get? name = some package →
      (performAll P (.start s) (cs ++ ds)).aliases.get? name = some package
  alias_known : ∀ {cs : List Call}, Allowed P (.start s) cs → ∀ {name package : String},
    (performAll P (.start s) cs).aliases.get? name = some package → P.contains package = true
  /-- The call that puts declarations into a node is for a node directly in it, which is a rule, -/
  declares_expand : ∀ {cs : List Call} {c : Call} {r : Nat}, Allowed P (.start s) (cs ++ [c]) →
    Declares P (performAll P (.start s) cs) c r →
      (performAll P (.start s) cs).sheet.isRule r = true ∧
        ∃ i, c = .expand i ∧ (performAll P (.start s) cs).sheet.parent? i = some r
  /-- and it is the first such call. -/
  declares_first : ∀ {cs ds : List Call} {j : Nat} {c : Call} {r : Nat},
    Allowed P (.start s) (cs ++ .expand j :: ds ++ [c]) →
      Declares P (performAll P (.start s) (cs ++ .expand j :: ds)) c r →
        (performAll P (.start s) cs).sheet.parent? j ≠ some r
  declares_once : ∀ {cs ds : List Call} {c d : Call} {r : Nat},
    Allowed P (.start s) (cs ++ c :: ds ++ [d]) → Declares P (performAll P (.start s) cs) c r →
      ¬ Declares P (performAll P (.start s) (cs ++ c :: ds)) d r
  used_grows : ∀ {cs ds : List Call}, Allowed P (.start s) (cs ++ ds) →
    (performAll P (.start s) cs).used <+: (performAll P (.start s) (cs ++ ds)).used
  isRule_used : ∀ {cs : List Call}, Allowed P (.start s) cs →
    ∀ r ∈ (performAll P (.start s) cs).used, (performAll P (.start s) cs).sheet.isRule r = true
  /-- A node that was handled is gone. -/
  target_gone : ∀ {cs : List Call} {c : Call}, Allowed P (.start s) (cs ++ [c]) →
    c.target ≠ root → (performAll P (.start s) (cs ++ [c])).sheet.parent? c.target = none ∧
      (performAll P (.start s) (cs ++ [c])).sheet.isAttached c.target = false
  new_kind : ∀ {cs : List Call} {c : Call}, Allowed P (.start s) (cs ++ [c]) →
    ∀ i, (performAll P (.start s) cs).sheet.size ≤ i →
      i < (performAll P (.start s) (cs ++ [c])).sheet.size →
        (∃ text, (performAll P (.start s) (cs ++ [c])).sheet.kind? i = some (.comment text)) ∨
          ∃ d, (performAll P (.start s) (cs ++ [c])).sheet.kind? i = some (.declaration d)
  kind_kept : ∀ {cs : List Call} {c : Call}, Allowed P (.start s) (cs ++ [c]) →
    ∀ i < (performAll P (.start s) cs).sheet.size,
      (performAll P (.start s) (cs ++ [c])).sheet.kind? i =
        (performAll P (.start s) cs).sheet.kind? i
  /-- No other node loses its parent, -/
  parent_kept : ∀ {cs : List Call} {c : Call}, Allowed P (.start s) (cs ++ [c]) →
    ∀ i < (performAll P (.start s) cs).sheet.size, i ≠ c.target →
      (performAll P (.start s) (cs ++ [c])).sheet.parent? i =
        (performAll P (.start s) cs).sheet.parent? i
  /-- and what is not below the node stays in the stylesheet. -/
  attached_kept : ∀ {cs : List Call} {c : Call}, Allowed P (.start s) (cs ++ [c]) →
    ∀ i, (performAll P (.start s) cs).sheet.isAttached i = true →
      ¬ (performAll P (.start s) cs).sheet.Under c.target i →
        (performAll P (.start s) (cs ++ [c])).sheet.isAttached i = true

theorem safe_of_reachable (P : PackageTable) (h : Reachable s) : Safe P s where
  alias_kept ha _ _ hb := (later_of_append h ha).aliases_kept hb
  alias_known ha _ _ hb := ((Valid.start h).run ha).contains_bound hb
  declares_expand ha hd := expand_of_declares h ha hd
  declares_first ha hd := first_of_declares (Valid.start h) ha hd
  declares_once {cs ds c d r} ha hc hd := by
    have hsplit : Allowed P (.start s) (cs ++ [c] ++ (ds ++ [d])) := by simpa using ha
    obtain ⟨-, i, rfl, hp⟩ := expand_of_declares h (allowed_append.mp hsplit).1 hc
    exact first_of_declares (Valid.start h) ha hd hp
  used_grows ha := (later_of_append h ha).used_extends
  isRule_used ha := ((Valid.start h).run ha).isRule_used
  target_gone ha hroot := by
    have hp := (last_stepped h ha).2.parent?_target
    exact ⟨hp, ((Valid.start h).run ha).reachable.linked.isAttached_detached hroot hp⟩
  new_kind ha i hi hlt :=
    ((last_stepped h ha).2.new_kind i hi hlt).imp_right fun ⟨d, hd, _⟩ => ⟨d, hd⟩
  kind_kept ha := (last_stepped h ha).2.edited.keeps.kind?_eq
  parent_kept ha := (last_stepped h ha).2.parent?_eq
  attached_kept ha i hi hu := by
    obtain ⟨hbefore, hstep⟩ := last_stepped h ha
    exact hbefore.reachable.linked.isAttached_of_parent?_eq
      ((Valid.start h).run ha).reachable.linked hstep.parent?_eq hi hu

/-- The second `@use` of a rule is handled first, so the first one adds nothing. -/
theorem safe_second_use_first :
    Reachable (Sheet.parse ".a\x7b@use b;@use b;\x7d") ∧
      Allowed (.ofDescriptors [⟨"b", ⟨[("color", "red")], by decide⟩⟩])
        (.start (Sheet.parse ".a\x7b@use b;@use b;\x7d")) [.expand 3, .expand 2] ∧
      Declares (.ofDescriptors [⟨"b", ⟨[("color", "red")], by decide⟩⟩])
        (.start (Sheet.parse ".a\x7b@use b;@use b;\x7d")) (.expand 3) 1 ∧
      ¬ Declares (.ofDescriptors [⟨"b", ⟨[("color", "red")], by decide⟩⟩])
        (performAll (.ofDescriptors [⟨"b", ⟨[("color", "red")], by decide⟩⟩])
          (.start (Sheet.parse ".a\x7b@use b;@use b;\x7d")) [.expand 3]) (.expand 2) 1 := by
  have hdeclares : Declares (.ofDescriptors [⟨"b", ⟨[("color", "red")], by decide⟩⟩])
      (.start (Sheet.parse ".a\x7b@use b;@use b;\x7d")) (.expand 3) 1 :=
    ⟨4, by decide +kernel, by decide +kernel, ⟨"color", "red", false⟩, by decide +kernel⟩
  have hallowed : Allowed (.ofDescriptors [⟨"b", ⟨[("color", "red")], by decide⟩⟩])
      (.start (Sheet.parse ".a\x7b@use b;@use b;\x7d")) [.expand 3, .expand 2] :=
    ⟨by decide +kernel, by decide +kernel, trivial⟩
  have hsafe := safe_of_reachable (.ofDescriptors [⟨"b", ⟨[("color", "red")], by decide⟩⟩])
    (Reachable.parse ".a\x7b@use b;@use b;\x7d")
  exact ⟨.parse _, hallowed, hdeclares,
    @Safe.declares_once _ _ hsafe [] [] (.expand 3) (.expand 2) 1 hallowed hdeclares⟩

end StylePack.Call
