import StylePack.Proofs.Css.Tidy

/-! Runs of the reader over what the printer writes for one node: the line of a node without a
block (`run_line`), and the part in front of a block (`run_opening`). -/
namespace StylePack.Css.Tree
open Token Text

/-- Parameters as they stand between a name and what ends them, with spaces around them. -/
structure Pads (params : String) (cs : List Char) : Prop extends Clean cs where
  noUrl : ¬ HoldsUrl cs
  head : ∀ c ∈ cs.head?, isNamePart c = false
  single : ¬ [' ', ' '] <:+: cs
  trim_eq : trim cs = params.toList

/-- Parameters as they are written after a name. -/
def padded (params : String) : List Char := if params.isEmpty then [] else ' ' :: params.toList

section
variable {params : String} {cs : List Char}

theorem Pads.append_space (h : Pads params cs) (hlast : cs.getLast? ≠ some ' ') :
    Pads params (cs ++ [' ']) ∧ Firm (cs ++ [' ']) := by
  have hfirm : Firm (cs ++ [' ']) :=
    Firm.join h.toClean h.noUrl Firm.nil (by decide) (by decide) (by decide)
  refine ⟨⟨hfirm.toClean, hfirm.noUrl, fun c hc => ?_, ?_, ?_⟩, hfirm⟩
  · cases cs with
    | nil =>
      obtain rfl : ' ' = c := by simpa using hc
      decide
    | cons d r => exact h.head c hc
  · rw [pair_append_iff (Or.inl hlast)]
    rintro (hi | hi)
    · exact h.single hi
    · simpa using hi.length_le
  · rw [trim_append_blank (by decide), h.trim_eq]

theorem Pads.takeWhile_eq (h : Pads params cs) : cs.takeWhile isNamePart = [] := by
  cases cs with
  | nil => rfl
  | cons c r => rw [List.takeWhile_cons_of_neg (by simp [h.head c rfl])]

theorem padded_cases (params : String) :
    (params.toList = [] ∧ padded params = []) ∨
      (params.toList ≠ [] ∧ padded params = ' ' :: params.toList) := by
  unfold padded
  by_cases h : params = ""
  · left
    subst h
    exact ⟨rfl, rfl⟩
  · right
    rw [if_neg (by simpa using h)]
    exact ⟨by simpa using h, rfl⟩

theorem pads_padded (h : Neat params) (hsingle : ¬ [' ', ' '] <:+: params.toList) :
    Pads params (padded params) := by
  rcases padded_cases params with ⟨hnil, hpad⟩ | ⟨hne, hpad⟩
  · rw [hpad]
    refine ⟨Firm.nil.toClean, Firm.nil.noUrl, by simp, by simp, ?_⟩
    rw [hnil]
    rfl
  · rw [hpad]
    have hclean : Clean (' ' :: params.toList) := h.toClean.cons (by decide) (by decide)
    refine ⟨hclean, fun hu => ?_, fun c hc => ?_, ?_, ?_⟩
    · rcases (holdsUrl_append_cons (by decide) [] params.toList).mp hu with hu | hu
      · exact Firm.nil.noUrl hu
      · exact h.noUrl hu
    · obtain rfl : ' ' = c := by simpa using hc
      decide
    · have hsplit : ' ' :: params.toList = [' '] ++ params.toList := rfl
      rw [hsplit, pair_append_iff (Or.inr h.head_ne)]
      rintro (hi | hi)
      · simpa using hi.length_le
      · exact hsingle hi
    · rw [trim_cons_blank (by decide), h.trimmed]

/-- Where there are parameters, they stand last. -/
theorem getLast?_padded (params : String) : (padded params).getLast? = params.toList.getLast? := by
  rcases padded_cases params with ⟨hnil, hpad⟩ | ⟨hne, hpad⟩
  · rw [hpad, hnil]
  · rw [hpad]
    obtain ⟨c, r, hr⟩ := List.exists_cons_of_ne_nil hne
    rw [hr, List.getLast?_cons_cons]

theorem toList_atRule (name params : String) (hasBlock : Bool) :
    (header (.atRule name params hasBlock)).toList =
      '@' :: (name.toList ++ padded params ++ [if hasBlock then ' ' else ';']) := by
  unfold header padded
  rw [String.toList_append, String.toList_append, String.toList_append]
  cases params.isEmpty <;> cases hasBlock <;> simp

theorem toList_comment (text : String) : (header (.comment text)).toList =
    '/' :: '*' :: (' ' :: (text.toList ++ [' ']) ++ ['*', '/']) := by
  unfold header
  rw [String.toList_append, String.toList_append]
  simp

/-- The text of a declaration is firm where its value is. -/
theorem firm_text {property value : List Char} (hname : IsName property) (hvalue : Firm value)
    (important : Bool) : Firm (property ++ ':' ::
      (' ' :: (value ++ if important then " !important".toList else []))) := by
  have hflag : Firm "!important".toList :=
    ⟨⟨by decide, by decide⟩, not_holdsUrl_of_notMem (by decide), by decide⟩
  have htail : Firm (value ++ if important then " !important".toList else []) := by
    cases important with
    | false =>
      rw [if_neg Bool.false_ne_true, List.append_nil]
      exact hvalue
    | true =>
      rw [if_pos rfl]
      exact Firm.join hvalue.toClean hvalue.noUrl hflag (by decide) (by decide) (by decide)
  have hspace : Firm ([] ++ ' ' :: (value ++ if important then " !important".toList else [])) :=
    Firm.join Firm.nil.toClean Firm.nil.noUrl htail (by decide) (by decide) (by decide)
  have hround : '(' ∉ property := fun hm => absurd (hname.isNamePart _ hm) (by decide)
  exact Firm.join hname.clean (not_holdsUrl_of_notMem hround) hspace (by decide) (by decide)
    (by decide)

end

namespace Reader
section
variable (done : List (Tree Kind)) (outer : List (Kind × List (Tree Kind))) (rest : List Char)

theorem run_ruleOpening {inBlock : Bool} {selector : String}
    (h : (Kind.rule selector).Tidy inBlock) :
    (between done outer).run ((header (.rule selector)).toList ++ '\x7b' :: rest) =
      (between [] ((.rule selector, done) :: outer)).run rest := by
  obtain ⟨hneat, c, r, hs, hc⟩ := h
  have hfirm := hneat.append_space
  have htrim : trim (Slice.of (selector.toList ++ [' '])).kept = selector.toList := by
    rw [hfirm.kept_eq, trim_append_blank (by decide), hneat.trimmed]
  have htext : (header (.rule selector)).toList = selector.toList ++ [' '] :=
    String.toList_append
  have hcons : selector.toList ++ [' '] = c :: (r ++ [' ']) := by rw [hs, List.cons_append]
  rw [hcons] at hfirm htrim
  rw [htext, hcons, run_rule done outer rest hc hfirm.toClean, htrim, String.ofList_toList]

theorem atRuleKind_eq {name params : String} {cs : List Char} (h : Pads params cs)
    (hasBlock : Bool) :
    atRuleKind name.toList cs hasBlock = .atRule name params hasBlock := by
  rw [atRuleKind, h.trim_eq, String.ofList_toList, String.ofList_toList]

theorem run_atRuleOpening {inBlock : Bool} {name params : String}
    (h : (Kind.atRule name params true).Tidy inBlock) :
    (between done outer).run ((header (.atRule name params true)).toList ++ '\x7b' :: rest) =
      (between [] ((.atRule name params true, done) :: outer)).run rest := by
  obtain ⟨hname, hneat, hsingle, -⟩ := h
  have hlast : (padded params).getLast? ≠ some ' ' := by
    rw [getLast?_padded]
    exact hneat.last_ne
  obtain ⟨hpads, hfirm⟩ := (pads_padded hneat hsingle).append_space hlast
  have hskip := Slice.skipping_of hpads.plain hpads.balanced
  rw [toList_atRule, if_pos rfl, List.append_assoc, List.cons_append,
    run_atKeyword done outer _ hname hpads.toClean hpads.takeWhile_eq hpads.single
      (Stop.block rest),
    run_openAtRule done outer rest hskip, hfirm.kept_eq, atRuleKind_eq hpads]

theorem run_atRuleLine {inBlock : Bool} {name params : String}
    (h : (Kind.atRule name params false).Tidy inBlock) :
    (between done outer).run ((header (.atRule name params false)).toList ++ rest) =
      (between (node (.atRule name params false) [] :: done) outer).run rest := by
  obtain ⟨hname, hneat, hsingle, hbracket⟩ := h
  have hpads := pads_padded hneat hsingle
  have hlast : (padded params).getLast? ≠ some ')' := by
    rw [getLast?_padded]
    exact hbracket rfl
  have hfirm : Firm (padded params) := ⟨hpads.toClean, hpads.noUrl, hlast⟩
  have hskip := Slice.skipping_of hpads.plain hpads.balanced
  rw [toList_atRule, if_neg Bool.false_ne_true, List.cons_append, List.append_assoc,
    List.singleton_append,
    run_atKeyword done outer _ hname hpads.toClean hpads.takeWhile_eq hpads.single
      (Stop.semicolon rest),
    run_endAtRule done outer rest hskip, hfirm.kept_eq, atRuleKind_eq hpads]

theorem run_declarationLine {d : Declaration}
    (h : (Kind.declaration d).Tidy (!outer.isEmpty)) :
    (between done outer).run ((header (.declaration d)).toList ++ rest) =
      (between (node (.declaration d) [] :: done) outer).run rest := by
  obtain ⟨hblock, hname, hneat, hbang, hbracket⟩ := h
  have hfirm := firm_text hname (hneat.firm hbracket) d.important
  rw [← Declaration.toList_text] at hfirm
  have hof : Declaration.ofText? d.text.toList = some d :=
    Declaration.ofText?_text hname.ne_nil hname.word hneat.trimmed fun _ =>
      Declaration.splitImportance_of_notMem hbang
  have hadd : (between done outer).addDeclaration d.text.toList =
      between (node (.declaration d) [] :: done) outer := by
    have hopen : ¬ outer.isEmpty = true := by simpa using hblock
    change (if outer.isEmpty then _ else _) = _
    rw [if_neg hopen, hof]
    rfl
  obtain ⟨c, r, hc, hstart⟩ : ∃ c r, d.text.toList = c :: r ∧ Starts c := by
    rw [Declaration.toList_text]
    cases hp : d.property.toList with
    | nil => exact absurd hp hname.ne_nil
    | cons c r =>
      rw [hp] at hname
      exact ⟨c, _, rfl, Or.inl hname.1⟩
  have htext : (header (.declaration d)).toList = d.text.toList ++ [';'] := String.toList_append
  rw [htext, List.append_assoc, List.singleton_append]
  rw [hc] at hfirm hadd ⊢
  rw [run_declaration done outer rest hstart hfirm.toClean, hfirm.kept_eq, hadd]

theorem run_commentLine {inBlock : Bool} {text : String} (h : (Kind.comment text).Tidy inBlock) :
    (between done outer).run ((header (.comment text)).toList ++ rest) =
      (between (node (.comment text) [] :: done) outer).run rest := by
  obtain ⟨hmark, htrim⟩ := h
  have hbody : ¬ ['*', '/'] <:+: ' ' :: (text.toList ++ [' ']) ++ ['*'] := by
    have hsplit : ' ' :: (text.toList ++ [' ']) ++ ['*'] =
        [] ++ ' ' :: (text.toList ++ ' ' :: ['*']) := by simp
    rw [hsplit, separated_iff (by simp) (by decide), separated_iff (by simp) (by decide)]
    rintro (hi | hi | hi)
    · simpa using hi.length_le
    · exact hmark hi
    · simpa using hi.length_le
  have hwords : trim (' ' :: (text.toList ++ [' '])) = text.toList := by
    rw [trim_cons_blank (by decide), trim_append_blank (by decide), htrim]
  have hrun := run_comment done outer rest hbody
  rw [hwords, String.ofList_toList] at hrun
  rw [toList_comment, ← hrun]
  simp

/-- A line without a block adds its node. -/
theorem run_line {kind : Kind} (h : kind.Tidy (!outer.isEmpty)) (hbody : hasBody kind = false) :
    (between done outer).run ((header kind).toList ++ rest) =
      (between (node kind [] :: done) outer).run rest := by
  cases kind with
  | root => exact h.elim
  | rule selector => exact absurd hbody nofun
  | atRule name params hasBlock =>
    obtain rfl : hasBlock = false := hbody
    exact run_atRuleLine done outer rest h
  | declaration d => exact run_declarationLine done outer rest h
  | comment text => exact run_commentLine done outer rest h

/-- The part in front of a block opens its node. -/
theorem run_opening {kind : Kind} (h : kind.Tidy (!outer.isEmpty)) (hbody : hasBody kind = true) :
    (between done outer).run ((header kind).toList ++ '\x7b' :: rest) =
      (between [] ((kind, done) :: outer)).run rest := by
  cases kind with
  | root => exact h.elim
  | rule selector => exact run_ruleOpening done outer rest h
  | atRule name params hasBlock =>
    obtain rfl : hasBlock = true := hbody
    exact run_atRuleOpening done outer rest h
  | declaration d => exact absurd hbody nofun
  | comment text => exact absurd hbody nofun

end
end Reader

end StylePack.Css.Tree
