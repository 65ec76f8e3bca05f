import StylePack.Proofs.Css.Declared
import StylePack.Proofs.Css.Reading

/-! Which selectors, values and parameters the reader keeps whole. -/
namespace StylePack.Css.Tree
open Token Text
variable {cs : List Char}

/-- A text that is written in front of a block or of a semicolon without a space. -/
structure Tight (cs : List Char) : Prop extends Clean cs where
  head : ∃ c r, cs = c :: r ∧ (isNameStart c = true ∨ c = '.')
  last : ∀ c ∈ cs.getLast?, c ≠ ' '
  single : ¬ [' ', ' '] <:+: cs
  noBang : '!' ∉ cs

theorem Tight.trim_eq (h : Tight cs) : trim cs = cs := by
  obtain ⟨c, r, rfl, hc⟩ := h.head
  have hblank : ∀ x ∈ c :: r, x ≠ ' ' → isBlank x = false := fun x hx hne =>
    Bool.eq_false_iff.mpr fun hb => hne (eq_space_of_isBlank (h.plain x hx) hb)
  refine trim_eq_self (fun x hx => ?_) (fun x hx => ?_)
  · obtain rfl : c = x := by simpa using hx
    refine hblank c List.mem_cons_self ?_
    rintro rfl
    exact absurd hc (by decide)
  · exact hblank x (List.mem_of_getLast? hx) (h.last x hx)

/-- What is kept is the whole text just if nothing was passed over at its end. -/
theorem Tight.trim_kept_iff (h : Tight cs) :
    trim (Slice.of cs).kept = cs ↔ (Slice.of cs).gap = [] := by
  have hsplit := Slice.kept_append_gap cs
  constructor
  · intro htrim
    have hle := (trim_isInfix (Slice.of cs).kept).length_le
    have hlength := congrArg List.length hsplit
    rw [htrim] at hle
    rw [List.length_append] at hlength
    exact List.eq_nil_of_length_eq_zero (by omega)
  · intro hgap
    rw [hgap, List.append_nil] at hsplit
    rw [hsplit, h.trim_eq]

theorem parse_rule {s : String} (h : Tight s.toList) : parse (s ++ "\x7b\x7d") =
    [node (.rule (String.ofList (trim (Slice.of s.toList).kept))) []] := by
  obtain ⟨c, r, hs, hc⟩ := h.head
  have hclean : Clean (c :: r) := hs ▸ h.toClean
  have hstart : Starts c := hc.imp_right Or.inl
  rw [parse_eq, String.toList_append, hs]
  have hrun := Reader.run_rule [] [] ['\x7d'] hstart hclean
  have hbraces : "\x7b\x7d".toList = ['\x7b', '\x7d'] := rfl
  rw [hbraces, hrun, Reader.run_close]
  rfl

/-- The slice of a text after a property and its colon. -/
theorem of_property (cs : List Char) : Slice.of ('p' :: ':' :: cs) =
    ⟨'p' :: ':' :: (Slice.of cs).kept, (Slice.of cs).skipping, (Slice.of cs).gap⟩ := by
  have hlex : lexemes ('p' :: ':' :: cs) = ⟨.other, ['p']⟩ :: ⟨.other, [':']⟩ :: lexemes cs := by
    have hcolon : first ':' cs = (.other, 0) := rfl
    have hp : first 'p' (':' :: cs) = (.other, 0) := rfl
    rw [lexemes_cons, hp, List.drop_zero, lexemes_cons, hcolon]
    rfl
  unfold Slice.of
  rw [hlex]
  exact Slice.foldl_prepend ['p', ':'] {} (lexemes cs)

theorem of_space {c : Char} (hc : isSpace c = false) (r : List Char) :
    Slice.of (' ' :: c :: r) =
      ⟨' ' :: (Slice.of (c :: r)).kept, (Slice.of (c :: r)).skipping, (Slice.of (c :: r)).gap⟩ := by
  have hlex : lexemes (' ' :: c :: r) = ⟨.blank, [' ']⟩ :: lexemes (c :: r) := by
    have hfirst : first ' ' (c :: r) = (.blank, 0) := by
      rw [first_of_notMem (by decide), if_pos (by decide),
        List.takeWhile_cons_of_neg (by simp [hc])]
      rfl
    rw [lexemes_cons, hfirst]
    rfl
  unfold Slice.of
  rw [hlex]
  exact Slice.foldl_prepend [' '] {} (lexemes (c :: r))

theorem Tight.bang_notMem_kept (h : Tight cs) : '!' ∉ trim (Slice.of cs).kept := by
  intro hm
  have hkept := (trim_isInfix _).subset hm
  refine h.noBang ?_
  rw [← Slice.kept_append_gap cs]
  exact List.mem_append_left _ hkept

theorem parse_declaration {s : String} (h : Tight s.toList) :
    parse ("x\x7bp:" ++ s ++ ";\x7d") = [node (.rule "x") [node (.declaration
      ⟨"p", String.ofList (trim (Slice.of s.toList).kept), false⟩) []]] := by
  have htext : ("x\x7bp:" ++ s ++ ";\x7d").toList =
      ['x'] ++ '\x7b' :: ('p' :: (':' :: s.toList) ++ ';' :: ['\x7d']) := by
    rw [String.toList_append, String.toList_append]
    rfl
  have hx : Clean ['x'] := ⟨by decide, rfl⟩
  have hp : Clean ('p' :: (':' :: s.toList)) :=
    (h.toClean.cons (by decide) (by decide)).cons (by decide) (by decide)
  have hrule := Reader.run_rule [] [] ('p' :: (':' :: s.toList) ++ ';' :: ['\x7d'])
    (Or.inl (by decide)) hx
  have hselector : Kind.rule (String.ofList (trim (Slice.of ['x']).kept)) = .rule "x" := rfl
  have hdeclaration := Reader.run_declaration [] [(.rule "x", [])] ['\x7d']
    (Or.inl (by decide)) hp
  have hkept : Declaration.ofText? ('p' :: ':' :: (Slice.of s.toList).kept) =
      some ⟨"p", String.ofList (trim (Slice.of s.toList).kept), false⟩ := by
    have hp : IsName ['p'] := by decide
    have hof := Declaration.ofText?_append hp.ne_nil hp.word (Slice.of s.toList).kept
    rwa [Declaration.splitImportance_of_notMem h.bang_notMem_kept] at hof
  have hadd : (Reader.between [] [(.rule "x", [])]).addDeclaration
      ('p' :: ':' :: (Slice.of s.toList).kept) = Reader.between [node (.declaration
        ⟨"p", String.ofList (trim (Slice.of s.toList).kept), false⟩) []] [(.rule "x", [])] := by
    unfold Reader.addDeclaration
    rw [hkept]
    rfl
  rw [parse_eq, htext, hrule, hselector, hdeclaration, of_property, hadd, Reader.run_close]
  rfl

theorem parse_atRule {s : String} (h : Tight s.toList) : parse ("@m " ++ s ++ "\x7b\x7d") =
    [node (.atRule "m" (String.ofList (trim (Slice.of s.toList).kept)) true) []] := by
  obtain ⟨c, r, hs, hc⟩ := h.head
  have htext : ("@m " ++ s ++ "\x7b\x7d").toList =
      '@' :: (['m'] ++ (' ' :: s.toList) ++ '\x7b' :: ['\x7d']) := by
    rw [String.toList_append, String.toList_append]
    simp
  have hspace : isSpace c = false := by
    rcases hc with hc | rfl
    · exact isSpace_of_isNameStart hc
    · rfl
  have hclean : Clean (' ' :: s.toList) := h.toClean.cons (by decide) (by decide)
  have hsingle : ¬ [' ', ' '] <:+: ' ' :: s.toList := by
    rw [List.infix_cons_iff, not_or]
    refine ⟨fun hpre => ?_, h.single⟩
    rw [List.cons_prefix_cons, hs, List.cons_prefix_cons] at hpre
    obtain ⟨-, rfl, -⟩ := hpre
    exact absurd hspace (by decide)
  have hm : IsName ['m'] := by decide
  have hrun := Reader.run_atKeyword [] [] ['\x7b', '\x7d'] hm hclean rfl hsingle
    (Stop.block ['\x7d'])
  have hskip := Slice.skipping_of hclean.plain hclean.balanced
  rw [parse_eq, htext, hrun, Reader.run_openAtRule [] [] ['\x7d'] hskip, Reader.run_close, hs,
    of_space hspace]
  have hkind : Reader.atRuleKind ['m'] (' ' :: (Slice.of (c :: r)).kept) true =
      .atRule "m" (String.ofList (trim (Slice.of (c :: r)).kept)) true := by
    unfold Reader.atRuleKind
    rw [trim_cons_blank (by decide)]
  rw [hkind]
  rfl

theorem ofList_eq_iff (cs : List Char) (s : String) : String.ofList cs = s ↔ cs = s.toList := by
  constructor
  · rintro rfl
    rw [String.toList_ofList]
  · rintro rfl
    rw [String.ofList_toList]

/-- A text in front of a block or a semicolon is read whole just if no brackets are passed over at
its end; in a text without addresses, just if it does not end in a bracket. -/
theorem read_whole_iff {s : String} (h : Tight s.toList) :
    (parse (s ++ "\x7b\x7d") = [node (.rule s) []] ↔ (Slice.of s.toList).gap = []) ∧
    (parse ("x\x7bp:" ++ s ++ ";\x7d") =
      [node (.rule "x") [node (.declaration ⟨"p", s, false⟩) []]] ↔
        (Slice.of s.toList).gap = []) ∧
    (parse ("@m " ++ s ++ "\x7b\x7d") = [node (.atRule "m" s true) []] ↔
      (Slice.of s.toList).gap = []) ∧
    (¬ HoldsUrl s.toList → ((Slice.of s.toList).gap = [] ↔ s.toList.getLast? ≠ some ')')) := by
  rw [parse_rule h, parse_declaration h, parse_atRule h]
  refine ⟨?_, ?_, ?_, gap_eq_nil_iff h.plain h.balanced⟩
  all_goals
    rw [← h.trim_kept_iff, ← ofList_eq_iff]
    simp

theorem tight_of_notMem_space {c : Char} {r : List Char} (hclean : Clean (c :: r))
    (hhead : isNameStart c = true ∨ c = '.') (hspace : ' ' ∉ c :: r) (hbang : '!' ∉ c :: r) :
    Tight (c :: r) where
  toClean := hclean
  head := ⟨c, r, rfl, hhead⟩
  last x hx := by
    rintro rfl
    exact hspace (List.mem_of_getLast? hx)
  single h := hspace (h.subset List.mem_cons_self)
  noBang := hbang

theorem read_whole_hover : Tight ".a:not(.b):hover".toList ∧
    parse (".a:not(.b):hover" ++ "\x7b\x7d") = [node (.rule ".a:not(.b):hover") []] := by
  have htight : Tight ".a:not(.b):hover".toList :=
    tight_of_notMem_space ⟨by decide, by decide⟩ (Or.inr rfl) (by decide) (by decide)
  exact ⟨htight, (read_whole_iff htight).1.mpr (by rfl)⟩

/-- The bracket at the end of a selector is lost, and what stands in it. -/
theorem selector_cut_at_bracket : Tight ".a:not(.b)".toList ∧
    parse (".a:not(.b)" ++ "\x7b\x7d") = [node (.rule ".a:not(") []] ∧
    parse (".a:not(.b)" ++ "\x7b\x7d") ≠ [node (.rule ".a:not(.b)") []] := by
  have hparse : parse (".a:not(.b)" ++ "\x7b\x7d") = [node (.rule ".a:not(") []] := by rfl
  refine ⟨tight_of_notMem_space ⟨by decide, by decide⟩ (Or.inr rfl) (by decide) (by decide),
    hparse, ?_⟩
  rw [hparse]
  simp

end StylePack.Css.Tree
