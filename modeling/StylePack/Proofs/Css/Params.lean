import StylePack.Proofs.Css.Reading
import StylePack.Proofs.Css.Words

/-! At-rules whose parameters are words, with white space and comments between them. Each gap
leaves one space in the parameters, and each word is added as it stands (`run_spacedWords`). So the
at-rule is read as one node with its words, wherever it stands and whatever it ends with
(`stands_atRule`). -/
namespace StylePack.Css.Tree
open Token Text
open ClassName (IsClass forall_isPart)

/-- What may stand between the words of an at-rule. -/
inductive Filler
  | space (c : Char) (h : isSpace c = true)
  | comment (body : List Char) (h : ¬ ['*', '/'] <:+: body)

namespace Filler

def text : Filler → List Char
  | space c _ => [c]
  | comment body _ => '/' :: '*' :: (body ++ ['*', '/'])

/-- Whether words are kept apart by it. -/
def separates : Filler → Bool
  | space _ _ => true
  | comment _ _ => false

end Filler

/-- A word with what stands before it, which has white space in it. -/
structure SpacedWord where
  gap : List Filler
  word : String
  apart : gap.any Filler.separates = true
  isClass : IsClass word

def SpacedWord.text (w : SpacedWord) : List Char := w.gap.flatMap Filler.text ++ w.word.toList

/-- An at-rule up to what ends it. -/
def atRuleText (name : String) (words : List SpacedWord) (after : List Filler) : List Char :=
  '@' :: (name.toList ++ (words.flatMap SpacedWord.text ++ after.flatMap Filler.text))

section
variable {rest : List Char}

theorem Filler.break_text (f : Filler) : Break f.text := by
  cases f with
  | space c h =>
    rintro _ ⟨⟩
    exact List.mem_append_left ['/', ';', '\x7b', '\x7d'] (mem_of_isSpace h)
  | comment body h =>
    rintro _ ⟨⟩
    decide

theorem Filler.text_ne_nil (f : Filler) : f.text ≠ [] := by
  cases f <;> exact List.cons_ne_nil _ _

theorem break_fillers (fs : List Filler) (hrest : Break rest) :
    Break (fs.flatMap Filler.text ++ rest) := by
  cases fs with
  | nil => exact hrest
  | cons f fs =>
    intro c hc
    rw [List.flatMap_cons, List.append_assoc, List.head?_append_of_ne_nil _ f.text_ne_nil] at hc
    exact f.break_text c hc

theorem break_spacedWords (words : List SpacedWord) (hrest : Break rest) :
    Break (words.flatMap SpacedWord.text ++ rest) := by
  cases words with
  | nil => exact hrest
  | cons w words =>
    obtain ⟨gap, word, apart, isClass⟩ := w
    cases gap with
    | nil => cases apart
    | cons f fs =>
      intro c hc
      rw [List.flatMap_cons, SpacedWord.text, List.flatMap_cons, List.append_assoc,
        List.append_assoc, List.append_assoc, List.head?_append_of_ne_nil _ f.text_ne_nil] at hc
      exact f.break_text c hc

end

namespace Reader

/-- A reader in the parameters of an at-rule, outside of brackets. -/
def gathering (done : List (Tree Kind)) (outer : List (Kind × List (Tree Kind)))
    (name params : List Char) : Reader := ⟨done, outer, .atRule name params, [], []⟩

/-- Parameters with a space at the end. -/
def spaced (params : List Char) : List Char :=
  if params.getLast? = some ' ' then params else params ++ [' ']

theorem getLast?_spaced (params : List Char) : (spaced params).getLast? = some ' ' := by
  unfold spaced
  split
  · assumption
  · exact List.getLast?_concat

theorem spaced_spaced (params : List Char) : spaced (spaced params) = spaced params := by
  rw [spaced, if_pos (getLast?_spaced params)]

theorem trim_spaced (params : List Char) : trim (spaced params) = trim params := by
  unfold spaced
  split
  · rfl
  · exact trim_append_blank (by rfl) params

theorem addParams_blank {params piece : List Char} (h : AllBlank piece = true) :
    addParams params piece = spaced params := by
  rw [addParams, if_pos h]
  rfl

theorem isBlank_of_isSpace {c : Char} (h : isSpace c = true) : isBlank c = true := by
  have hall : [' ', '\t', '\n', '\r', '\x0C'].all isBlank = true := by decide
  exact List.all_eq_true.mp hall c (mem_of_isSpace h)

section
variable (done : List (Tree Kind)) (outer : List (Kind × List (Tree Kind)))
  (name params rest : List Char)

/-- The tokens of a word are added one after another. -/
theorem run_word {w : List Char} (hw : IsWord w) (hrest : Break rest) :
    (gathering done outer name params).run (w ++ rest) =
      (gathering done outer name (params ++ w)).run rest := by
  induction hn : w.length using Nat.strong_induction_on generalizing w params with
  | _ n ih =>
    cases w with
    | nil => rw [List.nil_append, List.append_nil]
    | cons c r =>
      obtain ⟨k, hk, hfirst⟩ := first_word hw hrest
      have hblank : ¬ AllBlank (c :: r.take k) = true := by
        intro hall
        have hc := List.all_eq_true.mp hall c List.mem_cons_self
        rw [ClassName.isBlank_eq_false (hw c List.mem_cons_self)] at hc
        cases hc
      have hstep : (gathering done outer name params).step ⟨.other, c :: r.take k⟩ =
          gathering done outer name (params ++ c :: r.take k) := by
        have hadd : addParams params (c :: r.take k) = params ++ c :: r.take k := if_neg hblank
        rw [← hadd]
        rfl
      have hlt : (r.drop k).length < n := by
        rw [← hn, List.length_drop, List.length_cons]
        omega
      have hsplit : params ++ c :: r.take k ++ r.drop k = params ++ c :: r := by
        rw [List.append_assoc, List.cons_append, List.take_append_drop]
      have hnext := ih _ hlt (params ++ c :: r.take k) (hw.drop (k + 1)) rfl
      rw [List.drop_succ_cons, hsplit] at hnext
      rw [run, List.cons_append, lexemes_cons, hfirst, List.take_append_of_le_length hk,
        List.drop_append_of_le_length hk, List.foldl_cons, hstep]
      exact hnext

theorem run_blank {c : Char} (hc : isSpace c = true) :
    (gathering done outer name params).run (c :: rest) =
      (gathering done outer name (spaced params)).run (rest.dropWhile isSpace) := by
  have hblank : AllBlank (c :: rest.takeWhile isSpace) = true := by
    refine List.all_eq_true.mpr fun d hd => isBlank_of_isSpace ?_
    rcases List.mem_cons.mp hd with rfl | hd
    · exact hc
    · exact List.mem_takeWhile_imp hd
  rw [run, lexemes_space hc, List.foldl_cons, ← addParams_blank hblank]
  rfl

/-- A white space character leaves a space, unless one is there. -/
theorem run_spaced {c : Char} (hc : isSpace c = true) :
    (gathering done outer name params).run (c :: rest) =
      (gathering done outer name (spaced params)).run rest := by
  rw [run_blank done outer name params rest hc]
  cases rest with
  | nil => rfl
  | cons x rest =>
    by_cases hx : isSpace x
    · rw [List.dropWhile_cons_of_pos hx, run_blank done outer name _ rest hx, spaced_spaced]
    · rw [List.dropWhile_cons_of_neg hx]

/-- A comment leaves nothing. -/
theorem run_passed {body : List Char} (hb : ¬ ['*', '/'] <:+: body ++ ['*']) :
    (gathering done outer name params).run ('/' :: '*' :: (body ++ '*' :: '/' :: rest)) =
      (gathering done outer name params).run rest := by
  rw [run, lexemes_comment hb]
  rfl

theorem run_filler (f : Filler) : (gathering done outer name params).run (f.text ++ rest) =
    (gathering done outer name (if f.separates then spaced params else params)).run rest := by
  cases f with
  | space c h => exact run_spaced done outer name params rest h
  | comment body h =>
    have hclosed : ¬ ['*', '/'] <:+: body ++ ['*'] := by
      rw [List.infix_concat_iff]
      rintro (hsuffix | hinfix)
      · obtain ⟨before, hbefore⟩ := hsuffix
        have hlast := congrArg List.getLast? hbefore
        simp at hlast
      · exact h hinfix
    rw [Filler.text, List.cons_append, List.cons_append, List.append_assoc]
    exact run_passed done outer name params rest hclosed

/-- A gap leaves one space, if white space is in it. -/
theorem run_fillers (fs : List Filler) :
    (gathering done outer name params).run (fs.flatMap Filler.text ++ rest) =
      (gathering done outer name
        (if fs.any Filler.separates then spaced params else params)).run rest := by
  induction fs generalizing params with
  | nil => rfl
  | cons f fs ih =>
    rw [List.flatMap_cons, List.append_assoc, run_filler, ih, List.any_cons]
    cases f.separates <;> cases fs.any Filler.separates <;> simp [spaced_spaced]

/-- Words are gathered with one space before each. -/
theorem run_spacedWords (words : List SpacedWord) (hparams : params.getLast? ≠ some ' ')
    (hrest : Break rest) :
    (gathering done outer name params).run (words.flatMap SpacedWord.text ++ rest) =
      (gathering done outer name
        (params ++ (words.map SpacedWord.word).flatMap (' ' :: ·.toList))).run rest := by
  induction words generalizing params with
  | nil => rw [List.map_nil, List.flatMap_nil, List.flatMap_nil, List.nil_append, List.append_nil]
  | cons w words ih =>
    have hspaced : spaced params = params ++ [' '] := if_neg hparams
    have hlast : (params ++ [' '] ++ w.word.toList).getLast? ≠ some ' ' := by
      rw [List.getLast?_append_of_ne_nil _ w.isClass.ne_nil]
      exact fun h => w.isClass.notMem (by decide) (List.mem_of_getLast? h)
    rw [List.flatMap_cons, SpacedWord.text, List.append_assoc, List.append_assoc, run_fillers,
      if_pos w.apart, hspaced, run_word _ _ _ _ _ w.isClass.isPart (break_spacedWords words hrest),
      ih _ hlast, List.map_cons, List.flatMap_cons]
    simp

theorem isName_of_isClass {name : String} (h : IsClass name)
    (hletter : name.toList.head?.any isLetter = true) : IsName name.toList := by
  have hall : ∀ c ∈ name.toList, isNamePart c = true ∧ isPlain c = true := fun c hc =>
    ⟨forall_isPart (by decide +kernel) (h.isPart c hc),
      forall_isPart (by decide +kernel) (h.isPart c hc)⟩
  obtain ⟨c, r, hname⟩ := List.exists_cons_of_ne_nil h.ne_nil
  rw [hname] at hletter hall ⊢
  have hc : isLetter c = true := hletter
  exact ⟨by simp [isNameStart, hc], hall⟩

/-- What is gathered up to the end of an at-rule. -/
def gathered (words : List SpacedWord) (after : List Filler) : List Char :=
  let spacedOut := (words.map SpacedWord.word).flatMap (' ' :: ·.toList)
  if after.any Filler.separates then spaced spacedOut else spacedOut

theorem trim_gathered (words : List SpacedWord) (after : List Filler) :
    trim (gathered words after) = (" ".intercalate (words.map SpacedWord.word)).toList := by
  have hwords : ∀ word ∈ words.map SpacedWord.word, IsClass word := by
    intro word hword
    obtain ⟨w, -, rfl⟩ := List.mem_map.mp hword
    exact w.isClass
  unfold gathered
  split
  · rw [trim_spaced, ClassName.trim_flatMap_space hwords]
  · rw [ClassName.trim_flatMap_space hwords]

theorem atRuleKind_gathered (name : String) (words : List SpacedWord) (after : List Filler)
    (hasBlock : Bool) : atRuleKind name.toList (gathered words after) hasBlock =
      .atRule name (" ".intercalate (words.map SpacedWord.word)) hasBlock := by
  rw [atRuleKind, trim_gathered, String.ofList_toList, String.ofList_toList]

theorem run_atRuleText {name : String} (h : IsClass name)
    (hletter : name.toList.head?.any isLetter = true) (words : List SpacedWord)
    (after : List Filler) (hrest : Break rest) :
    (between done outer).run (atRuleText name words after ++ rest) =
      (gathering done outer name.toList (gathered words after)).run rest := by
  have hends : Ends (words.flatMap SpacedWord.text ++ (after.flatMap Filler.text ++ rest)) :=
    (break_spacedWords words (break_fillers after hrest)).ends
  have hkeyword : (between done outer).run (atRuleText name words after ++ rest) =
      (gathering done outer name.toList []).run
        (words.flatMap SpacedWord.text ++ (after.flatMap Filler.text ++ rest)) := by
    rw [atRuleText, List.cons_append, List.append_assoc, List.append_assoc, run, lexemes_cons,
      first_atKeyword (isName_of_isClass h hletter) hends, List.drop_left]
    rfl
  rw [hkeyword, run_spacedWords _ _ _ _ _ words (by simp) (break_fillers after hrest),
    run_fillers]
  rfl

end

section
variable {done : List (Tree Kind)} {outer : List (Kind × List (Tree Kind))}
  {name params rest : List Char}

theorem run_closeAtRule (kind : Kind) (before : List (Tree Kind)) :
    (gathering done ((kind, before) :: outer) name params).run ('\x7d' :: rest) =
      (between (node kind (node (atRuleKind name params false) [] :: done).reverse :: before)
        outer).run rest := by
  have hlex : lexemes ('\x7d' :: rest) = ⟨.closing .curly, ['\x7d']⟩ :: lexemes rest :=
    lexemes_cons _ _
  rw [run, hlex]
  rfl

theorem finish_gathering : (gathering done outer name params).finish =
    closeAll (node (atRuleKind name params false) [] :: done) outer := rfl

end

end Reader

/-- After a text the reader stands between the nodes of a block, so whatever follows is read there.
The block may be the stylesheet itself. -/
def Stands (before : List Char) (done : List (Tree Kind)) (outer : List (Kind × List (Tree Kind))) :
    Prop :=
  ∀ rest, (Reader.between [] []).run (before ++ rest) = (Reader.between done outer).run rest

section
variable {before : List Char} {done : List (Tree Kind)} {outer : List (Kind × List (Tree Kind))}

theorem stands_nil : Stands [] [] [] := fun _ => rfl

theorem parse_of_stands (h : Stands before done outer) :
    parse (String.ofList before) = Reader.closeAll done outer := by
  have hrun := h []
  rw [List.append_nil] at hrun
  rw [parse_eq, String.toList_ofList, hrun]
  rfl

/-- Inside the block of a rule. -/
theorem Stands.rule (h : Stands before done outer) {c : Char} (hc : Starts c) {cs : List Char}
    (ht : Clean (c :: cs)) : Stands (before ++ (c :: cs ++ ['\x7b'])) []
      ((.rule (String.ofList (trim (Slice.of (c :: cs)).kept)), done) :: outer) := by
  intro rest
  rw [List.append_assoc, List.append_assoc, h]
  exact Reader.run_rule done outer rest hc ht

/-- Behind a block. -/
theorem Stands.close {kind : Kind} {inner : List (Tree Kind)}
    (h : Stands before inner ((kind, done) :: outer)) :
    Stands (before ++ ['\x7d']) (node kind inner.reverse :: done) outer := by
  intro rest
  rw [List.append_assoc, h]
  exact Reader.run_close inner outer rest kind done

/-- An at-rule whose parameters are words is one node, wherever it stands between other nodes: on the
top level of the stylesheet or in a block. Its parameters have exactly these words, comments between
them are no nodes, and it has a block just if it ends with one. It may also end with a semicolon,
with the block that it stands in or with the text. -/
theorem stands_atRule (h : Stands before done outer) {name : String} (hname : IsClass name)
    (hletter : name.toList.head?.any isLetter = true) (words : List SpacedWord)
    (after : List Filler) :
    let text := before ++ atRuleText name words after
    let params := " ".intercalate (words.map SpacedWord.word)
    wordsOf params = words.map SpacedWord.word ∧
      Stands (text ++ [';']) (node (.atRule name params false) [] :: done) outer ∧
        Stands (text ++ ['\x7b']) [] ((.atRule name params true, done) :: outer) ∧
          (∀ block inner,
            Stands (text ++ '\x7b' :: block) inner ((.atRule name params true, done) :: outer) →
              Stands (text ++ '\x7b' :: block ++ ['\x7d'])
                (node (.atRule name params true) inner.reverse :: done) outer) ∧
            (∀ kind siblings around, outer = (kind, siblings) :: around →
              Stands (text ++ ['\x7d'])
                (node kind (node (.atRule name params false) [] :: done).reverse :: siblings)
                  around) ∧
              parse (String.ofList text) =
                Reader.closeAll (node (.atRule name params false) [] :: done) outer := by
  intro text params
  have hrun : ∀ rest, Break rest → (Reader.between [] []).run (text ++ rest) =
      (Reader.gathering done outer name.toList (Reader.gathered words after)).run rest := by
    intro rest hrest
    rw [List.append_assoc, h, Reader.run_atRuleText done outer rest hname hletter words after hrest]
  have hkind := Reader.atRuleKind_gathered name words after
  refine ⟨ClassName.wordsOf_intercalate fun word hword => ?_, fun rest => ?_, fun rest => ?_,
    fun block inner => Stands.close, fun kind siblings around houter rest => ?_, ?_⟩
  · obtain ⟨w, -, rfl⟩ := List.mem_map.mp hword
    exact w.isClass
  · rw [List.append_assoc, hrun _ (by rintro _ ⟨⟩; decide), ← hkind]
    exact Reader.run_endAtRule (s := ⟨Reader.gathered words after, [], []⟩) done outer rest rfl
  · rw [List.append_assoc, hrun _ (by rintro _ ⟨⟩; decide), ← hkind]
    exact Reader.run_openAtRule (s := ⟨Reader.gathered words after, [], []⟩) done outer rest rfl
  · rw [List.append_assoc, hrun _ (by rintro _ ⟨⟩; decide), ← hkind, houter]
    exact Reader.run_closeAtRule kind siblings
  · have hend := hrun [] (by rintro _ ⟨⟩)
    rw [List.append_nil] at hend
    rw [parse_eq, String.toList_ofList, hend, ← hkind]
    exact Reader.finish_gathering

/-- Two words with a comment and a tab between them. -/
def twoWords : List SpacedWord :=
  [⟨[.space ' ' rfl], "btn", rfl, by decide⟩,
    ⟨[.comment ['k'] (by decide), .space '\t' rfl], "1-2", rfl, by decide⟩]

/-- In a rule, two words stand in one node. -/
theorem stands_atRule_twoWords :
    parse ".b\x7b@use btn/*k*/\t1-2 \x7d" =
      [node (.rule ".b") [node (.atRule "use" "btn 1-2" false) []]] ∧
      wordsOf "btn 1-2" = ["btn", "1-2"] := by
  have hclean : Clean ['.', 'b'] := ⟨by decide, by decide⟩
  have hrule : Stands ".b\x7b".toList [] [(.rule ".b", [])] :=
    stands_nil.rule (Or.inr (Or.inl rfl)) hclean
  have huse : IsClass "use" := by decide
  obtain ⟨hwords, -, -, -, hclose, -⟩ :=
    stands_atRule hrule huse (by decide) twoWords [.space ' ' rfl]
  have hparse := parse_of_stands (hclose (.rule ".b") [] [] rfl)
  have htext : String.ofList (".b\x7b".toList ++ atRuleText "use" twoWords [.space ' ' rfl] ++
      ['\x7d']) = ".b\x7b@use btn/*k*/\t1-2 \x7d" := by decide
  rw [htext] at hparse
  exact ⟨hparse, hwords⟩

end

end StylePack.Css.Tree
