import StylePack.Proofs.Css.Readable
import StylePack.Proofs.Css.Slice

/-! Runs of the reader, from the space between two nodes to the next such space. -/
namespace StylePack.Css.Tree
open Token Text

/-- The front of a selector or of a property. -/
def Starts (c : Char) : Prop := isNameStart c = true ∨ c = '.' ∨ c = '#'

namespace Reader
variable {r : Reader} {s : Slice} {l : Lexeme} {cs rest : List Char}
  {done : List (Tree Kind)} {outer : List (Kind × List (Tree Kind))}

/-- A reader in the space between the nodes of a block. -/
def between (done : List (Tree Kind)) (outer : List (Kind × List (Tree Kind))) : Reader :=
  ⟨done, outer, .contents, [], []⟩

/-- The reader after a text. -/
def run (r : Reader) (cs : List Char) : Reader := (lexemes cs).foldl step r

/-- A reader in the middle of a text. -/
def holding (r : Reader) (mode : List Char → Mode) (s : Slice) : Reader :=
  { r with mode := mode s.kept, skipping := s.skipping, gap := s.gap }

theorem run_append (hp : Plain cs) (hc : Closes cs) (hrest : Stop rest) (r : Reader) :
    r.run (cs ++ rest) = (r.run cs).run rest := by
  rw [run, lexemes_append hp hc hrest, List.foldl_append]
  rfl

/-- A piece inside brackets is passed over in every mode. -/
theorem step_skipping (mode : List Char → Mode) (hs : s.skipping.isEmpty = false) (l : Lexeme) :
    (r.holding mode s).step l = r.holding mode (s.step l) := by
  unfold Reader.step Slice.step holding
  dsimp only
  rw [hs, if_neg Bool.false_ne_true, if_neg Bool.false_ne_true]

theorem step_prelude (hl : Piece l) :
    (r.holding .prelude s).step l = r.holding .prelude (s.step l) := by
  cases hs : s.skipping.isEmpty with
  | false => exact step_skipping .prelude hs l
  | true =>
    unfold Reader.step Slice.step holding
    dsimp only
    rw [hs, if_pos rfl, if_pos rfl]
    cases hl with
    | opening _ => rfl
    | closing => rfl
    | inert ht _ => rcases ht with rfl | rfl | rfl <;> rfl
    | address _ _ _ => rfl

theorem foldl_prelude {ls : List Lexeme} (hls : ∀ l ∈ ls, Piece l) :
    ls.foldl step (r.holding .prelude s) = r.holding .prelude (ls.foldl Slice.step s) := by
  induction ls generalizing s with
  | nil => rfl
  | cons l ls ih =>
    rw [List.foldl_cons, step_prelude (hls l List.mem_cons_self), List.foldl_cons]
    exact ih fun m hm => hls m (List.mem_cons_of_mem l hm)

/-- A piece of source text that leaves no two spaces in a row is added to parameters as it is. -/
theorem addParams_eq {params piece : List Char} (hne : piece ≠ []) (hp : Plain piece)
    (hsingle : ¬ [' ', ' '] <:+: params ++ piece) : addParams params piece = params ++ piece := by
  unfold addParams
  split
  · next hblank =>
    have hspace : ∀ c ∈ piece, c = ' ' := fun c hc =>
      eq_space_of_isBlank (hp c hc) (List.all_eq_true.mp hblank c hc)
    match piece with
    | [c] =>
      obtain rfl := hspace c (by simp)
      split
      · next hlast =>
        obtain ⟨before, rfl⟩ := List.getLast?_eq_some_iff.mp hlast
        exact absurd ⟨before, [], by simp⟩ hsingle
      · rfl
    | c :: d :: piece =>
      obtain rfl := hspace c (by simp)
      obtain rfl := hspace d (by simp)
      exact absurd ⟨params, piece, by simp⟩ hsingle
  · rfl

theorem step_atRule {name : List Char} (hl : Piece l) (hp : Plain (s.gap ++ l.text))
    (hsingle : ¬ [' ', ' '] <:+: s.kept ++ s.gap ++ l.text) :
    (r.holding (.atRule name) s).step l = r.holding (.atRule name) (s.step l) := by
  cases hs : s.skipping.isEmpty with
  | false => exact step_skipping (.atRule name) hs l
  | true =>
    have hne : s.gap ++ l.text ≠ [] := by simp [hl.text_ne_nil]
    have hadd := addParams_eq hne hp (by rwa [← List.append_assoc])
    unfold Reader.step Slice.step holding
    dsimp only
    rw [hs, if_pos rfl, if_pos rfl, ← hadd]
    cases hl with
    | opening _ => rfl
    | closing => rfl
    | inert ht _ => rcases ht with rfl | rfl | rfl <;> rfl
    | address _ _ _ => rfl

theorem foldl_atRule {name : List Char} {ls : List Lexeme} (hls : ∀ l ∈ ls, Piece l)
    (hp : Plain (s.gap ++ Lexeme.source ls))
    (hsingle : ¬ [' ', ' '] <:+: s.kept ++ s.gap ++ Lexeme.source ls) :
    ls.foldl step (r.holding (.atRule name) s) =
      r.holding (.atRule name) (ls.foldl Slice.step s) := by
  induction ls generalizing s with
  | nil => rfl
  | cons l ls ih =>
    rw [Lexeme.source_cons, ← List.append_assoc] at hp hsingle
    have hstep : (r.holding (.atRule name) s).step l = r.holding (.atRule name) (s.step l) := by
      refine step_atRule (hls l List.mem_cons_self) (fun c hc => hp c ?_) fun hi => hsingle ?_
      · exact List.mem_append_left _ hc
      · exact hi.trans (List.prefix_append _ _).isInfix
    rw [List.foldl_cons, hstep, List.foldl_cons]
    refine ih (fun m hm => hls m (List.mem_cons_of_mem l hm)) (fun c hc => hp c ?_) ?_
    · rcases List.mem_append.mp hc with hc | hc
      · refine List.mem_append_left _ ?_
        unfold Slice.step at hc
        split at hc
        · exact absurd hc List.not_mem_nil
        · exact hc
      · exact List.mem_append_right _ hc
    · rwa [Slice.step_source]

theorem first_starts {c : Char} (h : Starts c) (r : List Char) :
    (first c r).1 = .other ∨ (first c r).1 = .opening .round := by
  have hmarks : marks.all (fun c => !isNameStart c) = true := by decide
  have hunmarked : c ∉ marks → isSpace c = false → (first c r).1 = .other ∨
      (first c r).1 = .opening .round := by
    intro hm hspace
    rw [first_of_notMem hm, hspace, if_neg Bool.false_ne_true]
    split
    · exact Or.inl rfl
    · split
      · exact nameLike_token c r
      · exact Or.inl rfl
  rcases h with h | rfl | rfl
  · refine hunmarked (fun hm => ?_) (isSpace_of_isNameStart h)
    simpa [h] using List.all_eq_true.mp hmarks c hm
  · exact hunmarked (by decide) (by decide)
  · exact Or.inl rfl

/-- A name after an at sign ends where no name goes on. -/
theorem first_atKeyword {name : List Char} (hn : IsName name) (hrest : Ends rest) :
    first '@' (name ++ rest) = (.atKeyword name, name.length) := by
  have hslash := hn.clean.plain.notMem (x := '\\') (by decide)
  have hnull := hn.clean.plain.notMem (x := '\x00') (by decide)
  have htake : name.takeWhile isNamePart = name :=
    List.takeWhile_eq_self_iff.mpr hn.isNamePart
  have hstarts : startsName (name ++ rest) = true := by
    obtain _ | ⟨c, name⟩ := name
    · exact hn.elim
    · have hd : c ≠ '-' := by
        rintro rfl
        exact absurd hn.1 (by decide)
      have hb : c ≠ '\\' := fun h => hslash (by simp [h])
      rw [List.cons_append, startsName_cons hd hb, hn.1]
  have hkeyword : ∀ r, first '@' r =
      if startsName r then (.atKeyword (nameValue 0 r), nameLength 0 r) else (.other, 0) :=
    fun _ => rfl
  rw [hkeyword, if_pos hstarts, nameValue_ends hslash hnull hrest, nameLength_ends hslash hrest,
    htake]

theorem lexemes_space {c : Char} (hc : isSpace c = true) (rest : List Char) :
    lexemes (c :: rest) =
      ⟨.blank, c :: rest.takeWhile isSpace⟩ :: lexemes (rest.dropWhile isSpace) := by
  have hall : marks.all (fun c => !isSpace c) = true := by decide
  have hm : c ∉ marks := fun hm => by simpa [hc] using List.all_eq_true.mp hall c hm
  have hsplit := List.takeWhile_append_dropWhile (p := isSpace) (l := rest)
  have hdrop : rest.drop (rest.takeWhile isSpace).length = rest.dropWhile isSpace :=
    (congrArg (List.drop _) hsplit.symm).trans List.drop_left
  have htake : rest.take (rest.takeWhile isSpace).length = rest.takeWhile isSpace :=
    (List.prefix_iff_eq_take.mp (List.takeWhile_prefix isSpace)).symm
  rw [lexemes_cons, first_of_notMem hm, if_pos hc, hdrop, htake]

theorem lexemes_comment {body : List Char} (hb : ¬ ['*', '/'] <:+: body ++ ['*'])
    (rest : List Char) : lexemes ('/' :: '*' :: (body ++ '*' :: '/' :: rest)) =
      ⟨.comment body, '/' :: '*' :: (body ++ ['*', '/'])⟩ :: lexemes rest := by
  have hfirst : first '/' ('*' :: (body ++ '*' :: '/' :: rest)) =
      (.comment body, body.length + 3) := by
    change (Token.comment (commentBody _), (commentBody _).length + 3) = _
    rw [commentBody_closed hb rest]
  have hdrop : ('*' :: (body ++ '*' :: '/' :: rest)).drop (body.length + 3) = rest := by
    rw [List.drop_succ_cons, List.drop_length_add_append]
    rfl
  have htake : ('*' :: (body ++ '*' :: '/' :: rest)).take (body.length + 3) =
      '*' :: (body ++ ['*', '/']) := by
    rw [List.take_succ_cons, List.take_length_add_append]
    rfl
  rw [lexemes_cons, hfirst, hdrop, htake]

/-- The first token of a selector or of a declaration begins what is held. -/
theorem run_start {c : Char} (h : Starts c) {r : List Char} (hp : Plain (c :: r))
    (hc : Closes (c :: r)) : (between done outer).run (c :: r) =
      (between done outer).holding .prelude (Slice.of (c :: r)) := by
  have hpieces := pieces hp hc
  unfold run Slice.of
  rw [lexemes_cons] at hpieces ⊢
  rw [List.foldl_cons, List.foldl_cons]
  have hfirst : (between done outer).step ⟨(first c r).1, c :: r.take (first c r).2⟩ =
      (between done outer).holding .prelude
        (({} : Slice).step ⟨(first c r).1, c :: r.take (first c r).2⟩) := by
    rcases first_starts h r with ht | ht
    · rw [ht]
      rfl
    · rw [ht]
      rfl
  rw [hfirst]
  exact foldl_prelude fun l hl => hpieces l (List.mem_cons_of_mem _ hl)

section
variable (done : List (Tree Kind)) (outer : List (Kind × List (Tree Kind))) (rest : List Char)

theorem run_openRule (hs : s.skipping = []) :
    ((between done outer).holding .prelude s).run ('\x7b' :: rest) =
      (between [] ((.rule (String.ofList (trim s.kept)), done) :: outer)).run rest := by
  have hlex : lexemes ('\x7b' :: rest) = ⟨.opening .curly, ['\x7b']⟩ :: lexemes rest :=
    lexemes_cons _ _
  obtain ⟨kept, skipping, gap⟩ := s
  subst hs
  rw [run, hlex]
  rfl

theorem run_openAtRule {name : List Char} (hs : s.skipping = []) :
    ((between done outer).holding (.atRule name) s).run ('\x7b' :: rest) =
      (between [] ((atRuleKind name s.kept true, done) :: outer)).run rest := by
  have hlex : lexemes ('\x7b' :: rest) = ⟨.opening .curly, ['\x7b']⟩ :: lexemes rest :=
    lexemes_cons _ _
  obtain ⟨kept, skipping, gap⟩ := s
  subst hs
  rw [run, hlex]
  rfl

theorem run_endAtRule {name : List Char} (hs : s.skipping = []) :
    ((between done outer).holding (.atRule name) s).run (';' :: rest) =
      (between (node (atRuleKind name s.kept false) [] :: done) outer).run rest := by
  have hlex : lexemes (';' :: rest) = ⟨.semicolon, [';']⟩ :: lexemes rest := lexemes_cons _ _
  obtain ⟨kept, skipping, gap⟩ := s
  subst hs
  rw [run, hlex]
  rfl

/-- At a semicolon a declaration ends without what was passed over last. -/
theorem run_endDeclaration (hs : s.skipping = []) :
    ((between done outer).holding .prelude s).run (';' :: rest) =
      ((between done outer).addDeclaration s.kept).run rest := by
  have hlex : lexemes (';' :: rest) = ⟨.semicolon, [';']⟩ :: lexemes rest := lexemes_cons _ _
  obtain ⟨kept, skipping, gap⟩ := s
  subst hs
  have hkept : (between done outer).addDeclaration (kept ++ []) =
      (between done outer).addDeclaration kept := by rw [List.append_nil]
  rw [run, hlex, ← hkept]
  rfl

theorem run_close (kind : Kind) (before : List (Tree Kind)) :
    (between done ((kind, before) :: outer)).run ('\x7d' :: rest) =
      (between (node kind done.reverse :: before) outer).run rest := by
  have hlex : lexemes ('\x7d' :: rest) = ⟨.closing .curly, ['\x7d']⟩ :: lexemes rest :=
    lexemes_cons _ _
  rw [run, hlex]
  rfl

theorem run_dropSpace {c : Char} (hc : isSpace c = true) :
    (between done outer).run (c :: rest) = (between done outer).run (rest.dropWhile isSpace) := by
  rw [run, lexemes_space hc]
  rfl

/-- White space between nodes is passed over. -/
theorem run_space {c : Char} (hc : isSpace c = true) :
    (between done outer).run (c :: rest) = (between done outer).run rest := by
  rw [run_dropSpace done outer rest hc]
  cases rest with
  | nil => rfl
  | cons x rest =>
    by_cases hx : isSpace x
    · rw [List.dropWhile_cons_of_pos hx, ← run_dropSpace done outer rest hx]
    · rw [List.dropWhile_cons_of_neg hx]

theorem run_comment {body : List Char} (hb : ¬ ['*', '/'] <:+: body ++ ['*']) :
    (between done outer).run ('/' :: '*' :: (body ++ '*' :: '/' :: rest)) =
      (between (node (.comment (String.ofList (trim body))) [] :: done) outer).run rest := by
  rw [run, lexemes_comment hb]
  rfl

/-- A selector is read as what is kept of it. -/
theorem run_rule {c : Char} (h : Starts c) {cs : List Char} (ht : Clean (c :: cs)) :
    (between done outer).run (c :: cs ++ '\x7b' :: rest) =
      (between [] ((.rule (String.ofList (trim (Slice.of (c :: cs)).kept)), done) :: outer)).run
        rest := by
  rw [run_append ht.plain ht.closes (Stop.block rest), run_start h ht.plain ht.closes,
    run_openRule done outer rest (Slice.skipping_of ht.plain ht.balanced)]

/-- A declaration is read from what is kept of its text. -/
theorem run_declaration {c : Char} (h : Starts c) {cs : List Char} (ht : Clean (c :: cs)) :
    (between done outer).run (c :: cs ++ ';' :: rest) =
      ((between done outer).addDeclaration (Slice.of (c :: cs)).kept).run rest := by
  rw [run_append ht.plain ht.closes (Stop.semicolon rest), run_start h ht.plain ht.closes,
    run_endDeclaration done outer rest (Slice.skipping_of ht.plain ht.balanced)]

/-- The parameters of an at-rule are held from its name on. -/
theorem run_atKeyword {name cs : List Char} (hn : IsName name) (ht : Clean cs)
    (hcs : cs.takeWhile isNamePart = []) (hsingle : ¬ [' ', ' '] <:+: cs) (hrest : Stop rest) :
    (between done outer).run ('@' :: (name ++ cs ++ rest)) =
      ((between done outer).holding (.atRule name) (Slice.of cs)).run rest := by
  have hends : Ends (cs ++ rest) := by
    cases cs with
    | nil => exact hrest.ends
    | cons c cs =>
      rintro _ ⟨⟩
      refine ⟨Bool.eq_false_iff.mpr fun hc => ?_, fun hc => ?_⟩
      · rw [List.takeWhile_cons_of_pos hc] at hcs
        cases hcs
      · exact ht.plain.notMem (x := '\\') (by decide) (hc ▸ List.mem_cons_self)
  have hrun : (between done outer).run ('@' :: (name ++ cs ++ rest)) =
      ((between done outer).holding (.atRule name) {}).run (cs ++ rest) := by
    rw [run, lexemes_cons, List.append_assoc, first_atKeyword hn hends, List.drop_left]
    rfl
  have hheld : ((between done outer).holding (.atRule name) {}).run cs =
      (between done outer).holding (.atRule name) (Slice.of cs) := by
    refine foldl_atRule (pieces ht.plain ht.closes) ?_ ?_
    · rw [source_lexemes]
      exact ht.plain
    · rw [source_lexemes]
      exact hsingle
  rw [hrun, run_append ht.plain ht.closes hrest, hheld]

end

end Reader

theorem parse_eq (css : String) :
    parse css = ((Reader.between [] []).run css.toList).finish := rfl

end StylePack.Css.Tree
