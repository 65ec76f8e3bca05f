import StylePack.Proofs.Css.Lines
import StylePack.Proofs.Sheet.Contents

/-! Reading a stylesheet that was written gives the stylesheet back, if its texts are tidy. -/
namespace StylePack.Css.Tree
open Token Text

theorem render_node {kind : Kind} {inBlock : Bool} (h : kind.Tidy inBlock) (depth : Nat)
    (children : List (Tree Kind)) : render depth (node kind children) =
      indentation depth ++ header kind ++
        (if hasBody kind then block depth (renderLines (depth + 1) children) else "") := by
  cases kind with
  | root => exact h.elim
  | rule _ | atRule _ _ _ | declaration _ | comment _ => rfl

theorem toList_block (depth : Nat) (lines : String) : (block depth lines).toList =
    '\x7b' :: ((if lines.isEmpty then [] else '\n' :: (lines.toList ++
      (indentation depth).toList)) ++ ['\x7d']) := by
  unfold block
  rw [String.toList_append, String.toList_append]
  split <;> simp

namespace Reader

theorem run_indentation (done : List (Tree Kind)) (outer : List (Kind × List (Tree Kind)))
    (depth : Nat) (rest : List Char) :
    (between done outer).run ((indentation depth).toList ++ rest) =
      (between done outer).run rest := by
  rw [indentation, String.toList_ofList]
  induction 4 * depth with
  | zero => rfl
  | succ n ih => rw [List.replicate_succ, List.cons_append, run_space done outer _ (by decide), ih]

/-- A block is read as the nodes that its lines are read as. -/
theorem run_block {kind : Kind} {before inner : List (Tree Kind)}
    {outer : List (Kind × List (Tree Kind))} {lines : String}
    (h : ∀ rest, (between [] ((kind, before) :: outer)).run (lines.toList ++ rest) =
      (between inner ((kind, before) :: outer)).run rest) (depth : Nat) (rest : List Char) :
    (between [] ((kind, before) :: outer)).run ((if lines.isEmpty then [] else
        '\n' :: (lines.toList ++ (indentation depth).toList)) ++ '\x7d' :: rest) =
      (between (node kind inner.reverse :: before) outer).run rest := by
  have hclose := run_close inner outer rest kind before
  by_cases hempty : lines.isEmpty
  · have hnil : lines.toList = [] := by simpa using hempty
    rw [if_pos hempty, ← hclose, ← h, hnil]
  · rw [if_neg hempty, List.cons_append, run_space [] _ _ (by decide), List.append_assoc, h,
      run_indentation, hclose]

mutual

/-- A tidy node is read back from its text, in front of any other text. -/
theorem run_render : (t : Tree Kind) → (depth : Nat) → {done : List (Tree Kind)} →
    {outer : List (Kind × List (Tree Kind))} → (rest : List Char) → t.Tidy (!outer.isEmpty) →
    (between done outer).run ((render depth t).toList ++ rest) =
      (between (t :: done) outer).run rest
  | .node kind children, depth, done, outer, rest, h => by
    obtain ⟨hkind, hleaf, hchildren⟩ := h
    rw [render_node hkind, String.toList_append, String.toList_append, List.append_assoc,
      List.append_assoc, run_indentation]
    cases hbody : hasBody kind with
    | false =>
      rw [hleaf hbody, if_neg Bool.false_ne_true]
      exact run_line done outer rest hkind hbody
    | true =>
      have hlines : ∀ rest, (between [] ((kind, done) :: outer)).run
          ((renderLines (depth + 1) children).toList ++ rest) =
            (between (children.reverse ++ []) ((kind, done) :: outer)).run rest :=
        fun rest => run_renderLines children (depth + 1) rest hchildren
      rw [if_pos rfl, toList_block, List.cons_append, run_opening done outer _ hkind hbody,
        List.append_assoc, List.singleton_append, run_block hlines, List.append_nil,
        List.reverse_reverse]

theorem run_renderLines : (ts : List (Tree Kind)) → (depth : Nat) → {done : List (Tree Kind)} →
    {outer : List (Kind × List (Tree Kind))} → (rest : List Char) → AllTidy (!outer.isEmpty) ts →
    (between done outer).run ((renderLines depth ts).toList ++ rest) =
      (between (ts.reverse ++ done) outer).run rest
  | [], _, _, _, _, _ => rfl
  | t :: ts, depth, done, outer, rest, h => by
    obtain ⟨ht, hts⟩ := h
    rw [renderLines, String.toList_append, String.toList_append, List.append_assoc,
      List.append_assoc, run_render t depth _ ht]
    have hnewline : "\n".toList = ['\n'] := rfl
    rw [hnewline, List.singleton_append, run_space (t :: done) outer _ (by decide),
      run_renderLines ts depth rest hts, List.reverse_cons, List.append_assoc,
      List.singleton_append]

end

theorem run_renderAll (ts : List (Tree Kind)) {done : List (Tree Kind)} (h : AllTidy false ts) :
    (between done []).run (renderAll ts).toList = between (ts.reverse ++ done) [] := by
  induction ts generalizing done with
  | nil => rfl
  | cons t ts ih =>
    obtain ⟨ht, hts⟩ := h
    have hfirst : ∀ rest, (between done []).run ((render 0 t).toList ++ rest) =
        (between (t :: done) []).run rest := fun rest => run_render t 0 rest ht
    cases ts with
    | nil =>
      have hone : renderAll [t] = render 0 t := String.intercalate_singleton
      rw [hone, ← List.append_nil (render 0 t).toList, hfirst]
      rfl
    | cons u ts =>
      have hmore : renderAll (t :: u :: ts) = render 0 t ++ "\n" ++ renderAll (u :: ts) :=
        String.intercalate_cons_cons
      have hnewline : "\n".toList = ['\n'] := rfl
      rw [hmore, String.toList_append, String.toList_append, hnewline, List.append_assoc,
        hfirst, List.singleton_append, run_space (t :: done) [] _ (by decide), ih hts]
      simp

end Reader

/-- A tidy stylesheet is read back from its text. -/
theorem parse_renderAll {ts : List (Tree Kind)} (h : AllTidy false ts) :
    parse (renderAll ts) = ts := by
  rw [parse_eq, Reader.run_renderAll ts h, List.append_nil]
  exact List.reverse_reverse ts

end StylePack.Css.Tree

namespace StylePack.Css.Sheet
open Token Css.Tree

/-- A sheet with tidy content that is written and read again has the same content. -/
theorem contents_parse_toCss {s : Sheet} (h : AllTidy false s.contents) :
    (parse s.toCss).contents = s.contents := by
  rw [contents_parse, toCss, parse_renderAll h]

/-- A media block with a rule in it, and an import. -/
def printed : List (Tree Kind) :=
  [node (.atRule "media" "print" true) [node (.comment "k") [],
    node (.rule ".a:not(.b)") [node (.declaration ⟨"p", "calc(1px) x", true⟩) []]],
    node (.atRule "import" "" false) []]

theorem contents_parse_toCss_printed : AllTidy false (ofTrees printed).contents ∧
    (parse (ofTrees printed).toCss).contents = printed := by
  have hneat : ∀ {s : String}, Clean s.toList → 'u' ∉ s.toList.map Text.foldCase →
      Text.trim s.toList = s.toList → Neat s :=
    fun hclean hu htrim => ⟨hclean, fun h => hu (h.subset List.mem_cons_self), htrim⟩
  have hmedia : (Kind.atRule "media" "print" true).Tidy false :=
    ⟨by decide, hneat ⟨by decide, by decide⟩ (by decide) (by decide),
      fun h => absurd (h.subset List.mem_cons_self) (by decide), nofun⟩
  have hcomment : (Kind.comment "k").Tidy true :=
    ⟨fun h => absurd (h.subset List.mem_cons_self) (by decide), by decide⟩
  have hrule : (Kind.rule ".a:not(.b)").Tidy true :=
    ⟨hneat ⟨by decide, by decide⟩ (by decide) (by decide), _, _, rfl, Or.inr (Or.inl rfl)⟩
  have hdeclaration : (Kind.declaration ⟨"p", "calc(1px) x", true⟩).Tidy true :=
    ⟨rfl, by decide, hneat ⟨by decide, by decide⟩ (by decide) (by decide), by decide,
      by decide⟩
  have himport : (Kind.atRule "import" "" false).Tidy false :=
    ⟨by decide, hneat ⟨by decide, by decide⟩ (by decide) (by decide),
      fun h => absurd (h.subset List.mem_cons_self) (by decide), fun _ => by decide⟩
  have htidy : AllTidy false (ofTrees printed).contents := by
    rw [contents_ofTrees]
    exact ⟨⟨hmedia, nofun, ⟨hcomment, fun _ => rfl, trivial⟩,
      ⟨hrule, nofun, ⟨hdeclaration, fun _ => rfl, trivial⟩, trivial⟩, trivial⟩,
      ⟨himport, fun _ => rfl, trivial⟩, trivial⟩
  exact ⟨htidy, (contents_parse_toCss htidy).trans (contents_ofTrees printed)⟩

end StylePack.Css.Sheet
