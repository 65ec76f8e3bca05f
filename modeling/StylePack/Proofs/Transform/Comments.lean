import StylePack.Proofs.Css.Readable
import StylePack.Proofs.Sheet.Descent
import StylePack.Proofs.Text.Occurs
import StylePack.Proofs.Text.Trimmed
import StylePack.Proofs.Transform.Contents

/-! The comments of an expanded stylesheet: those it had and those that note problems. A problem is
noted in the words of the directive, and these may hold the mark that closes a comment. -/
namespace StylePack
open Css Css.Sheet Css.Tree

/-- What is quoted from a stylesheet to note a problem. -/
def Diagnostic.quoted : Diagnostic → List String
  | unknownPackage name => [name]
  | aliasTaken name existing ignored => [name, existing, ignored]
  | unknownInUse name => [name]
  | repeatedUse ignored => [ignored]

theorem infix_toList_append {s t : String}
    (h : s.toList.getLast? ≠ some '*' ∨ t.toList.head? ≠ some '/') :
    ['*', '/'] <:+: (s ++ t).toList ↔ ['*', '/'] <:+: s.toList ∨ ['*', '/'] <:+: t.toList := by
  rw [String.toList_append, Text.pair_append_iff h]

theorem not_infix_of_notMem {cs : List Char} (h : '*' ∉ cs) : ¬ ['*', '/'] <:+: cs :=
  fun hi => h (hi.subset List.mem_cons_self)

theorem infix_literal_append {s : String} (hs : '*' ∉ s.toList) (t : String) :
    ['*', '/'] <:+: (s ++ t).toList ↔ ['*', '/'] <:+: t.toList := by
  have hlast : s.toList.getLast? ≠ some '*' := fun h => hs (List.mem_of_getLast? h)
  rw [infix_toList_append (Or.inl hlast), or_iff_right (not_infix_of_notMem hs)]

theorem infix_append_literal (s : String) {t : String} (ht : '*' ∉ t.toList)
    (hhead : t.toList.head? ≠ some '/') :
    ['*', '/'] <:+: (s ++ t).toList ↔ ['*', '/'] <:+: s.toList := by
  rw [infix_toList_append (Or.inr hhead), or_iff_left (not_infix_of_notMem ht)]

theorem infix_append_literal_append (s : String) {t : String} (ht : '*' ∉ t.toList)
    (hhead : t.toList.head? = some '\'') (u : String) :
    ['*', '/'] <:+: (s ++ (t ++ u)).toList ↔
      ['*', '/'] <:+: s.toList ∨ ['*', '/'] <:+: u.toList := by
  have hne : (t ++ u).toList.head? ≠ some '/' := by
    rw [String.toList_append, List.head?_append, hhead]
    simp
  rw [infix_toList_append (Or.inr hne), infix_literal_append ht]

/-- The words around what is quoted hold no mark, so a note holds one just if a quotation does. -/
theorem infix_comment_iff (d : Diagnostic) :
    ['*', '/'] <:+: d.comment.toList ↔ ∃ name ∈ d.quoted, ['*', '/'] <:+: name.toList := by
  rw [Diagnostic.comment, infix_literal_append (by decide)]
  cases d with
  | unknownPackage name =>
    change _ <:+: ("unknown package '" ++ name ++ "'").toList ↔ _
    rw [infix_append_literal _ (by decide) (by decide), infix_literal_append (by decide)]
    simp [Diagnostic.quoted]
  | aliasTaken name existing ignored =>
    change _ <:+: ("alias '" ++ name ++ "' already mapped to '" ++ existing ++ "' (ignored '" ++
      ignored ++ "')").toList ↔ _
    simp only [String.append_assoc]
    rw [infix_literal_append (by decide), infix_append_literal_append _ (by decide) (by decide),
      infix_append_literal_append _ (by decide) (by decide),
      infix_append_literal _ (by decide) (by decide)]
    simp [Diagnostic.quoted]
  | unknownInUse name =>
    change _ <:+: ("unknown package '" ++ name ++ "' in @use").toList ↔ _
    rw [infix_append_literal _ (by decide) (by decide), infix_literal_append (by decide)]
    simp [Diagnostic.quoted]
  | repeatedUse ignored =>
    change _ <:+: ("multiple @use not allowed in same rule (ignored '" ++ ignored ++
      "')").toList ↔ _
    rw [infix_append_literal _ (by decide) (by decide), infix_literal_append (by decide)]
    simp [Diagnostic.quoted]

section
variable (P : PackageTable) (A : String → Option String)

mutual

/-- The problems that are noted below a node that is no directive. -/
def noted : Css.Tree Kind → List Diagnostic
  | node k ts => notedAll k.isRule false ts

/-- The problems that are noted among nodes and below them; what a directive holds is gone. -/
def notedAll (inRule used : Bool) : List (Css.Tree Kind) → List Diagnostic
  | [] => []
  | t :: ts =>
    if isPackage t.label then packageProblems P A t.label ++ notedAll inRule used ts
    else if isUse t.label then
      useProblems P A inRule used t.label ++ notedAll inRule true ts
    else noted t ++ notedAll inRule used ts

end
end

section
variable {P : PackageTable} {A : String → Option String}

theorem comment_mem_notesOf {text : String} (ds : List Diagnostic) :
    .comment text ∈ notesOf ds ↔ ∃ d ∈ ds, d.comment = text := by
  unfold notesOf
  rw [List.mem_map]
  simp only [Kind.comment.injEq]

/-- Packages hold declarations only. -/
theorem comment_notMem_addedTo (inRule : Bool) (ks : List Kind) (text : String) :
    .comment text ∉ addedTo P A inRule ks := by
  unfold addedTo
  split
  · cases ks.find? isUse with
    | none => exact List.not_mem_nil
    | some k =>
      rw [Option.map_some, Option.getD_some, injected, List.mem_flatMap]
      rintro ⟨word, -, h⟩
      unfold stylesOf at h
      split at h
      · obtain ⟨e, -, he⟩ := List.mem_map.mp h
        exact Kind.noConfusion he
      · exact List.not_mem_nil h
  · exact List.not_mem_nil

mutual

theorem comment_mem_expanded (text : String) : (t : Css.Tree Kind) →
    .comment text ∈ (expanded P A t).labels →
      .comment text ∈ t.labels ∨ ∃ d ∈ noted P A t, d.comment = text
  | node k ts => by
    have hts := comment_mem_expandedAll text k.isRule false ts
    intro h
    rw [expanded, labels_node, List.flatMap_append, labels_leaves, List.mem_cons,
      List.mem_append] at h
    rw [labels_node, noted, List.mem_cons]
    rcases h with h | h | h
    · exact Or.inl (Or.inl h)
    · exact (hts h).imp_left Or.inr
    · exact absurd h (comment_notMem_addedTo _ _ _)

/-- Every comment of an expanded stylesheet was there before or notes a problem. -/
theorem comment_mem_expandedAll (text : String) (inRule used : Bool) : (ts : List (Css.Tree Kind)) →
    .comment text ∈ (expandedAll P A inRule used ts).flatMap labels →
      .comment text ∈ ts.flatMap labels ∨
        ∃ d ∈ notedAll P A inRule used ts, d.comment = text
  | [] => fun h => absurd h List.not_mem_nil
  | t :: ts => by
    have ht := comment_mem_expanded text t
    have hts := comment_mem_expandedAll text inRule used ts
    have hts' := comment_mem_expandedAll text inRule true ts
    intro h
    rw [expandedAll] at h
    rw [List.flatMap_cons, List.mem_append, notedAll]
    by_cases hp : isPackage t.label
    · rw [if_pos hp, List.flatMap_append, labels_leaves, List.mem_append, comment_mem_notesOf] at h
      rw [if_pos hp]
      simp only [List.mem_append, or_and_right, exists_or]
      rcases h with h | h
      · exact Or.inr (Or.inl h)
      · exact (hts h).imp Or.inr Or.inr
    · by_cases hu : isUse t.label
      · rw [if_neg hp, if_pos hu, List.flatMap_append, labels_leaves, List.mem_append,
          comment_mem_notesOf] at h
        rw [if_neg hp, if_pos hu]
        simp only [List.mem_append, or_and_right, exists_or]
        rcases h with h | h
        · exact Or.inr (Or.inl h)
        · exact (hts' h).imp Or.inr Or.inr
      · rw [if_neg hp, if_neg hu, List.flatMap_cons, List.mem_append] at h
        rw [if_neg hp, if_neg hu]
        simp only [List.mem_append, or_and_right, exists_or]
        rcases h with h | h
        · exact (ht h).imp Or.inl Or.inl
        · exact (hts h).imp Or.inr Or.inr

end

mutual

theorem comment_of_noted (d : Diagnostic) : (t : Css.Tree Kind) → d ∈ noted P A t →
    .comment d.comment ∈ (expanded P A t).labels
  | node k ts => by
    have hts := comment_of_notedAll d k.isRule false ts
    intro h
    rw [noted] at h
    rw [expanded, labels_node, List.flatMap_append, List.mem_cons, List.mem_append]
    exact Or.inr (Or.inl (hts h))

/-- A problem that is noted is noted in a comment. -/
theorem comment_of_notedAll (d : Diagnostic) (inRule used : Bool) : (ts : List (Css.Tree Kind)) →
    d ∈ notedAll P A inRule used ts →
      .comment d.comment ∈ (expandedAll P A inRule used ts).flatMap labels
  | [] => fun h => absurd h List.not_mem_nil
  | t :: ts => by
    have ht := comment_of_noted d t
    have hts := comment_of_notedAll d inRule used ts
    have hts' := comment_of_notedAll d inRule true ts
    intro h
    rw [notedAll] at h
    rw [expandedAll]
    by_cases hp : isPackage t.label
    · rw [if_pos hp, List.mem_append] at h
      rw [if_pos hp, List.flatMap_append, labels_leaves, List.mem_append, comment_mem_notesOf]
      exact h.imp (fun hd => ⟨d, hd, rfl⟩) hts
    · by_cases hu : isUse t.label
      · rw [if_neg hp, if_pos hu, List.mem_append] at h
        rw [if_neg hp, if_pos hu, List.flatMap_append, labels_leaves, List.mem_append,
          comment_mem_notesOf]
        exact h.imp (fun hd => ⟨d, hd, rfl⟩) hts'
      · rw [if_neg hp, if_neg hu, List.mem_append] at h
        rw [if_neg hp, if_neg hu, List.flatMap_cons, List.mem_append]
        exact h.imp ht hts

end

/-- No comment that is read holds the mark that closes it. -/
theorem not_infix_of_parsed {css text : String}
    (h : .comment text ∈ (Tree.parse css).flatMap labels) : ¬ ['*', '/'] <:+: text.toList := by
  obtain ⟨t, ht, hk⟩ := List.mem_flatMap.mp h
  cases readable_parse css t ht _ hk with
  | @comment body hbody =>
    rw [String.toList_ofList]
    exact fun hi => hbody (hi.trans (Text.trim_isInfix body))

end

theorem comment_attached_iff (P : PackageTable) (css text : String) :
    (∃ i, (transform P (Sheet.parse css)).1.isAttached i = true ∧
      (transform P (Sheet.parse css)).1.kind? i = some (.comment text)) ↔
      .comment text ∈ (expandedAll P (boundTo P (Tree.parse css)) false false
        (Tree.parse css)).flatMap labels := by
  have hlinked := linked_transform P (Linked.parse css)
  have hcontents := transform_of_linked P (Linked.parse css)
  rw [contents_parse, expansion] at hcontents
  rw [← hlinked.mem_labels_contents Kind.noConfusion, hcontents]

/-- The comments of an expanded stylesheet hold no mark that closes a comment, just if nothing
that is quoted to note a problem holds one. -/
theorem comments_closed_iff (P : PackageTable) (css : String) :
    (∀ i text, (transform P (Sheet.parse css)).1.isAttached i = true →
      (transform P (Sheet.parse css)).1.kind? i = some (.comment text) →
        ¬ ['*', '/'] <:+: text.toList) ↔
      ∀ d ∈ notedAll P (boundTo P (Tree.parse css)) false false (Tree.parse css),
        ∀ name ∈ d.quoted, ¬ ['*', '/'] <:+: name.toList := by
  constructor
  · intro h d hd name hname hi
    obtain ⟨i, hi', hk⟩ :=
      (comment_attached_iff P css d.comment).mpr (comment_of_notedAll d false false _ hd)
    exact h i d.comment hi' hk ((infix_comment_iff d).mpr ⟨name, hname, hi⟩)
  · intro h i text hi hk hinfix
    have hmem := (comment_attached_iff P css text).mp ⟨i, hi, hk⟩
    rcases comment_mem_expandedAll text false false _ hmem with hold | ⟨d, hd, rfl⟩
    · exact not_infix_of_parsed hold hinfix
    · obtain ⟨name, hname, hin⟩ := (infix_comment_iff d).mp hinfix
      exact h d hd name hname hin

/-- A word of a directive may hold the mark, and the comment that quotes it holds it too. -/
theorem comments_not_closed : ¬ ∀ (P : PackageTable) (css : String) (i : Nat) (text : String),
    (transform P (Sheet.parse css)).1.isAttached i = true →
      (transform P (Sheet.parse css)).1.kind? i = some (.comment text) →
        ¬ ['*', '/'] <:+: text.toList := by
  intro h
  have hparse : Tree.parse ".a\x7b@use */;\x7d" =
      [.node (.rule ".a") [.leaf (.atRule "use" "*/" false)]] := by rfl
  have hnoted : .unknownInUse "*/" ∈ notedAll .empty
      (boundTo .empty (Tree.parse ".a\x7b@use */;\x7d")) false false
      (Tree.parse ".a\x7b@use */;\x7d") := by
    rw [hparse]
    decide
  obtain ⟨i, hi, hk⟩ := (comment_attached_iff .empty ".a\x7b@use */;\x7d" _).mpr
    (comment_of_notedAll _ false false _ hnoted)
  refine h .empty _ i _ hi hk ((infix_comment_iff _).mpr ⟨"*/", List.mem_cons_self, ?_⟩)
  exact List.infix_rfl

end StylePack
