import StylePack.Css.Tree.Reader

/-! What a stylesheet's text can be read as. Selectors and parameters are trimmed, a declaration
is what some text holds, and no comment holds the mark that closes it. -/
namespace StylePack.Css
open Text

namespace Token

theorem nameLike_token (c : Char) (r : List Char) :
    (nameLike c r).1 = .other ∨ (nameLike c r).1 = .opening .round := by
  unfold nameLike
  dsimp only
  split
  · split
    · split
      · exact Or.inl rfl
      · exact Or.inr rfl
    · exact Or.inr rfl
  · exact Or.inl rfl

/-- Only `/*` begins a comment. -/
theorem first_eq_comment {c : Char} {r body : List Char} (h : (first c r).1 = .comment body) :
    ∃ inner, body = commentBody inner := by
  have hname : (nameLike c r).1 ≠ .comment body := by
    rcases nameLike_token c r with ht | ht
    all_goals
      rw [ht]
      exact Token.noConfusion
  unfold first at h
  split at h
  any_goals exact Token.noConfusion h
  · split at h
    · exact ⟨_, (Token.comment.inj h).symm⟩
    · exact Token.noConfusion h
  · split at h <;> exact Token.noConfusion h
  · split at h <;> exact Token.noConfusion h
  · split at h
    · exact Token.noConfusion h
    · split at h
      · exact Token.noConfusion h
      · split at h
        · exact absurd h hname
        · exact Token.noConfusion h
  · split at h
    · exact Token.noConfusion h
    · split at h
      · exact Token.noConfusion h
      · split at h
        · exact absurd h hname
        · exact Token.noConfusion h

theorem comment_of_mem_lexemes {cs body : List Char} {l : Lexeme} (hl : l ∈ lexemes cs)
    (h : l.token = .comment body) : ¬ ['*', '/'] <:+: body := by
  unfold lexemes at hl
  revert hl
  generalize (0 : Nat) = skip
  intro hl
  fun_induction lexemesFrom skip cs with
  | case1 => exact absurd hl List.not_mem_nil
  | case2 skip c r ih => exact ih hl
  | case3 c r ih =>
    rcases List.mem_cons.mp hl with rfl | hl
    · obtain ⟨inner, rfl⟩ := first_eq_comment h
      exact not_infix_commentBody inner
    · exact ih hl

end Token

namespace Tree

/-- What the reader makes nodes of. -/
inductive Readable : Kind → Prop
  | rule (text : List Char) : Readable (.rule (String.ofList (trim text)))
  | atRule (name params : List Char) (hasBlock : Bool) :
    Readable (Reader.atRuleKind name params hasBlock)
  | declaration {text : List Char} {content : Declaration}
    (h : Declaration.ofText? text = some content) : Readable (.declaration content)
  | comment {body : List Char} (h : ¬ ['*', '/'] <:+: body) :
    Readable (.comment (String.ofList (trim body)))

/-- Every label of the trees can be read. -/
def AllReadable (ts : List (Tree Kind)) : Prop := ∀ t ∈ ts, ∀ k ∈ t.labels, Readable k

theorem AllReadable.cons {k : Kind} {ts rest : List (Tree Kind)} (hk : Readable k)
    (hts : AllReadable ts) (hrest : AllReadable rest) :
    AllReadable (node k ts.reverse :: rest) := by
  intro t ht
  rcases List.mem_cons.mp ht with rfl | ht
  · intro x hx
    rw [labels_node, List.mem_cons, List.mem_flatMap] at hx
    rcases hx with rfl | ⟨t, ht, hx⟩
    · exact hk
    · exact hts t (List.mem_reverse.mp ht) x hx
  · exact hrest t ht

namespace Reader

/-- Every node of a reader can be read, finished or open. -/
structure Sound (r : Reader) : Prop where
  done : AllReadable r.done
  outer : ∀ f ∈ r.outer, Readable f.1 ∧ AllReadable f.2

variable {r : Reader}

theorem Sound.add {kind : Kind} (h : r.Sound) (hk : Readable kind) : (r.add kind).Sound :=
  ⟨.cons hk (fun _ ht => absurd ht List.not_mem_nil) h.done, h.outer⟩

theorem Sound.addDeclaration (h : r.Sound) (text : List Char) : (r.addDeclaration text).Sound := by
  unfold Reader.addDeclaration
  split
  · exact h
  · split
    · next content hc => exact h.add (.declaration hc)
    · exact h

theorem Sound.enter {kind : Kind} (h : r.Sound) (hk : Readable kind) : (r.enter kind).Sound := by
  refine ⟨fun _ ht => absurd ht List.not_mem_nil, fun f hf => ?_⟩
  rcases List.mem_cons.mp hf with rfl | hf
  · exact ⟨hk, h.done⟩
  · exact h.outer f hf

theorem Sound.leave (h : r.Sound) : r.leave.Sound := by
  unfold Reader.leave
  split
  · exact h
  · next kind before outer ho =>
    obtain ⟨hk, hbefore⟩ := h.outer (kind, before) (by simp [ho])
    exact ⟨.cons hk h.done hbefore, fun f hf => h.outer f (by simp [ho, hf])⟩

theorem Sound.complete (h : r.Sound) (passed : List Char) : (r.complete passed).Sound := by
  have h' : Sound { r with mode := .contents, gap := [] } := ⟨h.done, h.outer⟩
  unfold Reader.complete
  dsimp only
  split
  · exact h'
  · exact h'.add (.atRule _ _ _)
  · exact h'.addDeclaration _

theorem Sound.read (h : r.Sound) {token : Token}
    (ht : ∀ body, token = .comment body → ¬ ['*', '/'] <:+: body) (piece : List Char) :
    (r.read token piece).Sound := by
  unfold Reader.read
  split
  · next body _ =>
    exact ⟨(h.add (.comment (ht body rfl))).done, h.outer⟩
  all_goals first
    | exact ⟨h.done, h.outer⟩
    | exact h.enter (.atRule _ _ _)
    | exact h.enter (.rule _)
    | exact h.complete []

theorem Sound.step (h : r.Sound) {l : Lexeme}
    (hl : ∀ body, l.token = .comment body → ¬ ['*', '/'] <:+: body) : (r.step l).Sound := by
  unfold Reader.step
  split
  · split
    · exact (h.complete _).leave
    · exact h.read hl _
  · exact ⟨h.done, h.outer⟩

theorem closeAll_readable {inner : List (Tree Kind)} {outer : List (Kind × List (Tree Kind))}
    (hi : AllReadable inner) (ho : ∀ f ∈ outer, Readable f.1 ∧ AllReadable f.2) :
    AllReadable (closeAll inner outer) := by
  induction outer generalizing inner with
  | nil =>
    intro t ht
    exact hi t (List.mem_reverse.mp ht)
  | cons f outer ih =>
    obtain ⟨hk, hbefore⟩ := ho f List.mem_cons_self
    exact ih (.cons hk hi hbefore) fun g hg => ho g (List.mem_cons_of_mem f hg)

end Reader

/-- Every node of a stylesheet's text is one that can be read. -/
theorem readable_parse (css : String) : AllReadable (parse css) := by
  have hfold : ∀ (ls : List Lexeme) (r : Reader), r.Sound →
      (∀ l ∈ ls, ∀ body, l.token = .comment body → ¬ ['*', '/'] <:+: body) →
      (ls.foldl Reader.step r).Sound := by
    intro ls
    induction ls with
    | nil => exact fun _ h _ => h
    | cons l ls ih =>
      intro r h hls
      exact ih _ (h.step (hls l List.mem_cons_self)) fun m hm => hls m (List.mem_cons_of_mem l hm)
  have hstart : ({} : Reader).Sound :=
    ⟨fun _ ht => absurd ht List.not_mem_nil, fun _ hf => absurd hf List.not_mem_nil⟩
  have h := hfold (Token.lexemes css.toList) {} hstart fun l hl body =>
    Token.comment_of_mem_lexemes hl
  have hc := h.complete (List.foldl Reader.step {} (Token.lexemes css.toList)).gap
  refine Reader.closeAll_readable hc.done fun f hf => ?_
  exact h.outer f hf

end Tree
end StylePack.Css
