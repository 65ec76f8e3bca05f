import StylePack.Css.Token.Name

/-! Quoted strings and comments in CSS text. Both run to the end of the text if they are not
closed; a newline that is not escaped ends a string too and does not belong to it. -/
namespace StylePack.Css.Token

/-- How much of the text after a backslash belongs to it inside a string. -/
def continuationLength (r : List Char) : Nat :=
  if startsNewline r then spaceLength r else (escape r).2

/-- The length of a string after its opening quote `q`, the closing quote included. -/
def stringLength (q : Char) : Nat → List Char → Nat
  | _, [] => 0
  | skip + 1, _ :: r => stringLength q skip r + 1
  | 0, c :: r =>
    if c == q then 1
    else if isNewline c then 0
    else if c == '\\' then stringLength q (continuationLength r) r + 1
    else stringLength q 0 r + 1

/-- The text of a comment, up to the first closing mark. -/
def commentBody : List Char → List Char
  | '*' :: '/' :: _ => []
  | c :: r => c :: commentBody r
  | [] => []

theorem commentBody_prefix (cs : List Char) : commentBody cs <+: cs := by
  fun_induction commentBody cs with
  | case1 => exact List.nil_prefix
  | case2 c r _ ih => exact (List.prefix_cons_inj c).2 ih
  | case3 => exact List.nil_prefix

/-- A comment's text does not hold the mark that closes it. -/
theorem not_infix_commentBody (cs : List Char) : ¬ ['*', '/'] <:+: commentBody cs := by
  fun_induction commentBody cs with
  | case1 => simp
  | case2 c r hc ih =>
    rw [List.infix_cons_iff, not_or]
    refine ⟨fun hp => ?_, ih⟩
    obtain ⟨t, ht⟩ := hp
    simp only [List.cons_append, List.nil_append, List.cons.injEq] at ht
    obtain ⟨rfl, ht⟩ := ht
    obtain ⟨u, hu⟩ := commentBody_prefix r
    rw [← ht] at hu
    exact hc _ rfl hu.symm
  | case3 => simp

/-- A comment that is closed is read up to its closing mark. -/
theorem commentBody_closed {body : List Char} (h : ¬ ['*', '/'] <:+: body ++ ['*'])
    (r : List Char) : commentBody (body ++ '*' :: '/' :: r) = body := by
  induction body with
  | nil => rfl
  | cons c body ih =>
    have hb : ¬ ['*', '/'] <:+: body ++ ['*'] := fun hi =>
      h (hi.trans (List.suffix_cons c (body ++ ['*'])).isInfix)
    have hc : ∀ t, c = '*' → body ++ '*' :: '/' :: r = '/' :: t → False := by
      intro t hc ht
      cases body with
      | nil => simp at ht
      | cons d body =>
        simp only [List.cons_append, List.cons.injEq] at ht
        exact h ⟨[], body ++ ['*'], by simp [hc, ht.1]⟩
    rw [List.cons_append, commentBody, ih hb]
    exact fun t => hc t

example : stringLength '"' 0 "a\\\"b\" c".toList = 5 := by decide

end StylePack.Css.Token
