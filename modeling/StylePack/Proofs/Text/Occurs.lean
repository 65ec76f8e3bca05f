import Mathlib.Data.List.Infix

/-! Where a word can occur in a text that is put together from two: in one of them, or where they
meet. -/
namespace StylePack.Text
variable {a b x : Char} {s t word : List Char}

/-- No pair arises where two texts meet, unless it is cut in two there. -/
theorem pair_append_iff (h : s.getLast? ≠ some a ∨ t.head? ≠ some b) :
    [a, b] <:+: s ++ t ↔ [a, b] <:+: s ∨ [a, b] <:+: t := by
  induction s with
  | nil =>
    rw [List.nil_append, List.infix_nil]
    simp
  | cons c s ih =>
    rw [List.cons_append, List.infix_cons_iff, List.infix_cons_iff, or_assoc]
    cases s with
    | nil =>
      have hpre : ¬ [a, b] <+: c :: t := by
        rw [List.cons_prefix_cons]
        rintro ⟨rfl, u, rfl⟩
        simp at h
      have hone : ¬ [a, b] <+: [c] := by simp [List.cons_prefix_cons]
      rw [List.nil_append, List.infix_nil, or_iff_right hpre, or_iff_right hone]
      simp
    | cons d s =>
      rw [List.getLast?_cons_cons] at h
      rw [ih h, List.cons_append, List.cons_prefix_cons, List.cons_prefix_cons,
        List.cons_prefix_cons, List.cons_prefix_cons]
      simp

theorem prefix_of_separated (hx : x ∉ word) (h : word <+: s ++ x :: t) : word <+: s := by
  rcases List.prefix_or_prefix_of_prefix h (List.prefix_append s (x :: t)) with hs | ⟨w, rfl⟩
  · exact hs
  · rw [List.prefix_append_right_inj] at h
    cases w with
    | nil => simp
    | cons c w =>
      obtain ⟨rfl, -⟩ := List.cons_prefix_cons.mp h
      simp at hx

/-- A word does not reach over a character that is not in it. -/
theorem separated_iff (hne : word ≠ []) (hx : x ∉ word) :
    word <:+: s ++ x :: t ↔ word <:+: s ∨ word <:+: t := by
  constructor
  · induction s with
    | nil =>
      intro h
      rcases List.infix_cons_iff.mp h with hp | ht
      · exact absurd (List.prefix_nil.mp (prefix_of_separated hx hp)) hne
      · exact Or.inr ht
    | cons c s ih =>
      intro h
      rcases List.infix_cons_iff.mp h with hp | ht
      · exact Or.inl (prefix_of_separated (s := c :: s) hx hp).isInfix
      · exact (ih ht).imp_left fun hs => List.infix_cons hs
  · rintro (h | h)
    · exact h.trans (List.prefix_append s (x :: t)).isInfix
    · exact h.trans ((List.suffix_cons x t).trans (List.suffix_append s (x :: t))).isInfix

end StylePack.Text
