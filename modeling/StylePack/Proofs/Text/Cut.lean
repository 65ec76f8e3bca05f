import StylePack.Text.Blank

/-! Where a text is cut, and where it stays in one piece. -/
namespace StylePack.Text
variable {p : Char → Bool} {c : Char} {cs : List Char}

theorem splitWhere_of_forall (h : ∀ c ∈ cs, p c = false) : splitWhere p cs = [cs] := by
  induction cs with
  | nil => rfl
  | cons c cs ih =>
    rw [splitWhere, ih fun d hd => h d (List.mem_cons_of_mem c hd), h c List.mem_cons_self]
    rfl

/-- What stands before a cut and what stands behind it are cut apart from each other. -/
theorem splitWhere_append_cons (hc : p c = true) (cs ds : List Char) :
    splitWhere p (cs ++ c :: ds) = splitWhere p cs ++ splitWhere p ds := by
  induction cs with
  | nil => simp [splitWhere, hc]
  | cons b cs ih =>
    rw [List.cons_append, splitWhere, splitWhere, ih]
    by_cases hb : p b = true
    · simp [hb]
    · cases hs : splitWhere p cs with
      | nil => exact absurd hs (splitWhere_ne_nil p cs)
      | cons piece pieces => simp [hb]

/-- The pieces of a cut text hold no character at which it is cut. -/
theorem forall_of_mem_splitWhere {piece : List Char} (h : piece ∈ splitWhere p cs) :
    ∀ c ∈ piece, p c = false := by
  induction cs generalizing piece with
  | nil =>
    rw [List.mem_singleton.mp h]
    exact fun c hc => absurd hc List.not_mem_nil
  | cons b cs ih =>
    rw [splitWhere] at h
    by_cases hb : p b = true
    · rw [if_pos hb, List.mem_cons] at h
      rcases h with rfl | hmem
      · exact fun c hc => absurd hc List.not_mem_nil
      · exact ih hmem
    · rw [if_neg hb] at h
      cases hs : splitWhere p cs with
      | nil => exact absurd hs (splitWhere_ne_nil p cs)
      | cons first rest =>
        simp only [hs, List.mem_cons] at h ih
        rcases h with rfl | hmem
        · intro c hc
          rcases List.mem_cons.mp hc with rfl | hc
          · exact Bool.eq_false_iff.mpr hb
          · exact ih (Or.inl rfl) c hc
        · exact ih (Or.inr hmem)

/-- A text is its pieces with the character between them that it was cut at. -/
theorem intercalate_splitWhere (c : Char) (cs : List Char) :
    [c].intercalate (splitWhere (· == c) cs) = cs := by
  induction cs with
  | nil => rfl
  | cons b cs ih =>
    rw [splitWhere]
    cases hs : splitWhere (· == c) cs with
    | nil => exact absurd hs (splitWhere_ne_nil _ cs)
    | cons piece pieces =>
      rw [hs] at ih
      by_cases hb : b = c
      · rw [if_pos (beq_iff_eq.mpr hb), List.intercalate_cons_cons, ih, hb]
        rfl
      · rw [if_neg (by simpa using hb)]
        cases pieces with
        | nil =>
          rw [List.intercalate_singleton] at ih ⊢
          rw [ih]
        | cons next rest =>
          rw [List.intercalate_cons_cons] at ih ⊢
          exact congrArg (b :: ·) ih

/-- With fewer pieces less is written. -/
theorem intercalate_sublist (gap : List Char) {as bs : List (List Char)} (h : as.Sublist bs) :
    (gap.intercalate as).Sublist (gap.intercalate bs) := by
  induction h with
  | slnil => exact .refl _
  | @cons as bs b h ih =>
    cases bs with
    | nil =>
      rw [List.sublist_nil.mp h]
      exact List.nil_sublist _
    | cons b' bs =>
      rw [List.intercalate_cons_cons]
      exact ih.trans (List.sublist_append_right _ _)
  | @cons_cons as bs a h ih =>
    cases as with
    | nil =>
      cases bs with
      | nil => exact .refl _
      | cons b bs =>
        rw [List.intercalate_singleton, List.intercalate_cons_cons, List.append_assoc]
        exact List.sublist_append_left _ _
    | cons a' as =>
      cases bs with
      | nil => cases h
      | cons b bs =>
        rw [List.intercalate_cons_cons, List.intercalate_cons_cons]
        exact (List.Sublist.refl _).append ih

theorem words_of_forall (hne : cs ≠ []) (h : ∀ c ∈ cs, isBlank c = false) : words cs = [cs] := by
  rw [words, splitWhere_of_forall h, List.filter_eq_self]
  simpa using hne

/-- No word goes over a blank. -/
theorem words_append_cons (hc : isBlank c = true) (cs ds : List Char) :
    words (cs ++ c :: ds) = words cs ++ words ds := by
  rw [words, splitWhere_append_cons hc, List.filter_append]
  rfl

end StylePack.Text
