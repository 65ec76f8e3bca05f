import Mathlib.Data.List.TakeWhile
import StylePack.Text.Blank

/-! Trimmed texts: what trimming leaves and when it changes nothing, and texts that are cut at the
first or at the last place of a mark. -/
namespace StylePack.Text
variable {c mark : Char} {cs before after : List Char}

theorem prefix_trimEnd (cs : List Char) : trimEnd cs <+: cs := by
  have h := (List.dropWhile_suffix (l := cs.reverse) isBlank)
  unfold trimEnd
  rwa [← List.reverse_prefix, List.reverse_reverse] at h

theorem trim_isInfix (cs : List Char) : trim cs <:+: cs :=
  (prefix_trimEnd _).isInfix.trans (List.dropWhile_suffix isBlank).isInfix

theorem trimEnd_eq_self (h : ∀ c ∈ cs.getLast?, isBlank c = false) : trimEnd cs = cs := by
  unfold trimEnd
  cases hr : cs.reverse with
  | nil => simpa using hr.symm
  | cons c r =>
    obtain rfl : cs = r.reverse ++ [c] := by simpa using congrArg List.reverse hr
    rw [List.dropWhile_cons_of_neg (by simp [h c (by simp)])]
    simp

theorem trim_eq_self (hhead : ∀ c ∈ cs.head?, isBlank c = false)
    (hlast : ∀ c ∈ cs.getLast?, isBlank c = false) : trim cs = cs := by
  have hstart : trimStart cs = cs := by
    unfold trimStart
    cases cs with
    | nil => rfl
    | cons c cs => exact List.dropWhile_cons_of_neg (by simp [hhead c (by simp)])
  rw [trim, hstart, trimEnd_eq_self hlast]

theorem not_blank_of_head?_trimStart (h : c ∈ (trimStart cs).head?) : isBlank c = false := by
  have hdrop := List.head?_dropWhile_not isBlank cs
  rw [← trimStart, Option.mem_def.mp h] at hdrop
  simpa using hdrop

theorem not_blank_of_getLast?_trimEnd (h : c ∈ (trimEnd cs).getLast?) : isBlank c = false := by
  unfold trimEnd at h
  rw [List.getLast?_reverse] at h
  exact not_blank_of_head?_trimStart h

theorem head?_of_head?_trimEnd (h : c ∈ (trimEnd cs).head?) : c ∈ cs.head? := by
  obtain ⟨r, hr⟩ := prefix_trimEnd cs
  rw [← hr, List.head?_append, Option.mem_def.mp h, Option.some_or]
  rfl

theorem not_blank_of_head?_trim (h : c ∈ (trim cs).head?) : isBlank c = false :=
  not_blank_of_head?_trimStart (head?_of_head?_trimEnd h)

/-- A text that does not begin with a blank is trimmed once its end is. -/
theorem trim_trimEnd (h : ∀ c ∈ cs.head?, isBlank c = false) : trim (trimEnd cs) = trimEnd cs := by
  apply trim_eq_self
  · exact fun c hc => h c (head?_of_head?_trimEnd hc)
  · exact fun c hc => not_blank_of_getLast?_trimEnd hc

/-- A trimmed text stays as it is. -/
theorem trim_trim (cs : List Char) : trim (trim cs) = trim cs :=
  trim_trimEnd fun _ hc => not_blank_of_head?_trimStart hc

theorem trimEnd_append_blank (h : isBlank c = true) (cs : List Char) :
    trimEnd (cs ++ [c]) = trimEnd cs := by
  unfold trimEnd
  rw [List.reverse_append, List.reverse_singleton, List.singleton_append,
    List.dropWhile_cons_of_pos h]

theorem trim_cons_blank (h : isBlank c = true) (cs : List Char) : trim (c :: cs) = trim cs := by
  unfold trim trimStart
  rw [List.dropWhile_cons_of_pos h]

theorem trim_append_blank (h : isBlank c = true) (cs : List Char) :
    trim (cs ++ [c]) = trim cs := by
  induction cs with
  | nil => exact trim_cons_blank h []
  | cons d cs ih =>
    by_cases hd : isBlank d
    · rw [List.cons_append, trim_cons_blank hd, trim_cons_blank hd, ih]
    · unfold trim trimStart
      rw [List.cons_append, List.dropWhile_cons_of_neg hd, List.dropWhile_cons_of_neg hd,
        ← List.cons_append, trimEnd_append_blank h]

theorem splitFirst_of_notMem (h : mark ∉ cs) : splitFirst mark cs = none := by
  have hall : cs.dropWhile (· != mark) = [] := by
    rw [List.dropWhile_eq_nil_iff]
    intro c hc
    rw [bne_iff_ne]
    rintro rfl
    exact h hc
  rw [splitFirst, hall]

theorem splitFirst_append (h : mark ∉ before) (after : List Char) :
    splitFirst mark (before ++ mark :: after) = some (before, after) := by
  have hne : ∀ c ∈ before, (c != mark) = true := by
    intro c hc
    rw [bne_iff_ne]
    rintro rfl
    exact h hc
  rw [splitFirst, List.dropWhile_append_of_pos hne, List.takeWhile_append_of_pos hne,
    List.dropWhile_cons_of_neg (by simp), List.takeWhile_cons_of_neg (by simp), List.append_nil]

theorem splitFirst_eq_some (h : splitFirst mark cs = some (before, after)) :
    cs = before ++ mark :: after ∧ mark ∉ before := by
  by_cases hm : mark ∈ cs
  · obtain ⟨l, r, rfl, hl⟩ := List.eq_append_cons_of_mem hm
    rw [splitFirst_append hl] at h
    cases h
    exact ⟨rfl, hl⟩
  · rw [splitFirst_of_notMem hm] at h
    cases h

theorem splitLast_of_notMem (h : mark ∉ cs) : splitLast mark cs = none := by
  rw [splitLast, splitFirst_of_notMem (by simpa using h)]
  rfl

theorem splitLast_append (before : List Char) (h : mark ∉ after) :
    splitLast mark (before ++ mark :: after) = some (before, after) := by
  have hrev : (before ++ mark :: after).reverse = after.reverse ++ mark :: before.reverse := by
    simp
  rw [splitLast, hrev, splitFirst_append (by simpa using h), Option.map_some]
  dsimp only
  rw [List.reverse_reverse, List.reverse_reverse]

theorem splitLast_eq_some (h : splitLast mark cs = some (before, after)) :
    cs = before ++ mark :: after ∧ mark ∉ after := by
  by_cases hm : mark ∈ cs.reverse
  · obtain ⟨l, r, hr, hl⟩ := List.eq_append_cons_of_mem hm
    obtain rfl : cs = r.reverse ++ mark :: l.reverse := by
      simpa using congrArg List.reverse hr
    have hl' : mark ∉ l.reverse := by simpa using hl
    rw [splitLast_append _ hl'] at h
    cases h
    exact ⟨rfl, hl'⟩
  · rw [splitLast_of_notMem (by simpa using hm)] at h
    cases h

end StylePack.Text
