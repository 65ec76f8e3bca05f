import StylePack.Css.Declaration
import StylePack.Proofs.Text.Trimmed

/-! Declarations are read back from their text. -/
namespace StylePack.Css.Declaration
open Text

/-- A value is kept as it is if what stands behind its last `!` says something else. -/
theorem splitImportance_eq_self {value : List Char} (h : ∀ before after : List Char,
    value = before ++ '!' :: after → '!' ∉ after →
      sameLetters (trim after) "important".toList = false) :
    splitImportance value = (value, false) := by
  unfold splitImportance
  split
  · next before after hsplit =>
    obtain ⟨hvalue, hmark⟩ := splitLast_eq_some hsplit
    rw [h before after hvalue hmark, if_neg Bool.false_ne_true]
  · rfl

theorem splitImportance_of_notMem {value : List Char} (h : '!' ∉ value) :
    splitImportance value = (value, false) := by
  refine splitImportance_eq_self fun before after hvalue _ => ?_
  rw [hvalue] at h
  exact absurd (List.mem_append_right before List.mem_cons_self) h

/-- The last `!` of a value is the one in front of `important`. -/
theorem splitImportance_important (before : List Char) :
    splitImportance (before ++ "!important".toList) = (trimEnd before, true) := by
  have hmark : before ++ "!important".toList = before ++ '!' :: "important".toList := rfl
  rw [hmark, splitImportance, splitLast_append before (by decide)]
  rfl

/-- A text is read as a declaration if its property is one word. -/
theorem ofText?_append {property : List Char} (hne : property ≠ [])
    (hword : ∀ c ∈ property, isBlank c = false ∧ c ≠ ':') (value : List Char) :
    ofText? (property ++ ':' :: value) = some ⟨String.ofList property,
      String.ofList (splitImportance (trim value)).1, (splitImportance (trim value)).2⟩ := by
  have hcolon : ':' ∉ property := fun h => (hword ':' h).2 rfl
  have htrim : trim property = property := by
    refine trim_eq_self (fun c hc => ?_) (fun c hc => ?_)
    · exact (hword c (List.mem_of_mem_head? hc)).1
    · exact (hword c (List.mem_of_getLast? hc)).1
  have hany : property.any isBlank = false := by
    rw [List.any_eq_false]
    intro c hc
    rw [(hword c hc).1]
    exact Bool.false_ne_true
  have hempty : property.isEmpty = false := by
    rw [List.isEmpty_eq_false_iff]
    exact hne
  rw [ofText?, splitFirst_append hcolon]
  dsimp only
  rw [htrim, hany, hempty]
  rfl

/-- What a text holds that is read as a declaration. -/
theorem ofText?_eq_some {text : List Char} {d : Declaration} (h : ofText? text = some d) :
    ∃ property value, splitFirst ':' text = some (property, value) ∧ trim property ≠ [] ∧
      (∀ c ∈ trim property, isBlank c = false) ∧ d = ⟨String.ofList (trim property),
        String.ofList (splitImportance (trim value)).1, (splitImportance (trim value)).2⟩ := by
  unfold ofText? at h
  split at h
  · cases h
  · next property value hsplit =>
    split at h
    · cases h
    · next hword =>
      rw [Bool.or_eq_true, not_or, List.any_eq_true, List.isEmpty_iff] at hword
      refine ⟨property, value, hsplit, hword.1, fun c hc => ?_, (Option.some.inj h).symm⟩
      exact Bool.eq_false_iff.mpr fun hb => hword.2 ⟨c, hc, hb⟩

/-- The value and the flag of a declaration, from what stands after its colon. -/
theorem splitImportance_trim {value : List Char} {important : Bool} (hvalue : trim value = value)
    (hkept : important = false → splitImportance value = (value, false)) :
    splitImportance (trim (' ' :: (value ++ if important then " !important".toList else []))) =
      (value, important) := by
  rw [trim_cons_blank (by decide)]
  cases important with
  | false =>
    rw [if_neg Bool.false_ne_true, List.append_nil, hvalue, hkept rfl]
  | true =>
    have hsplit : value ++ " !important".toList = value ++ [' '] ++ "!important".toList := by
      rw [List.append_assoc]
      rfl
    rw [if_pos rfl, hsplit]
    cases value with
    | nil =>
      rw [List.nil_append, List.singleton_append, trim_cons_blank (by decide)]
      decide
    | cons c value =>
      have hhead : isBlank c = false := by
        refine Bool.eq_false_iff.mpr fun hc => ?_
        have hlength := congrArg List.length hvalue
        rw [trim_cons_blank hc, List.length_cons] at hlength
        have := (trim_isInfix value).length_le
        omega
      have htrim : trim (c :: value ++ [' '] ++ "!important".toList) =
          c :: value ++ [' '] ++ "!important".toList := by
        refine trim_eq_self (fun x hx => ?_) (fun x hx => ?_)
        · obtain rfl : c = x := by simpa using hx
          exact hhead
        · have hlast : "!important".toList.getLast? = some 't' := by decide
          rw [List.getLast?_append, hlast, Option.some_or] at hx
          obtain rfl : 't' = x := by simpa using hx
          decide
      have hend : trimEnd (c :: value ++ [' ']) = c :: value := by
        rw [trimEnd_append_blank (by decide)]
        have hstart : trimStart (c :: value) = c :: value :=
          List.dropWhile_cons_of_neg (by simp [hhead])
        rwa [trim, hstart] at hvalue
      rw [htrim, splitImportance_important, hend]

theorem toList_text (d : Declaration) : d.text.toList = d.property.toList ++ ':' ::
    (' ' :: (d.value.toList ++ if d.important then " !important".toList else [])) := by
  unfold text
  rw [String.toList_append, String.toList_append, String.toList_append, List.append_assoc,
    List.append_assoc]
  split <;> rfl

theorem ofText?_text {d : Declaration} (hne : d.property.toList ≠ [])
    (hword : ∀ c ∈ d.property.toList, isBlank c = false ∧ c ≠ ':')
    (hvalue : trim d.value.toList = d.value.toList)
    (hkept : d.important = false → splitImportance d.value.toList = (d.value.toList, false)) :
    ofText? d.text.toList = some d := by
  rw [toList_text, ofText?_append hne hword, splitImportance_trim hvalue hkept,
    String.ofList_toList, String.ofList_toList]

end StylePack.Css.Declaration
