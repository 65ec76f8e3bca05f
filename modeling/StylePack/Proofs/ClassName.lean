import Mathlib.Data.List.Basic
import Mathlib.Data.List.TakeWhile
import Mathlib.Tactic.SplitIfs
import StylePack.Proofs.OrderedMap.Collapse
import StylePack.Proofs.Text.Cut
import StylePack.Proofs.Text.Trimmed

/-! Class names and the selector lists that they stand in. A class name has no other characters
than letters, digits, hyphens and underscores (`IsClass`). To cut a selector list at its commas and
to trim the pieces neither hides a name nor makes one (`inSelector_eq`). So the names are those of
the parts of the text between characters that no name holds, and an attribute in brackets adds what
names stand in it (`inSelector_attribute_iff`). -/
namespace StylePack.ClassName
open Text
variable {name : String} {c : Char} {cs : List Char}

/-- What holds of the characters of class names, of which there are few. -/
theorem forall_isPart {p : Char → Bool}
    (hall : (List.range 128).all (fun n => !isPart (Char.ofNat n) || p (Char.ofNat n)) = true)
    (h : isPart c = true) : p c = true := by
  have hlt : c.toNat < 128 := by
    simp only [isPart, Bool.or_eq_true, Bool.and_eq_true, decide_eq_true_eq, Char.le_def,
      UInt32.le_iff_toNat_le, beq_iff_eq] at h
    rcases h with (((⟨-, h⟩ | ⟨-, h⟩) | ⟨-, h⟩) | rfl) | rfl
    · exact Nat.lt_of_le_of_lt h (by decide)
    · exact Nat.lt_of_le_of_lt h (by decide)
    · exact Nat.lt_of_le_of_lt h (by decide)
    · decide
    · decide
  have hc := List.all_eq_true.mp hall c.toNat (List.mem_range.mpr hlt)
  rw [Char.ofNat_toNat, h] at hc
  exact hc

theorem isBlank_eq_false (h : isPart c = true) : isBlank c = false := by
  have hblank := forall_isPart (p := fun c => !isBlank c) (by decide +kernel) h
  exact Bool.not_eq_true' _ |>.mp hblank

/-- A name made of the characters of class names. -/
structure IsClass (name : String) : Prop where
  ne_nil : name.toList ≠ []
  isPart : ∀ c ∈ name.toList, isPart c = true

instance (name : String) : Decidable (IsClass name) :=
  decidable_of_iff (name.toList ≠ [] ∧ name.toList.all ClassName.isPart = true)
    ⟨fun h => ⟨h.1, List.all_eq_true.mp h.2⟩, fun h => ⟨h.ne_nil, List.all_eq_true.mpr h.isPart⟩⟩

namespace IsClass

theorem notMem (h : IsClass name) (hc : ClassName.isPart c = false) : c ∉ name.toList := by
  intro hm
  rw [h.isPart c hm] at hc
  cases hc

theorem not_blank (h : IsClass name) : ∀ c ∈ name.toList, isBlank c = false :=
  fun c hc => isBlank_eq_false (h.isPart c hc)

theorem wordsOf_eq (h : IsClass name) : wordsOf name = [name] := by
  rw [wordsOf, words_of_forall h.ne_nil h.not_blank, List.map_singleton, String.ofList_toList]

end IsClass

section
variable {names : List String}

theorem toList_intercalate_cons (a : String) (names : List String) :
    (" ".intercalate (a :: names)).toList = a.toList ++ names.flatMap (' ' :: ·.toList) := by
  induction names generalizing a with
  | nil => simp
  | cons b names ih =>
    rw [String.intercalate_cons_cons, String.toList_append, String.toList_append, ih,
      List.flatMap_cons, List.append_assoc]
    rfl

/-- Names with spaces between them are the words of the text. -/
theorem wordsOf_intercalate (h : ∀ name ∈ names, IsClass name) :
    wordsOf (" ".intercalate names) = names := by
  induction names with
  | nil => rfl
  | cons a names ih =>
    have ha := h a List.mem_cons_self
    have hrest := ih fun name hname => h name (List.mem_cons_of_mem a hname)
    cases names with
    | nil => exact ha.wordsOf_eq
    | cons b names =>
      rw [wordsOf, toList_intercalate_cons, List.flatMap_cons, List.cons_append,
        ← toList_intercalate_cons, words_append_cons (by rfl), List.map_append, ← wordsOf,
        ← wordsOf, ha.wordsOf_eq, hrest]
      rfl

theorem trim_intercalate (h : ∀ name ∈ names, IsClass name) :
    trim (" ".intercalate names).toList = (" ".intercalate names).toList := by
  cases names with
  | nil => rfl
  | cons a names =>
    have ha := h a List.mem_cons_self
    rw [toList_intercalate_cons]
    refine trim_eq_self (fun c hc => ha.not_blank c ?_) fun c hc => ?_
    · rw [List.head?_append_of_ne_nil _ ha.ne_nil] at hc
      exact List.mem_of_mem_head? hc
    · rcases List.eq_nil_or_concat names with rfl | ⟨init, b, rfl⟩
      · rw [List.flatMap_nil, List.append_nil] at hc
        exact ha.not_blank c (List.mem_of_getLast? hc)
      · have hb := h b (by simp)
        rw [List.concat_eq_append, List.flatMap_append, List.flatMap_singleton,
          ← List.append_assoc, ← List.singleton_append, ← List.append_assoc,
          List.getLast?_append_of_ne_nil _ hb.ne_nil] at hc
        exact hb.not_blank c (List.mem_of_getLast? hc)

/-- Spaces before each name leave, once trimmed, the spaces between them. -/
theorem trim_flatMap_space (h : ∀ name ∈ names, IsClass name) :
    trim (names.flatMap (' ' :: ·.toList)) = (" ".intercalate names).toList := by
  cases names with
  | nil => rfl
  | cons a names =>
    rw [List.flatMap_cons, List.cons_append, trim_cons_blank (by rfl), ← toList_intercalate_cons,
      trim_intercalate h]

end

theorem isClass_of_mem_dotted {piece : List Char} (h : piece ∈ dotted cs) :
    IsClass (String.ofList piece) := by
  induction cs with
  | nil => exact absurd h List.not_mem_nil
  | cons c cs ih =>
    rw [dotted] at h
    split_ifs at h with hpoint
    · rcases List.mem_cons.mp h with rfl | h
      · refine ⟨by rw [String.toList_ofList]; exact hpoint.2, fun c hc => ?_⟩
        rw [String.toList_ofList] at hc
        exact List.mem_takeWhile_imp hc
      · exact ih h
    · exact ih h

theorem isClass_of_mem_inSelector {selector : String} (h : name ∈ inSelector selector) :
    IsClass name := by
  rw [inSelector, mem_firstSeen] at h
  obtain ⟨piece, hpiece, rfl⟩ := List.mem_map.mp h
  obtain ⟨branch, -, hbranch⟩ := List.mem_flatMap.mp hpiece
  exact isClass_of_mem_dotted hbranch

/-- A name ends where a character stands that no name holds. -/
theorem dotted_append_cons (hc : isPart c = false) (cs ds : List Char) :
    dotted (cs ++ c :: ds) = dotted cs ++ dotted (c :: ds) := by
  have hstop : (c :: ds).takeWhile isPart = [] := List.takeWhile_cons_of_neg (by simp [hc])
  have htake : ∀ r : List Char, (r ++ c :: ds).takeWhile isPart = r.takeWhile isPart := by
    intro r
    rw [List.takeWhile_append, hstop, List.append_nil]
    split_ifs with hall
    · exact (List.takeWhile_prefix isPart).eq_of_length hall |>.symm
    · rfl
  induction cs with
  | nil => rfl
  | cons b cs ih =>
    rw [List.cons_append, dotted, dotted, htake, ih]
    split_ifs <;> rfl

theorem dotted_cons (hc : c ≠ '.') (cs : List Char) : dotted (c :: cs) = dotted cs := by
  rw [dotted, if_neg fun h => hc h.1]

/-- A character other than a point, which no name holds, separates what stands on its sides. -/
theorem dotted_separated (hpart : isPart c = false) (hpoint : c ≠ '.') (cs ds : List Char) :
    dotted (cs ++ c :: ds) = dotted cs ++ dotted ds := by
  rw [dotted_append_cons hpart, dotted_cons hpoint]

theorem isPart_of_isBlank (h : isBlank c = true) : isPart c = false := by
  refine Bool.eq_false_iff.mpr fun hpart => ?_
  rw [isBlank_eq_false hpart] at h
  cases h

theorem ne_point_of_isBlank (h : isBlank c = true) : c ≠ '.' := by
  rintro rfl
  exact absurd h (by decide)

/-- No name is lost at the ends of a text that is trimmed. -/
theorem dotted_trim (cs : List Char) : dotted (trim cs) = dotted cs := by
  have hstart : ∀ cs, dotted (trimStart cs) = dotted cs := by
    intro cs
    induction cs with
    | nil => rfl
    | cons c cs ih =>
      by_cases hc : isBlank c = true
      · rw [trimStart, List.dropWhile_cons_of_pos hc, dotted_cons (ne_point_of_isBlank hc)]
        exact ih
      · rw [trimStart, List.dropWhile_cons_of_neg hc]
  have hend : ∀ cs, dotted (trimEnd cs) = dotted cs := by
    intro cs
    induction cs using List.reverseRecOn with
    | nil => rfl
    | append_singleton cs c ih =>
      by_cases hc : isBlank c = true
      · rw [trimEnd_append_blank hc, ih, dotted_separated (isPart_of_isBlank hc)
          (ne_point_of_isBlank hc), dotted_nil, List.append_nil]
      · rw [trimEnd_eq_self (by simpa using hc)]
  rw [trim, hend, hstart]

/-- No name goes over a comma. -/
theorem flatMap_dotted_splitWhere (cs : List Char) :
    (splitWhere (· == ',') cs).flatMap dotted = dotted cs := by
  have hone : ∀ piece : List Char, ',' ∉ piece →
      (splitWhere (· == ',') piece).flatMap dotted = dotted piece := by
    intro piece hpiece
    rw [splitWhere_of_forall, List.flatMap_singleton]
    exact fun c hc => beq_eq_false_iff_ne.mpr fun he => hpiece (he ▸ hc)
  induction hn : cs.length using Nat.strong_induction_on generalizing cs with
  | _ n ih =>
    by_cases hcomma : ',' ∈ cs
    · obtain ⟨before, after, rfl, hbefore⟩ := List.eq_append_cons_of_mem hcomma
      have hlt : after.length < n := by
        rw [← hn, List.length_append, List.length_cons]
        omega
      rw [splitWhere_append_cons (by rfl), List.flatMap_append, hone before hbefore,
        ih _ hlt after rfl, dotted_separated isPart_comma (by decide)]
    · exact hone cs hcomma

theorem flatMap_dotted_branches (cs : List Char) : (branches cs).flatMap dotted = dotted cs := by
  have hfilter : ∀ pieces : List (List Char),
      (pieces.filter (!·.isEmpty)).flatMap dotted = pieces.flatMap dotted := by
    intro pieces
    induction pieces with
    | nil => rfl
    | cons piece pieces ih =>
      cases piece with
      | nil => exact ih
      | cons c piece => exact congrArg (dotted (c :: piece) ++ ·) ih
  rw [branches, hfilter, List.flatMap_map]
  simp only [dotted_trim]
  exact flatMap_dotted_splitWhere cs

/-- The class names of a selector list are those of its text as a whole. -/
theorem inSelector_eq (selector : String) :
    inSelector selector = firstSeen ((dotted selector.toList).map String.ofList) := by
  rw [inSelector, flatMap_dotted_branches]

section
variable {α : Type} [DecidableEq α] {xs ys zs : List α}

theorem firstSeen_append_left (xs ys : List α) :
    firstSeen (firstSeen xs ++ ys) = firstSeen (xs ++ ys) := by
  rw [firstSeen_append, firstSeen_append, firstSeen_firstSeen]
  simp only [mem_firstSeen]

theorem firstSeen_append_right (xs ys : List α) :
    firstSeen (xs ++ firstSeen ys) = firstSeen (xs ++ ys) := by
  rw [firstSeen_append, firstSeen_append, firstSeen_firstSeen]

/-- What is new in the middle of a list is not noticed just if it begins what is new after it. -/
theorem firstSeen_middle_iff (hys : ys.Nodup) (hzs : zs.Nodup) :
    firstSeen (xs ++ ys ++ zs) = firstSeen (xs ++ zs) ↔
      ys.filter (· ∉ xs) <+: zs.filter (· ∉ xs) := by
  have hnew : zs.filter (· ∉ xs ++ ys) = (zs.filter (· ∉ xs)).filter (· ∉ ys.filter (· ∉ xs)) := by
    rw [List.filter_filter]
    refine List.filter_congr fun z _ => ?_
    by_cases hz : z ∈ xs <;> simp [hz]
  rw [firstSeen_append, firstSeen_append, firstSeen_append, firstSeen_of_nodup hys,
    firstSeen_of_nodup hzs, List.append_assoc, List.append_cancel_left_eq, hnew]
  generalize ys.filter (· ∉ xs) = new
  have hnodup : (zs.filter (· ∉ xs)).Nodup := hzs.filter _
  constructor
  · exact fun h => ⟨_, h⟩
  · rintro ⟨rest, hrest⟩
    rw [← hrest] at hnodup ⊢
    obtain ⟨-, -, hdisjoint⟩ := List.nodup_append.mp hnodup
    rw [List.filter_append, List.filter_eq_nil_iff.mpr (by simp), List.nil_append,
      List.filter_eq_self.mpr fun z hz => ?_]
    exact decide_eq_true fun hmem => hdisjoint z hmem z hz rfl

end

theorem nodup_inSelector (selector : String) : (inSelector selector).Nodup := nodup_firstSeen _

/-- Two selectors with a character between them that neither belongs to a name nor begins one. -/
theorem inSelector_separated {separator : String} (hseparator : separator.toList = [c])
    (hpart : isPart c = false) (hpoint : c ≠ '.') (s t : String) :
    inSelector (s ++ separator ++ t) = firstSeen (inSelector s ++ inSelector t) := by
  have htext : (s ++ separator ++ t).toList = s.toList ++ c :: t.toList := by
    rw [String.toList_append, String.toList_append, hseparator, List.append_assoc]
    rfl
  rw [inSelector_eq, htext, dotted_separated hpart hpoint, List.map_append, inSelector_eq,
    inSelector_eq, firstSeen_append_left, firstSeen_append_right]

theorem inSelector_attribute (a t b : String) : inSelector (a ++ "[" ++ t ++ "]" ++ b) =
    firstSeen (inSelector a ++ inSelector t ++ inSelector b) := by
  rw [inSelector_separated (c := ']') rfl (by decide) (by decide),
    inSelector_separated (c := '[') rfl (by decide) (by decide), firstSeen_append_left]

/-- An attribute in brackets gives no class names of its own just if the names in it, other than
those before it, are the first new ones after it. So it is around every attribute just if no name
follows a point in it. -/
theorem inSelector_attribute_iff (t : String) :
    (∀ a b, inSelector (a ++ "[" ++ t ++ "]" ++ b) = firstSeen (inSelector a ++ inSelector b) ↔
      (inSelector t).filter (· ∉ inSelector a) <+: (inSelector b).filter (· ∉ inSelector a)) ∧
    ((∀ a b, inSelector (a ++ "[" ++ t ++ "]" ++ b) = firstSeen (inSelector a ++ inSelector b)) ↔
      inSelector t = []) := by
  have hiff : ∀ a b, inSelector (a ++ "[" ++ t ++ "]" ++ b) =
      firstSeen (inSelector a ++ inSelector b) ↔
        (inSelector t).filter (· ∉ inSelector a) <+: (inSelector b).filter (· ∉ inSelector a) := by
    intro a b
    rw [inSelector_attribute]
    exact firstSeen_middle_iff (nodup_inSelector t) (nodup_inSelector b)
  refine ⟨hiff, fun hall => ?_, fun hnone a b => (hiff a b).mpr ?_⟩
  · have hprefix := (hiff "" "").mp (hall "" "")
    have hempty : inSelector "" = [] := rfl
    rw [hempty, List.filter_nil, List.prefix_nil] at hprefix
    simpa using hprefix
  · rw [hnone]
    exact List.nil_prefix

/-- The ending of a file's name in an attribute is taken for a class. -/
theorem attribute_gives_class :
    inSelector ("a" ++ "[" ++ "href$=\".pdf\"" ++ "]" ++ ".link") = ["pdf", "link"] ∧
      firstSeen (inSelector "a" ++ inSelector ".link") = ["link"] := by
  decide

end StylePack.ClassName
