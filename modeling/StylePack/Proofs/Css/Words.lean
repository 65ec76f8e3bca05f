import StylePack.Proofs.ClassName
import StylePack.Proofs.Css.Plain

/-! Words: texts of letters, digits, hyphens and underscores. A word may be cut into names, numbers
and single characters, but none of its tokens goes on into what follows it (`first_word`), where
that is white space, a comment or what ends an at-rule. -/
namespace StylePack.Css.Token
open ClassName (isPart forall_isPart)
variable {c : Char} {r w rest : List Char} {scan next : List Char → Nat}

def IsWord (w : List Char) : Prop := ∀ c ∈ w, isPart c = true

/-- The characters with which what separates words or ends an at-rule begins. -/
def breaks : List Char := [' ', '\t', '\n', '\r', '\x0C', '/', ';', '\x7b', '\x7d']

/-- What may follow a word. -/
def Break (rest : List Char) : Prop := ∀ c ∈ rest.head?, c ∈ breaks

theorem Break.head {p : Char → Bool} (hrest : Break rest) (hall : breaks.all p = true) :
    ∀ c ∈ rest.head?, p c = true :=
  fun c hc => List.all_eq_true.mp hall c (hrest c hc)

theorem Break.head_eq_false {p : Char → Bool} (hrest : Break rest)
    (hall : breaks.all (fun c => !p c) = true) : ∀ c ∈ rest.head?, p c = false :=
  fun c hc => (Bool.not_eq_true' (p c)).mp (hrest.head hall c hc)

theorem Break.ends (hrest : Break rest) : Ends rest := fun c hc =>
  ⟨hrest.head_eq_false (p := isNamePart) (by decide) c hc,
    beq_eq_false_iff_ne.mp (hrest.head_eq_false (p := (· == '\\')) (by decide) c hc)⟩

namespace IsWord

theorem drop (hw : IsWord w) (n : Nat) : IsWord (w.drop n) :=
  fun c hc => hw c (List.mem_of_mem_drop hc)

theorem notMem (hw : IsWord w) (hc : isPart c = false) : c ∉ w := by
  intro hm
  rw [hw c hm] at hc
  cases hc

/-- What neither belongs to words nor may follow one does not stand at the front of either. -/
theorem head_ne (hw : IsWord w) (hrest : Break rest) (hpart : isPart c = false)
    (hbreak : c ∉ breaks) : (w ++ rest).head? ≠ some c := by
  intro hc
  cases w with
  | nil => exact hbreak (hrest c hc)
  | cons d w =>
    cases hc
    exact hw.notMem hpart List.mem_cons_self

end IsWord

/-- A scanner takes nothing of what follows a word. -/
structure Stays (scan : List Char → Nat) : Prop where
  le : ∀ {w rest}, IsWord w → Break rest → scan (w ++ rest) ≤ w.length

/-- One scanner after another. -/
theorem Stays.seq (h : Stays scan) (h' : Stays next) :
    Stays fun cs => scan cs + next (cs.drop (scan cs)) where
  le {w rest} hw hrest := by
    have hle := h.le hw hrest
    have hle' := h'.le (hw.drop (scan (w ++ rest))) hrest
    rw [List.length_drop] at hle'
    rw [List.drop_append_of_le_length hle]
    omega

theorem stays_name : Stays (nameLength 0) := by
  refine ⟨fun {w rest} hw hrest => ?_⟩
  rw [nameLength_ends (hw.notMem (by decide)) hrest.ends]
  exact (List.takeWhile_prefix _).length_le

theorem stays_digits : Stays digitsLength := by
  refine ⟨fun {w rest} hw hrest => ?_⟩
  rw [digitsLength, takeWhile_ends (hrest.head_eq_false (by decide))]
  exact (List.takeWhile_prefix _).length_le

theorem stays_sign : Stays signLength := by
  refine ⟨fun {w rest} hw hrest => ?_⟩
  cases w with
  | nil =>
    cases rest with
    | nil => exact Nat.le_refl 0
    | cons c rest =>
      have hc := hrest.head_eq_false (p := fun c => c == '+' || c == '-') (by decide) c rfl
      rw [List.nil_append, signLength, hc]
      exact Nat.le_refl 0
  | cons c w =>
    rw [List.cons_append, signLength, List.length_cons]
    split <;> omega

theorem stays_fraction : Stays fractionLength := by
  refine ⟨fun {w rest} hw hrest => ?_⟩
  have hpoint := hw.head_ne hrest (c := '.') (by decide) (by decide)
  unfold fractionLength
  split
  · next h =>
    rw [h] at hpoint
    exact absurd rfl hpoint
  · exact Nat.zero_le _

theorem stays_exponent : Stays exponentLength := by
  refine ⟨fun {w rest} hw hrest => ?_⟩
  cases w with
  | nil =>
    cases rest with
    | nil => exact Nat.le_refl 0
    | cons c rest =>
      have hc := hrest.head_eq_false (p := fun c => c == 'e' || c == 'E') (by decide) c rfl
      rw [List.nil_append, exponentLength, hc]
      exact Nat.le_refl 0
  | cons c w =>
    have hle := (stays_sign.seq stays_digits).le (hw.drop 1) hrest
    rw [List.drop_one, List.tail_cons] at hle
    rw [List.cons_append, exponentLength, List.length_cons]
    split <;> omega

theorem stays_unit : Stays unitLength := by
  refine ⟨fun {w rest} hw hrest => ?_⟩
  have hpercent := hw.head_ne hrest (c := '%') (by decide) (by decide)
  unfold unitLength
  split
  · next h =>
    rw [h] at hpercent
    exact absurd rfl hpercent
  · split
    · exact stays_name.le hw hrest
    · exact Nat.zero_le _

theorem stays_number : Stays numberLength :=
  (((stays_sign.seq stays_digits).seq stays_fraction).seq stays_exponent).seq stays_unit

theorem nameLike_word (hw : IsWord (c :: r)) (hrest : Break rest) :
    ∃ n ≤ r.length, nameLike c (r ++ rest) = (.other, n) := by
  have hle := stays_name.le hw hrest
  rw [List.cons_append, List.length_cons] at hle
  have hn : nameLength 0 (c :: (r ++ rest)) - 1 ≤ r.length := by omega
  refine ⟨_, hn, ?_⟩
  have hround := (hw.drop (nameLength 0 (c :: (r ++ rest)) - 1 + 1)).head_ne hrest (c := '(')
    (by decide) (by decide)
  unfold nameLike
  dsimp only
  split
  · next h =>
    rw [List.drop_append_of_le_length hn] at h
    rw [List.drop_succ_cons, h] at hround
    exact absurd rfl hround
  · rfl

theorem closesMark_word (hw : IsWord w) (hrest : Break rest) : closesMark (w ++ rest) = false := by
  rw [closesMark, beq_eq_false_iff_ne]
  intro h
  cases w with
  | nil =>
    cases rest with
    | nil => cases h
    | cons c rest =>
      obtain ⟨rfl, -⟩ := List.cons.inj h
      exact absurd (hrest _ rfl) (by decide)
  | cons c w =>
    have hsecond := (hw.drop 1).head_ne hrest (c := '>') (by decide) (by decide)
    rw [List.drop_one, List.tail_cons] at hsecond
    obtain ⟨-, h⟩ := List.cons.inj h
    cases hcs : w ++ rest with
    | nil =>
      rw [List.append_eq, hcs] at h
      cases h
    | cons d cs =>
      rw [List.append_eq, hcs] at h
      obtain ⟨rfl, -⟩ := List.cons.inj h
      rw [hcs] at hsecond
      exact hsecond rfl

/-- The token at the front of a word takes no more than the word. -/
theorem first_word (hw : IsWord (c :: r)) (hrest : Break rest) :
    ∃ n ≤ r.length, first c (r ++ rest) = (.other, n) := by
  have hnumber := stays_number.le hw hrest
  rw [List.cons_append, List.length_cons] at hnumber
  have hpart := hw c List.mem_cons_self
  by_cases hc : c = '-'
  · subst hc
    have heq : first '-' (r ++ rest) =
        if startsNumber ('-' :: (r ++ rest)) then (.other, numberLength ('-' :: (r ++ rest)) - 1)
        else if closesMark (r ++ rest) then (.mark, 2)
        else if startsName ('-' :: (r ++ rest)) then nameLike '-' (r ++ rest)
        else (.other, 0) := rfl
    have hmark : closesMark (r ++ rest) = false := closesMark_word (hw.drop 1) hrest
    rw [heq, hmark, if_neg Bool.false_ne_true]
    split_ifs
    · exact ⟨_, by omega, rfl⟩
    · exact nameLike_word hw hrest
    · exact ⟨0, Nat.zero_le _, rfl⟩
  · have hm : c ∉ marks := by
      have hall := forall_isPart (p := fun c => !marks.contains c || c == '-') (by decide +kernel)
        hpart
      simpa [hc] using hall
    have hspace : isSpace c = false := by
      have hall := forall_isPart (p := fun c => !isSpace c) (by decide +kernel) hpart
      exact (Bool.not_eq_true' _).mp hall
    rw [first_of_notMem hm, hspace, if_neg Bool.false_ne_true]
    split_ifs
    · exact ⟨_, by omega, rfl⟩
    · exact nameLike_word hw hrest
    · exact ⟨0, Nat.zero_le _, rfl⟩

end StylePack.Css.Token
