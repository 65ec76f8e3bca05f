import Mathlib.Data.List.TakeWhile
import StylePack.Css.Token.Number

/-! What a scanner takes of a text that a block or a semicolon may follow: it takes the same
whatever follows, it stays within the text, and no round bracket is among what it takes. -/
namespace StylePack.Css.Token
variable {cs rest : List Char}

/-- What may stand after a prelude, a value or parameters. -/
inductive Stop : List Char → Prop
  | nil : Stop []
  | block (rest : List Char) : Stop ('\x7b' :: rest)
  | semicolon (rest : List Char) : Stop (';' :: rest)

/-- No round bracket stands in the text. -/
def NoRound (cs : List Char) : Prop := ∀ c ∈ cs, c ≠ '(' ∧ c ≠ ')'

instance (cs : List Char) : Decidable (NoRound cs) := List.decidableBAll _ cs

theorem NoRound.nil : NoRound [] := fun _ h => absurd h List.not_mem_nil

theorem NoRound.cons {c : Char} (hc : c ≠ '(' ∧ c ≠ ')') (h : NoRound cs) : NoRound (c :: cs) := by
  intro x hx
  rcases List.mem_cons.mp hx with rfl | hx
  · exact hc
  · exact h x hx

theorem NoRound.append {ds : List Char} (h : NoRound cs) (h' : NoRound ds) :
    NoRound (cs ++ ds) := by
  intro x hx
  rcases List.mem_append.mp hx with hx | hx
  · exact h x hx
  · exact h' x hx

/-- A scanner reads the front of `cs` on its own. -/
structure Reads (scan : List Char → Nat) (cs : List Char) : Prop where
  le : scan cs ≤ cs.length
  stop : ∀ rest, Stop rest → scan (cs ++ rest) = scan cs
  noRound : NoRound (cs.take (scan cs))

/-- One scanner after another. -/
theorem Reads.seq {scan next : List Char → Nat} (h : Reads scan cs)
    (h' : Reads next (cs.drop (scan cs))) :
    Reads (fun cs => scan cs + next (cs.drop (scan cs))) cs where
  le := by
    have hle := h.le
    have hle' := h'.le
    rw [List.length_drop] at hle'
    omega
  stop rest hr := by
    rw [h.stop rest hr, List.drop_append_of_le_length h.le, h'.stop rest hr]
  noRound := by
    rw [List.take_add]
    exact h.noRound.append h'.noRound

theorem takeWhile_ends {p : Char → Bool} (h : ∀ c ∈ rest.head?, p c = false) :
    (cs ++ rest).takeWhile p = cs.takeWhile p := by
  induction cs with
  | nil =>
    cases rest with
    | nil => rfl
    | cons c rest => exact List.takeWhile_cons_of_neg (by simp [h c rfl])
  | cons c cs ih => rw [List.cons_append, List.takeWhile_cons, List.takeWhile_cons, ih]

theorem Stop.head_eq_false {p : Char → Bool} (hr : Stop rest) (hb : p '\x7b' = false)
    (hs : p ';' = false) : ∀ c ∈ rest.head?, p c = false := by
  cases hr <;> simp [hb, hs]

/-- A scanner that takes characters as long as they have a property. -/
theorem reads_takeWhile {p : Char → Bool} (hb : p '\x7b' = false) (hs : p ';' = false)
    (ho : p '(' = false) (hc : p ')' = false) :
    Reads (fun cs => (cs.takeWhile p).length) cs where
  le := (List.takeWhile_prefix p).length_le
  stop rest hr := by rw [takeWhile_ends (hr.head_eq_false hb hs)]
  noRound := by
    intro x hx
    have hx : x ∈ cs.takeWhile p := by
      rwa [← List.prefix_iff_eq_take.mp (List.takeWhile_prefix p)] at hx
    have hp := List.mem_takeWhile_imp hx
    constructor
    · rintro rfl
      simp [ho] at hp
    · rintro rfl
      simp [hc] at hp

/-- What no name goes on into. -/
def Ends (rest : List Char) : Prop := ∀ c ∈ rest.head?, isNamePart c = false ∧ c ≠ '\\'

theorem Stop.ends (hr : Stop rest) : Ends rest := by
  intro c hc
  have hpart := hr.head_eq_false (p := isNamePart) (by decide) (by decide) c hc
  have hslash := hr.head_eq_false (p := (· == '\\')) (by decide) (by decide) c hc
  exact ⟨hpart, beq_eq_false_iff_ne.mp hslash⟩

theorem nameLength_ends (h : '\\' ∉ cs) (hr : Ends rest) :
    nameLength 0 (cs ++ rest) = (cs.takeWhile isNamePart).length := by
  induction cs with
  | nil =>
    cases rest with
    | nil => rfl
    | cons c rest => simp [nameLength, hr c rfl]
  | cons c cs ih =>
    rw [List.mem_cons, not_or] at h
    have hc : (c == '\\') = false := beq_eq_false_iff_ne.mpr (Ne.symm h.1)
    rw [List.cons_append, nameLength, List.takeWhile_cons, ih h.2, hc]
    by_cases hp : isNamePart c <;> simp [hp]

theorem reads_name (h : '\\' ∉ cs) : Reads (nameLength 0) cs := by
  have heq : nameLength 0 cs = (cs.takeWhile isNamePart).length := by
    rw [← nameLength_ends h Stop.nil.ends, List.append_nil]
  have hreads : Reads (fun cs => (cs.takeWhile isNamePart).length) cs :=
    reads_takeWhile (by decide) (by decide) (by decide) (by decide)
  refine ⟨?_, fun rest hr => ?_, ?_⟩
  · rw [heq]
    exact hreads.le
  · rw [nameLength_ends h hr.ends, heq]
  · rw [heq]
    exact hreads.noRound

theorem nameValue_ends (h : '\\' ∉ cs) (h0 : '\x00' ∉ cs) (hr : Ends rest) :
    nameValue 0 (cs ++ rest) = cs.takeWhile isNamePart := by
  induction cs with
  | nil =>
    cases rest with
    | nil => rfl
    | cons c rest => simp [nameValue, hr c rfl]
  | cons c cs ih =>
    rw [List.mem_cons, not_or] at h h0
    have hc : (c == '\\') = false := beq_eq_false_iff_ne.mpr (Ne.symm h.1)
    have hc0 : (c == '\x00') = false := beq_eq_false_iff_ne.mpr (Ne.symm h0.1)
    rw [List.cons_append, nameValue, List.takeWhile_cons, ih h.2 h0.2, hc, hc0]
    by_cases hp : isNamePart c <;> simp [hp]

theorem startsName_cons {c : Char} (hd : c ≠ '-') (hb : c ≠ '\\') (cs : List Char) :
    startsName (c :: cs) = isNameStart c := by
  unfold startsName
  split
  · next h => exact absurd h (List.cons_ne_nil _ _)
  · next h => exact absurd (List.cons.inj h).1 hd
  · next h =>
    obtain ⟨rfl, rfl⟩ := List.cons.inj h
    simp [hb]

theorem startsName_stop (h : '\\' ∉ cs) (hr : Stop rest) :
    startsName (cs ++ rest) = startsName cs := by
  match cs with
  | [] => cases hr <;> rfl
  | c :: cs =>
    have hb : c ≠ '\\' := fun hc => h (hc ▸ List.mem_cons_self)
    by_cases hd : c = '-'
    · subst hd
      cases cs with
      | nil => cases hr <;> rfl
      | cons d cs => rfl
    · rw [List.cons_append, startsName_cons hd hb, startsName_cons hd hb]

theorem reads_digits (cs : List Char) : Reads digitsLength cs :=
  reads_takeWhile (by decide) (by decide) (by decide) (by decide)

theorem startsDigit_stop (cs : List Char) (hr : Stop rest) :
    startsDigit (cs ++ rest) = startsDigit cs := by
  cases cs with
  | nil => cases hr <;> rfl
  | cons c cs => rfl

theorem reads_sign (cs : List Char) : Reads signLength cs := by
  cases cs with
  | nil => exact ⟨Nat.zero_le _, fun rest hr => by cases hr <;> rfl, NoRound.nil⟩
  | cons c cs =>
    refine ⟨?_, fun _ _ => rfl, ?_⟩
    · simp only [signLength]
      split <;> simp
    · simp only [signLength]
      split
      · next hc =>
        rw [List.take_succ_cons]
        refine NoRound.cons ?_ NoRound.nil
        rcases Bool.or_eq_true _ _ ▸ hc with hc | hc
        · rw [beq_iff_eq] at hc
          subst hc
          decide
        · rw [beq_iff_eq] at hc
          subst hc
          decide
      · exact NoRound.nil

/-- A sign, if there is one, and digits. -/
theorem reads_signed (cs : List Char) :
    Reads (fun cs => signLength cs + digitsLength (cs.drop (signLength cs))) cs :=
  (reads_sign cs).seq (reads_digits _)

theorem reads_fraction (cs : List Char) : Reads fractionLength cs := by
  match cs with
  | [] => exact ⟨Nat.zero_le _, fun rest hr => by cases hr <;> rfl, NoRound.nil⟩
  | c :: cs =>
    by_cases hc : c = '.'
    · subst hc
      have hd := reads_digits cs
      refine ⟨?_, fun rest hr => ?_, ?_⟩
      · have := hd.le
        simp only [fractionLength, List.length_cons]
        split <;> omega
      · simp only [List.cons_append, fractionLength, startsDigit_stop cs hr, hd.stop rest hr]
      · simp only [fractionLength]
        split
        · rw [List.take_succ_cons]
          exact NoRound.cons (by decide) hd.noRound
        · exact NoRound.nil
    · have h0 : ∀ ds, fractionLength (c :: ds) = 0 := by
        intro ds
        unfold fractionLength
        split
        · next h => exact absurd (List.cons.inj h).1 hc
        · rfl
      refine ⟨?_, fun rest _ => ?_, ?_⟩
      · rw [h0]
        exact Nat.zero_le _
      · rw [List.cons_append, h0, h0]
      · rw [h0]
        exact NoRound.nil

theorem reads_exponent (cs : List Char) : Reads exponentLength cs := by
  match cs with
  | [] => exact ⟨Nat.zero_le _, fun rest hr => by cases hr <;> rfl, NoRound.nil⟩
  | c :: cs =>
    have hs := reads_sign cs
    have hd := reads_signed cs
    have hle := hd.le
    refine ⟨?_, fun rest hr => ?_, ?_⟩
    · simp only [exponentLength, List.length_cons]
      split <;> omega
    · have hdigit := startsDigit_stop (cs.drop (signLength cs)) hr
      have hstop := hd.stop rest hr
      rw [hs.stop rest hr, List.drop_append_of_le_length hs.le] at hstop
      simp only [List.cons_append, exponentLength, hs.stop rest hr,
        List.drop_append_of_le_length hs.le, hdigit]
      split <;> omega
    · simp only [exponentLength]
      split
      · next h =>
        rw [List.take_succ_cons, Nat.add_comm (digitsLength _)]
        refine NoRound.cons ?_ hd.noRound
        constructor
        · rintro rfl
          simp at h
        · rintro rfl
          simp at h
      · exact NoRound.nil

theorem unitLength_cons {c : Char} (hc : c ≠ '%') (cs : List Char) :
    unitLength (c :: cs) = if startsName (c :: cs) then nameLength 0 (c :: cs) else 0 := by
  unfold unitLength
  split
  · next h => exact absurd (List.cons.inj h).1 hc
  · rfl

theorem reads_unit (h : '\\' ∉ cs) : Reads unitLength cs := by
  match cs with
  | [] => exact ⟨Nat.zero_le _, fun rest hr => by cases hr <;> rfl, NoRound.nil⟩
  | c :: cs =>
    by_cases hc : c = '%'
    · subst hc
      exact ⟨Nat.le_add_left 1 _, fun _ _ => rfl, NoRound.cons (by decide) NoRound.nil⟩
    · have hn := reads_name h
      refine ⟨?_, fun rest hr => ?_, ?_⟩
      · rw [unitLength_cons hc]
        split
        · exact hn.le
        · exact Nat.zero_le _
      · have hstart := startsName_stop h hr
        have hlength := hn.stop rest hr
        rw [List.cons_append] at hstart hlength
        rw [List.cons_append, unitLength_cons hc, unitLength_cons hc, hstart, hlength]
      · rw [unitLength_cons hc]
        split
        · exact hn.noRound
        · exact NoRound.nil

/-- A number is read on its own. -/
theorem reads_number (h : '\\' ∉ cs) : Reads numberLength cs := by
  have hdrop : ∀ n, '\\' ∉ cs.drop n := fun n hm => h (List.mem_of_mem_drop hm)
  exact (((reads_signed cs).seq (reads_fraction _)).seq (reads_exponent _)).seq
    (reads_unit (hdrop _))

theorem startsNumber_stop (cs : List Char) (hr : Stop rest) :
    startsNumber (cs ++ rest) = startsNumber cs := by
  have hs := reads_sign cs
  unfold startsNumber
  rw [hs.stop rest hr, List.drop_append_of_le_length hs.le]
  match cs.drop (signLength cs) with
  | [] => cases hr <;> rfl
  | c :: ds =>
    by_cases hc : c = '.'
    · subst hc
      exact startsDigit_stop ds hr
    · rw [List.cons_append]
      split
      · next h => exact absurd (List.cons.inj h).1 hc
      · split
        · next h => exact absurd (List.cons.inj h).1 hc
        · rfl

end StylePack.Css.Token
