import StylePack.Proofs.Css.Scan
import StylePack.Css.Token.Lexer
import StylePack.Text.Blank

/-! Plain text: what selectors, parameters and values are made of where they hold no strings,
comments and escapes. It is cut into tokens on its own, whatever follows it (`lexemes_append`). -/
namespace StylePack.Css.Token
variable {c : Char} {r cs rest : List Char}

/-- The characters of plain text. -/
def isPlain (c : Char) : Bool :=
  (isNamePart c && c != '\x00' && !Text.isBlank c) ||
    [' ', '.', ',', ':', '#', '>', '+', '~', '*', '=', '%', '(', ')', '!'].contains c

def Plain (cs : List Char) : Prop := ∀ c ∈ cs, isPlain c = true

instance (cs : List Char) : Decidable (Plain cs) := List.decidableBAll _ cs

/-- Every opening round bracket has a closing one after it. -/
def Closes : List Char → Prop
  | [] => True
  | c :: r => (c = '(' → ')' ∈ r) ∧ Closes r

/-- Whether the text closes `depth` round brackets that are open before it and all its own. -/
def balanced : Nat → List Char → Bool
  | depth, [] => depth == 0
  | depth, c :: r =>
    if c == '(' then balanced (depth + 1) r
    else if c == ')' then depth != 0 && balanced (depth - 1) r
    else balanced depth r

theorem mem_of_balanced {depth : Nat} (h : balanced (depth + 1) cs = true) : ')' ∈ cs := by
  induction cs generalizing depth with
  | nil => simp [balanced] at h
  | cons c cs ih =>
    rw [balanced] at h
    by_cases ho : c = '('
    · rw [if_pos (by simp [ho])] at h
      exact List.mem_cons_of_mem c (ih h)
    · by_cases hc : c = ')'
      · exact hc ▸ List.mem_cons_self
      · rw [if_neg (by simp [ho]), if_neg (by simp [hc])] at h
        exact List.mem_cons_of_mem c (ih h)

theorem closes_of_balanced {depth : Nat} (h : balanced depth cs = true) : Closes cs := by
  induction cs generalizing depth with
  | nil => trivial
  | cons c cs ih =>
    rw [balanced] at h
    by_cases ho : c = '('
    · rw [if_pos (by simp [ho])] at h
      exact ⟨fun _ => mem_of_balanced h, ih h⟩
    · refine ⟨fun hc => absurd hc ho, ?_⟩
      rw [if_neg (by simp [ho])] at h
      by_cases hc : c = ')'
      · rw [if_pos (by simp [hc]), Bool.and_eq_true] at h
        exact ih h.2
      · rw [if_neg (by simp [hc])] at h
        exact ih h

/-- Plain text with balanced round brackets. -/
structure Clean (cs : List Char) : Prop where
  plain : Plain cs
  balanced : balanced 0 cs = true

theorem Clean.closes (h : Clean cs) : Closes cs := closes_of_balanced h.balanced

theorem balanced_noRound {name : List Char} (h : NoRound name) (depth : Nat) (r : List Char) :
    balanced depth (name ++ r) = balanced depth r := by
  induction name with
  | nil => rfl
  | cons c name ih =>
    obtain ⟨ho, hc⟩ := h c List.mem_cons_self
    rw [List.cons_append, balanced, if_neg (by simpa using ho), if_neg (by simpa using hc)]
    exact ih fun x hx => h x (List.mem_cons_of_mem c hx)

theorem balanced_of_notMem {body : List Char} (h : ')' ∉ body) (depth : Nat) (r : List Char) :
    balanced depth (body ++ r) = balanced (depth + body.count '(') r := by
  induction body generalizing depth with
  | nil => rfl
  | cons c body ih =>
    rw [List.mem_cons, not_or] at h
    rw [List.cons_append, balanced, List.count_cons]
    by_cases ho : c = '('
    · rw [if_pos (by simpa using ho), ih h.2, if_pos (by simpa using ho), Nat.add_right_comm,
        Nat.add_assoc]
    · rw [if_neg (by simpa using ho), if_neg (by simpa using Ne.symm h.1), ih h.2,
        if_neg (by simpa using ho), Nat.add_zero]

theorem balanced_opening {name : List Char} (h : NoRound name) (depth : Nat) (r : List Char) :
    balanced depth (name ++ ['('] ++ r) = balanced (depth + 1) r := by
  rw [List.append_assoc, balanced_noRound h]
  rfl

theorem balanced_closing {depth : Nat} {r : List Char} (h : balanced depth (')' :: r) = true) :
    0 < depth ∧ balanced (depth - 1) r = true := by
  have h' : (depth != 0 && balanced (depth - 1) r) = true := h
  rw [Bool.and_eq_true, bne_iff_ne] at h'
  exact ⟨Nat.pos_of_ne_zero h'.1, h'.2⟩

theorem Clean.cons (h : Clean cs) (hp : isPlain c = true) (hc : c ≠ '(' ∧ c ≠ ')') :
    Clean (c :: cs) where
  plain x hx := by
    rcases List.mem_cons.mp hx with rfl | hx
    · exact hp
    · exact h.plain x hx
  balanced := by
    have hround : NoRound [c] := NoRound.cons hc NoRound.nil
    exact (balanced_noRound hround 0 cs).trans h.balanced

theorem balanced_append {k : Nat} (h : balanced k cs = true) (depth : Nat) (r : List Char) :
    balanced (k + depth) (cs ++ r) = balanced depth r := by
  induction cs generalizing k with
  | nil =>
    obtain rfl : k = 0 := by simpa [balanced] using h
    rw [Nat.zero_add, List.nil_append]
  | cons c cs ih =>
    rw [balanced] at h
    rw [List.cons_append, balanced]
    by_cases ho : c = '('
    · rw [if_pos (by simpa using ho)] at h ⊢
      rw [Nat.add_right_comm, ih h]
    · rw [if_neg (by simpa using ho)] at h ⊢
      by_cases hc : c = ')'
      · rw [if_pos (by simpa using hc), Bool.and_eq_true, bne_iff_ne] at h
        have hpos : (k + depth != 0) = true := bne_iff_ne.mpr (by omega)
        have hpred : k + depth - 1 = k - 1 + depth := by omega
        rw [if_pos (by simpa using hc), hpos, Bool.true_and, hpred, ih h.2]
      · rw [if_neg (by simpa using hc)] at h ⊢
        rw [ih h]

theorem Clean.append (h : Clean cs) (hr : Clean r) : Clean (cs ++ r) where
  plain x hx := by
    rcases List.mem_append.mp hx with hx | hx
    · exact h.plain x hx
    · exact hr.plain x hx
  balanced := (balanced_append h.balanced 0 r).trans hr.balanced

/-- A name without escapes. -/
def IsName : List Char → Prop
  | [] => False
  | c :: r => isNameStart c = true ∧ ∀ d ∈ c :: r, isNamePart d = true ∧ isPlain d = true

instance : (name : List Char) → Decidable (IsName name)
  | [] => instDecidableFalse
  | _ :: _ => @instDecidableAnd _ _ _ (List.decidableBAll _ _)

/-- The characters that the lexer tells apart one by one. -/
def marks : List Char :=
  [';', '\x7b', '\x7d', '(', ')', '[', ']', '"', '\'', '#', '/', '@', '<', '-', '$', '*', '^', '|',
    '~']

theorem first_of_notMem (h : c ∉ marks) (r : List Char) : first c r =
    if isSpace c then (.blank, (r.takeWhile isSpace).length)
    else if startsNumber (c :: r) then (.other, numberLength (c :: r) - 1)
    else if startsName (c :: r) then nameLike c r
    else (.other, 0) := by
  unfold first
  split
  all_goals first
    | rfl
    | exact absurd (by decide) h

theorem mem_of_isSpace (h : isSpace c = true) : c ∈ [' ', '\t', '\n', '\r', '\x0C'] := by
  simpa [isSpace, isNewline, or_assoc] using h

theorem isSpace_of_isNameStart (h : isNameStart c = true) : isSpace c = false := by
  have hall : [' ', '\t', '\n', '\r', '\x0C'].all (fun c => !isNameStart c) = true := by decide
  refine Bool.eq_false_iff.mpr fun hs => ?_
  simpa [h] using List.all_eq_true.mp hall c (mem_of_isSpace hs)

theorem isPlain_cases (h : isPlain c = true) :
    c = '(' ∨ c = ')' ∨ c = '#' ∨ c = '-' ∨ c = '*' ∨ c = '~' ∨ c ∉ marks := by
  have hall : marks.all (fun c => !isPlain c || "()#-*~".toList.contains c) = true := by decide
  by_cases hm : c ∈ marks
  · have hc := List.all_eq_true.mp hall c hm
    rw [h, Bool.not_true, Bool.false_or] at hc
    have hmem : c ∈ ['(', ')', '#', '-', '*', '~'] := by simpa using hc
    simp only [List.mem_cons, List.not_mem_nil, or_false] at hmem
    rcases hmem with rfl | rfl | rfl | rfl | rfl | rfl
    all_goals simp
  · simp [hm]

/-- Of the blanks, only the space is plain. -/
theorem eq_space_of_isBlank (h : isPlain c = true) (hb : Text.isBlank c = true) : c = ' ' := by
  have hall : [' ', '.', ',', ':', '#', '>', '+', '~', '*', '=', '%', '(', ')', '!'].all
      (fun c => !Text.isBlank c || c == ' ') = true := by decide
  rw [isPlain, hb, Bool.not_true, Bool.and_false, Bool.false_or, List.contains_eq_mem,
    decide_eq_true_iff] at h
  have hc := List.all_eq_true.mp hall c h
  rwa [hb, Bool.not_true, Bool.false_or, beq_iff_eq] at hc

theorem Plain.notMem {x : Char} (h : Plain cs) (hx : isPlain x = false) : x ∉ cs := by
  intro hm
  rw [h x hm] at hx
  exact Bool.noConfusion hx

theorem Plain.drop (h : Plain cs) (n : Nat) : Plain (cs.drop n) :=
  fun x hx => h x (List.mem_of_mem_drop hx)

theorem Closes.drop (h : Closes cs) (n : Nat) : Closes (cs.drop n) := by
  induction cs generalizing n with
  | nil => simpa using h
  | cons c cs ih =>
    cases n with
    | zero => exact h
    | succ n => exact ih h.2 n

/-- What tokens of plain text look like. -/
inductive Piece : Lexeme → Prop
  | opening {name : List Char} (h : NoRound name) : Piece ⟨.opening .round, name ++ ['(']⟩
  | closing : Piece ⟨.closing .round, [')']⟩
  | inert {token : Token} {c : Char} {text : List Char}
    (ht : token = .other ∨ token = .blank ∨ token = .mark) (h : NoRound (c :: text)) :
    Piece ⟨token, c :: text⟩
  | address {name inner : List Char} (hn : NoRound name)
    (hurl : Text.sameLetters name ['u', 'r', 'l'] = true) (hi : ')' ∉ inner) :
    Piece ⟨.other, name ++ '(' :: (inner ++ [')'])⟩

theorem Piece.text_ne_nil {l : Lexeme} (h : Piece l) : l.text ≠ [] := by
  cases h <;> simp

section
variable {body : List Char} (hb : ')' ∉ body) (hs : '\\' ∉ body) (tail : List Char)
include hb hs

theorem faultyLength_closed : faultyLength (body ++ ')' :: tail) = body.length + 1 := by
  induction body with
  | nil => rfl
  | cons c body ih =>
    rw [List.mem_cons, not_or] at hb hs
    rw [List.cons_append, faultyLength, ih hb.2 hs.2, List.length_cons]
    · exact fun h => hb.1 h.symm
    · exact fun r h => absurd h.symm hs.1
    · exact fun r h => absurd h.symm hs.1

theorem addressEndLength_closed :
    addressEndLength (body ++ ')' :: tail) = body.length + 1 := by
  induction body with
  | nil => rfl
  | cons c body ih =>
    have hf := faultyLength_closed (fun h => hb (List.mem_cons_of_mem c h))
      (fun h => hs (List.mem_cons_of_mem c h)) tail
    rw [List.mem_cons, not_or] at hb hs
    rw [List.cons_append, addressEndLength, ih hb.2 hs.2, hf, if_neg (by simpa using Ne.symm hb.1),
      ite_self, List.length_cons]

theorem addressBodyLength_closed :
    addressBodyLength 0 (body ++ ')' :: tail) = body.length + 1 := by
  induction body with
  | nil => rfl
  | cons c body ih =>
    have hf := faultyLength_closed (fun h => hb (List.mem_cons_of_mem c h))
      (fun h => hs (List.mem_cons_of_mem c h)) tail
    have he := addressEndLength_closed (fun h => hb (List.mem_cons_of_mem c h))
      (fun h => hs (List.mem_cons_of_mem c h)) tail
    rw [List.mem_cons, not_or] at hb hs
    have hclose : ¬ (c == ')') = true := by simpa using Ne.symm hb.1
    have hslash : ¬ (c == '\\') = true := by simpa using Ne.symm hs.1
    rw [List.cons_append, addressBodyLength, ih hb.2 hs.2, hf, he, if_neg hclose, if_neg hslash,
      ite_self, ite_self, List.length_cons]

end

theorem addressLength_space (hc : isSpace c = true) (r : List Char) :
    addressLength (c :: r) = (addressLength r).map (· + 1) := by
  unfold addressLength
  simp only [List.takeWhile_cons_of_pos hc, List.length_cons, List.drop_succ_cons]
  split
  · rfl
  · rfl
  · rw [Option.map_some]
    congr 1
    omega

theorem addressLength_of_not_space (hc : isSpace c = false) (hq : c ≠ '"') (ha : c ≠ '\'')
    (r : List Char) : addressLength (c :: r) = some (addressBodyLength 0 (c :: r)) := by
  unfold addressLength
  simp only [List.takeWhile_cons_of_neg (by simpa using hc), List.length_nil, List.drop_zero]
  split
  · next h => exact absurd (List.cons.inj h).1 hq
  · next h => exact absurd (List.cons.inj h).1 ha
  · rw [Nat.zero_add]

/-- An address without quotes and escapes runs to the first closing bracket. -/
theorem addressLength_closed {body : List Char} (hb : ')' ∉ body) (hs : '\\' ∉ body)
    (hq : '"' ∉ body) (ha : '\'' ∉ body) (tail : List Char) :
    addressLength (body ++ ')' :: tail) = some (body.length + 1) := by
  induction body with
  | nil => rfl
  | cons c body ih =>
    have hclosed := addressBodyLength_closed hb hs tail
    rw [List.mem_cons, not_or] at hb hs hq ha
    rw [List.cons_append] at hclosed ⊢
    by_cases hc : isSpace c
    · rw [addressLength_space hc, ih hb.2 hs.2 hq.2 ha.2]
      rfl
    · rw [addressLength_of_not_space (by simpa using hc) (Ne.symm hq.1) (Ne.symm ha.1), hclosed]

/-- `p` is a token at the front of `c :: r`, with the number of characters of `r` it takes. -/
def Fits (c : Char) (r : List Char) (p : Token × Nat) : Prop :=
  p.2 ≤ r.length ∧ Piece ⟨p.1, c :: r.take p.2⟩

theorem not_round_of_isNamePart (hc : isNamePart c = true) : c ≠ '(' ∧ c ≠ ')' := by
  constructor
  · rintro rfl
    exact absurd hc (by decide)
  · rintro rfl
    exact absurd hc (by decide)

theorem IsName.clean {name : List Char} (h : IsName name) : Clean name := by
  obtain _ | ⟨c, r⟩ := name
  · exact h.elim
  · have hround : NoRound (c :: r) := fun d hd => not_round_of_isNamePart (h.2 d hd).1
    refine ⟨fun d hd => (h.2 d hd).2, ?_⟩
    have hbalanced := balanced_noRound hround 0 []
    rwa [List.append_nil] at hbalanced

theorem IsName.isNamePart {name : List Char} (h : IsName name) :
    ∀ c ∈ name, isNamePart c = true := by
  obtain _ | ⟨c, r⟩ := name
  · exact h.elim
  · exact fun d hd => (h.2 d hd).1

theorem IsName.ne_nil {name : List Char} (h : IsName name) : name ≠ [] := by
  rintro rfl
  exact h

/-- A name is one word, without colons. -/
theorem IsName.word {name : List Char} (h : IsName name) :
    ∀ c ∈ name, Text.isBlank c = false ∧ c ≠ ':' := by
  intro c hc
  have hpart := h.isNamePart c hc
  constructor
  · refine Bool.eq_false_iff.mpr fun hb => ?_
    obtain rfl := eq_space_of_isBlank (h.clean.plain c hc) hb
    exact absurd hpart (by decide)
  · rintro rfl
    exact absurd hpart (by decide)

theorem Closes.of_append {cs ds : List Char} (h : Closes (cs ++ ds)) : Closes ds := by
  have hd := h.drop cs.length
  rwa [List.drop_left] at hd

/-- The name at the front of `c :: (name ++ tail)` is `c :: name`. -/
structure Named (c : Char) (name tail : List Char) : Prop where
  value : nameValue 0 (c :: (name ++ tail)) = c :: name
  length : nameLength 0 (c :: (name ++ tail)) - 1 = name.length

section
variable {name tail inner : List Char}

theorem nameLike_name (h : Named c name tail) (htail : tail.head? ≠ some '(') :
    nameLike c (name ++ tail) = (.other, name.length) := by
  unfold nameLike
  dsimp only
  rw [h.length, List.drop_left]
  split
  · exact absurd rfl htail
  · rfl

theorem nameLike_opening (h : Named c name ('(' :: inner))
    (hurl : Text.sameLetters (c :: name) ['u', 'r', 'l'] = false) :
    nameLike c (name ++ '(' :: inner) = (.opening .round, name.length + 1) := by
  unfold nameLike
  dsimp only
  rw [h.length, h.value, List.drop_left, hurl]
  rfl

theorem nameLike_address (h : Named c name ('(' :: inner))
    (hurl : Text.sameLetters (c :: name) ['u', 'r', 'l'] = true) {n : Nat}
    (hn : addressLength inner = some n) :
    nameLike c (name ++ '(' :: inner) = (.other, name.length + 1 + n) := by
  unfold nameLike
  dsimp only
  rw [h.length, h.value, List.drop_left, hurl]
  simp only [hn, if_true]

end

theorem fits_inert {token : Token} {n : Nat}
    (ht : token = .other ∨ token = .blank ∨ token = .mark) (hn : n ≤ r.length)
    (hround : NoRound (c :: r.take n)) : Fits c r (token, n) :=
  ⟨hn, Piece.inert ht hround⟩

theorem fits_opening {name : List Char} (hround : NoRound (c :: name)) (inner : List Char) :
    Fits c (name ++ '(' :: inner) (.opening .round, name.length + 1) := by
  constructor
  · rw [List.length_append, List.length_cons]
    omega
  · have htake : (name ++ '(' :: inner).take (name.length + 1) = name ++ ['('] := by
      rw [List.take_length_add_append]
      rfl
    rw [htake]
    exact Piece.opening hround

theorem fits_address {name inner : List Char} (hround : NoRound (c :: name))
    (hurl : Text.sameLetters (c :: name) ['u', 'r', 'l'] = true) (hinner : ')' ∉ inner)
    (more : List Char) : Fits c (name ++ '(' :: (inner ++ ')' :: more))
      (.other, name.length + 1 + (inner.length + 1)) := by
  constructor
  · simp only [List.length_append, List.length_cons]
    omega
  · have htake : (name ++ '(' :: (inner ++ ')' :: more)).take
        (name.length + 1 + (inner.length + 1)) = name ++ '(' :: (inner ++ [')']) := by
      rw [Nat.add_assoc, List.take_length_add_append, Nat.add_comm 1, List.take_succ_cons,
        List.take_length_add_append]
      rfl
    rw [htake]
    exact Piece.address hround hurl hinner

theorem named_stop (hc : isNamePart c = true) (hp : Plain (c :: r)) (hrest : Stop rest) :
    Named c (r.takeWhile isNamePart) (r.dropWhile isNamePart ++ rest) := by
  have hslash := hp.notMem (x := '\\') (by decide)
  have htake : (c :: r).takeWhile isNamePart = c :: r.takeWhile isNamePart :=
    List.takeWhile_cons_of_pos hc
  have hr : c :: (r.takeWhile isNamePart ++ (r.dropWhile isNamePart ++ rest)) = c :: r ++ rest := by
    rw [← List.append_assoc, List.takeWhile_append_dropWhile, List.cons_append]
  constructor
  · rw [hr, nameValue_ends hslash (hp.notMem (by decide)) hrest.ends, htake]
  · rw [hr, nameLength_ends hslash hrest.ends, htake]
    rfl

/-- A name, a name with the bracket that it opens, or an address. -/
theorem nameLike_plain (hc : isNamePart c = true) (hp : Plain (c :: r)) (hr : Closes r) :
    ∃ p, Fits c r p ∧ ∀ rest, Stop rest → nameLike c (r ++ rest) = p := by
  have hnamed : ∀ rest, Stop rest → Named c (r.takeWhile isNamePart)
      (r.dropWhile isNamePart ++ rest) := fun rest hrest => named_stop hc hp hrest
  have hround : NoRound (c :: r.takeWhile isNamePart) := NoRound.cons (not_round_of_isNamePart hc)
    fun x hx => not_round_of_isNamePart (List.mem_takeWhile_imp hx)
  have hsplit : r = r.takeWhile isNamePart ++ r.dropWhile isNamePart :=
    List.takeWhile_append_dropWhile.symm
  generalize r.takeWhile isNamePart = name at hnamed hround hsplit
  generalize r.dropWhile isNamePart = tail at hnamed hsplit
  subst hsplit
  have hinert : Fits c (name ++ tail) (.other, name.length) := by
    refine fits_inert (Or.inl rfl) (by simp) ?_
    rwa [List.take_left]
  simp only [List.append_assoc]
  cases tail with
  | nil =>
    refine ⟨_, hinert, fun rest hrest => nameLike_name (hnamed rest hrest) ?_⟩
    cases hrest <;> simp
  | cons x tail =>
    by_cases hx : x = '('
    · subst hx
      by_cases hurl : Text.sameLetters (c :: name) ['u', 'r', 'l']
      · obtain ⟨inner, more, rfl, hinner⟩ := List.eq_append_cons_of_mem (hr.of_append.1 rfl)
        have hplain : Plain inner := fun y hy => hp y (by simp [hy])
        refine ⟨_, fits_address hround hurl hinner more, fun rest hrest => ?_⟩
        refine nameLike_address (hnamed rest hrest) hurl ?_
        rw [List.append_eq, List.append_assoc, List.cons_append]
        exact addressLength_closed hinner (hplain.notMem (by decide)) (hplain.notMem (by decide))
          (hplain.notMem (by decide)) _
      · refine ⟨_, fits_opening hround tail, fun rest hrest => ?_⟩
        exact nameLike_opening (hnamed rest hrest) (Bool.eq_false_iff.mpr hurl)
    · refine ⟨_, hinert, fun rest hrest => nameLike_name (hnamed rest hrest) ?_⟩
      simpa using hx

/-- A number that begins with `c`. -/
theorem fits_number (hp : Plain (c :: r)) (hc : c ≠ '(' ∧ c ≠ ')') :
    Fits c r (.other, numberLength (c :: r) - 1) := by
  have hreads := reads_number (hp.notMem (by decide))
  have hle := hreads.le
  rw [List.length_cons] at hle
  refine fits_inert (Or.inl rfl) (by omega) ?_
  cases hn : numberLength (c :: r) with
  | zero => exact NoRound.cons hc NoRound.nil
  | succ n =>
    have hround := hreads.noRound
    rwa [hn, List.take_succ_cons] at hround

theorem closesMark_stop (hrest : Stop rest) : closesMark (r ++ rest) = closesMark r := by
  match r with
  | [] => cases hrest <;> rfl
  | [x] => cases hrest <;> cases hx : x == '-' <;> simp_all [closesMark]
  | x :: y :: r => rfl

/-- A character that belongs together with an equals sign after it. -/
theorem first_pair (hc : c ≠ '(' ∧ c ≠ ')')
    (heq : ∀ r, first c r = (.other, if r.head? = some '=' then 1 else 0)) :
    ∃ p, Fits c r p ∧ ∀ rest, Stop rest → first c (r ++ rest) = p := by
  refine ⟨(.other, if r.head? = some '=' then 1 else 0),
    fits_inert (Or.inl rfl) ?_ (NoRound.cons hc ?_), fun rest hrest => ?_⟩
  · cases r with
    | nil => exact Nat.zero_le _
    | cons x r =>
      rw [List.length_cons]
      split <;> omega
  · cases r with
    | nil => exact NoRound.nil
    | cons x r =>
      split
      · next h =>
        obtain rfl : x = '=' := Option.some.inj h
        exact NoRound.cons (by decide) NoRound.nil
      · exact NoRound.nil
  · rw [heq]
    cases r with
    | nil => cases hrest <;> rfl
    | cons x r => rfl

/-- A hyphen begins a number, the mark `-->`, a name or nothing. -/
theorem first_hyphen (hp : Plain ('-' :: r)) (hr : Closes r) :
    ∃ p, Fits '-' r p ∧ ∀ rest, Stop rest → first '-' (r ++ rest) = p := by
  have heq : ∀ r, first '-' r =
      if startsNumber ('-' :: r) then (.other, numberLength ('-' :: r) - 1)
      else if closesMark r then (.mark, 2)
      else if startsName ('-' :: r) then nameLike '-' r
      else (.other, 0) := fun _ => rfl
  have hnumber : ∀ rest, Stop rest →
      startsNumber ('-' :: (r ++ rest)) = startsNumber ('-' :: r) := fun rest hrest =>
    startsNumber_stop ('-' :: r) hrest
  have hname : ∀ rest, Stop rest → startsName ('-' :: (r ++ rest)) = startsName ('-' :: r) :=
    fun rest hrest => startsName_stop (hp.notMem (by decide)) hrest
  by_cases hn : startsNumber ('-' :: r)
  · refine ⟨_, fits_number hp (by decide), fun rest hrest => ?_⟩
    have hstop := (reads_number (hp.notMem (by decide))).stop rest hrest
    rw [List.cons_append] at hstop
    rw [heq, hnumber rest hrest, if_pos hn, hstop]
  · by_cases hm : closesMark r
    · have htake : r.take 2 = ['-', '>'] := by simpa [closesMark] using hm
      refine ⟨(.mark, 2), fits_inert (Or.inr (Or.inr rfl)) ?_ ?_, fun rest hrest => ?_⟩
      · have hlength := congrArg List.length htake
        rw [List.length_take] at hlength
        simp only [List.length_cons, List.length_nil] at hlength
        omega
      · rw [htake]
        decide
      · rw [heq, hnumber rest hrest, if_neg hn, closesMark_stop hrest, if_pos hm]
    · by_cases hs : startsName ('-' :: r)
      · obtain ⟨p, hfits, hlike⟩ := nameLike_plain (by decide) hp hr
        refine ⟨p, hfits, fun rest hrest => ?_⟩
        rw [heq, hnumber rest hrest, if_neg hn, closesMark_stop hrest, if_neg hm,
          hname rest hrest, if_pos hs, hlike rest hrest]
      · refine ⟨_, fits_inert (Or.inl rfl) (Nat.zero_le _) (NoRound.cons (by decide) NoRound.nil),
          fun rest hrest => ?_⟩
        rw [heq, hnumber rest hrest, if_neg hn, closesMark_stop hrest, if_neg hm,
          hname rest hrest, if_neg hs]

/-- A space, a number, a name, or a character on its own. -/
theorem first_unmarked (hm : c ∉ marks) (hp : Plain (c :: r)) (hr : Closes r) :
    ∃ p, Fits c r p ∧ ∀ rest, Stop rest → first c (r ++ rest) = p := by
  have hc : c ≠ '(' ∧ c ≠ ')' := by
    constructor
    · rintro rfl
      exact hm (by decide)
    · rintro rfl
      exact hm (by decide)
  have hd : c ≠ '-' := by
    rintro rfl
    exact hm (by decide)
  have hb : c ≠ '\\' := fun h => hp.notMem (x := '\\') (by decide) (h ▸ List.mem_cons_self)
  have hnumber : ∀ rest, Stop rest → startsNumber (c :: (r ++ rest)) = startsNumber (c :: r) :=
    fun rest hrest => startsNumber_stop (c :: r) hrest
  by_cases hspace : isSpace c
  · have hreads : Reads (fun cs => (cs.takeWhile isSpace).length) r :=
      reads_takeWhile (by decide) (by decide) (by decide) (by decide)
    refine ⟨_, fits_inert (Or.inr (Or.inl rfl)) hreads.le (NoRound.cons hc hreads.noRound),
      fun rest hrest => ?_⟩
    rw [first_of_notMem hm, if_pos hspace, hreads.stop rest hrest]
  · by_cases hn : startsNumber (c :: r)
    · refine ⟨_, fits_number hp hc, fun rest hrest => ?_⟩
      have hstop := (reads_number (hp.notMem (by decide))).stop rest hrest
      rw [List.cons_append] at hstop
      rw [first_of_notMem hm, if_neg hspace, hnumber rest hrest, if_pos hn, hstop]
    · by_cases hs : isNameStart c
      · obtain ⟨p, hfits, hlike⟩ := nameLike_plain (isNamePart_of_isNameStart hs) hp hr
        refine ⟨p, hfits, fun rest hrest => ?_⟩
        rw [first_of_notMem hm, if_neg hspace, hnumber rest hrest, if_neg hn,
          startsName_cons hd hb, if_pos hs, hlike rest hrest]
      · refine ⟨_, fits_inert (Or.inl rfl) (Nat.zero_le _) (NoRound.cons hc NoRound.nil),
          fun rest hrest => ?_⟩
        rw [first_of_notMem hm, if_neg hspace, hnumber rest hrest, if_neg hn,
          startsName_cons hd hb, if_neg hs]

/-- The token at the front of plain text does not depend on what follows the text. -/
theorem first_plain (hp : Plain (c :: r)) (hr : Closes (c :: r)) :
    ∃ p, Fits c r p ∧ ∀ rest, Stop rest → first c (r ++ rest) = p := by
  have hc := hp c List.mem_cons_self
  rcases isPlain_cases hc with rfl | rfl | rfl | rfl | rfl | rfl | hm
  · have hopening : Piece ⟨.opening .round, [] ++ ['(']⟩ := Piece.opening NoRound.nil
    exact ⟨(.opening .round, 0), ⟨Nat.zero_le _, hopening⟩, fun _ _ => rfl⟩
  · exact ⟨(.closing .round, 0), ⟨Nat.zero_le _, Piece.closing⟩, fun _ _ => rfl⟩
  · have hslash : '\\' ∉ r := fun h => hp.notMem (by decide) (List.mem_cons_of_mem _ h)
    have hreads := reads_name hslash
    refine ⟨(.other, nameLength 0 r), fits_inert (Or.inl rfl) hreads.le
      (NoRound.cons (by decide) hreads.noRound), fun rest hrest => ?_⟩
    exact congrArg (Prod.mk _) (hreads.stop rest hrest)
  · exact first_hyphen hp hr.2
  · exact first_pair (by decide) (fun _ => rfl)
  · exact first_pair (by decide) (fun _ => rfl)
  · exact first_unmarked hm hp hr.2

/-- Plain text is cut into tokens of its own, whatever follows it. -/
theorem lexemes_append (hp : Plain cs) (hc : Closes cs) (hrest : Stop rest) :
    lexemes (cs ++ rest) = lexemes cs ++ lexemes rest := by
  induction hn : cs.length using Nat.strong_induction_on generalizing cs with
  | _ n ih =>
    cases cs with
    | nil => rfl
    | cons c r =>
      obtain ⟨p, ⟨hle, -⟩, hfirst⟩ := first_plain hp hc
      have hown := hfirst [] Stop.nil
      rw [List.append_nil] at hown
      have hplain : Plain (r.drop p.2) := hp.drop (p.2 + 1)
      have hcloses : Closes (r.drop p.2) := hc.drop (p.2 + 1)
      have hlt : (r.drop p.2).length < n := by
        rw [← hn, List.length_drop, List.length_cons]
        omega
      have hnext := ih _ hlt hplain hcloses rfl
      rw [List.cons_append, lexemes_cons, lexemes_cons, hfirst rest hrest, hown,
        List.take_append_of_le_length hle, List.drop_append_of_le_length hle, hnext,
        List.cons_append]

theorem pieces (hp : Plain cs) (hc : Closes cs) : ∀ l ∈ lexemes cs, Piece l := by
  induction hn : cs.length using Nat.strong_induction_on generalizing cs with
  | _ n ih =>
    cases cs with
    | nil => exact fun _ hl => absurd hl List.not_mem_nil
    | cons c r =>
      obtain ⟨p, ⟨-, hpiece⟩, hfirst⟩ := first_plain hp hc
      have hown := hfirst [] Stop.nil
      rw [List.append_nil] at hown
      have hplain : Plain (r.drop p.2) := hp.drop (p.2 + 1)
      have hcloses : Closes (r.drop p.2) := hc.drop (p.2 + 1)
      have hlt : (r.drop p.2).length < n := by
        rw [← hn, List.length_drop, List.length_cons]
        omega
      have hnext := ih _ hlt hplain hcloses rfl
      rw [lexemes_cons, hown]
      intro l hl
      rcases List.mem_cons.mp hl with rfl | hl
      · exact hpiece
      · exact hnext l hl

end StylePack.Css.Token
