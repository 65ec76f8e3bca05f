import StylePack.Json.Quoted

/-! Quoted text is read back: a character that is escaped is read as itself, in front of any text
(`decode_encodeChar`), and so is a whole text up to the quote that closes it (`decode_encode`). -/
namespace StylePack.Json.Quoted
variable {c : Char} {r : List Char}

/-- The characters of an escape are passed over. -/
theorem decode_append (ds r : List Char) :
    decode ds.length (ds ++ r) = (decode 0 r).map fun (s, n) => (s, n + ds.length) := by
  induction ds with
  | nil => simp
  | cons d ds ih =>
    rw [List.length_cons, List.cons_append, decode, ih, Option.map_map]
    rfl

/-- What follows a backslash is read as one character. -/
theorem decode_backslash (ds : List Char) (h : unescape (ds ++ r) = some (c, ds.length)) :
    decode 0 ('\\' :: ds ++ r) = (decode 0 r).map fun (s, n) => (c :: s, n + (ds.length + 1)) := by
  rw [List.cons_append, decode, if_neg (by decide), if_pos rfl, h]
  dsimp only
  rw [decode_append, Option.map_map]
  rfl

theorem decode_plain (hquote : c ≠ '"') (hslash : c ≠ '\\') (hc : 0x20 ≤ c.toNat) :
    decode 0 (c :: r) = (decode 0 r).map fun (s, n) => (c :: s, n + 1) := by
  rw [decode, if_neg hquote, if_neg hslash, if_neg (by omega)]

theorem hexValue?_hexDigit {n : Nat} (h : n < 16) : hexValue? (hexDigit n) = some n := by
  have hall : ∀ n < 16, hexValue? (hexDigit n) = some n := by decide
  exact hall n h

theorem hexUnit?_control {n : Nat} (h : n < 0x20) :
    hexUnit? ('0' :: '0' :: hexDigit (n / 16) :: hexDigit (n % 16) :: r) = some n := by
  have hzero : hexValue? '0' = some 0 := by decide
  have hhigh : n / 16 < 16 := by omega
  have hlow : n % 16 < 16 := by omega
  have hsum : ((0 * 16 + 0) * 16 + n / 16) * 16 + n % 16 = n := by omega
  simp only [hexUnit?, hzero, hexValue?_hexDigit hhigh, hexValue?_hexDigit hlow, bind,
    Option.bind_some, hsum]
  rfl

/-- Four digits stand for a control character. -/
theorem unescape_control (h : c.toNat < 0x20) :
    unescape ('u' :: '0' :: '0' :: hexDigit (c.toNat / 16) :: hexDigit (c.toNat % 16) :: r) =
      some (c, 5) := by
  have hlow : isLowSurrogate c.toNat = false := by
    simp only [isLowSurrogate, Bool.and_eq_false_iff, decide_eq_false_iff_not]
    omega
  have hhigh : isHighSurrogate c.toNat = false := by
    simp only [isHighSurrogate, Bool.and_eq_false_iff, decide_eq_false_iff_not]
    omega
  have hunit : unescapeUnit ('0' :: '0' :: hexDigit (c.toNat / 16) :: hexDigit (c.toNat % 16) :: r)
      = some (c, 4) := by
    simp [unescapeUnit, hexUnit?_control h, hlow, hhigh, Char.ofNat_toNat]
  rw [unescape]
  simp [hunit]

/-- A character is read as itself in its quoted form. -/
theorem decode_encodeChar (c : Char) (r : List Char) : decode 0 (encodeChar c ++ r) =
    (decode 0 r).map fun (s, n) => (c :: s, n + (encodeChar c).length) := by
  unfold encodeChar
  split
  case h_8 hquote hslash _ _ _ _ _ =>
    split
    · rename_i hc
      exact decode_backslash ['u', '0', '0', hexDigit (c.toNat / 16), hexDigit (c.toNat % 16)]
        (unescape_control hc)
    · rename_i hc
      exact decode_plain hquote hslash (by omega)
  all_goals exact decode_backslash [_] rfl

theorem encode_cons (c : Char) (cs : List Char) : encode (c :: cs) = encodeChar c ++ encode cs :=
  List.flatMap_cons

/-- A text is read up to the quote that closes it. -/
theorem decode_encode (cs r : List Char) :
    decode 0 (encode cs ++ '"' :: r) = some (cs, (encode cs).length + 1) := by
  induction cs with
  | nil => rfl
  | cons c cs ih =>
    have hlength : (encode cs).length + 1 + (encodeChar c).length =
        (encodeChar c).length + (encode cs).length + 1 := by omega
    rw [encode_cons, List.append_assoc, decode_encodeChar, ih, Option.map_some,
      List.length_append]
    dsimp only
    rw [hlength]

theorem toList_quote (s : String) : (quote s).toList = '"' :: encode s.toList ++ ['"'] := by
  simp [quote]

end StylePack.Json.Quoted
