/-! Names in CSS text and the escapes inside them.

A scanner of this folder says how many characters of a text it takes. Where an escape makes it
jump, its first argument counts the characters that are still to be passed over, so that every
scanner is a plain recursion on the text. -/
namespace StylePack.Css.Token

def isNewline (c : Char) : Bool := c == '\n' || c == '\r' || c == '\x0C'

def isSpace (c : Char) : Bool := c == ' ' || c == '\t' || isNewline c

def isHexDigit (c : Char) : Bool :=
  ('0' ≤ c && c ≤ '9') || ('a' ≤ c && c ≤ 'f') || ('A' ≤ c && c ≤ 'F')

def hexValue (c : Char) : Nat :=
  if c ≤ '9' then c.toNat - '0'.toNat
  else if c ≤ 'F' then c.toNat - 'A'.toNat + 10
  else c.toNat - 'a'.toNat + 10

def isLetter (c : Char) : Bool := ('a' ≤ c && c ≤ 'z') || ('A' ≤ c && c ≤ 'Z')

def isDigit (c : Char) : Bool := '0' ≤ c && c ≤ '9'

/-- The characters that can begin a name without an escape. -/
def isNameStart (c : Char) : Bool := isLetter c || c == '_' || c == '\x00' || 0x80 ≤ c.toNat

/-- The characters that can stand in a name without an escape. -/
def isNamePart (c : Char) : Bool := isNameStart c || isDigit c || c == '-'

/-- What is read in place of a character that no text can hold. -/
def replacement : Char := '\uFFFD'

def startsNewline : List Char → Bool
  | c :: _ => isNewline c
  | [] => false

/-- The length of the newline or of the single space at the front, if there is one. -/
def spaceLength : List Char → Nat
  | '\r' :: '\n' :: _ => 2
  | c :: _ => if isSpace c then 1 else 0
  | [] => 0

/-- The character with a number; numbers that belong to none give the replacement. -/
def charNumbered (n : Nat) : Char :=
  if n ≠ 0 ∧ n.isValidChar then Char.ofNat n else replacement

/-- The character that the text after a backslash stands for, and how much of it is read: up to
six hexadecimal digits and one space, or any single character. -/
def escape (r : List Char) : Char × Nat :=
  match r with
  | [] => (replacement, 0)
  | c :: _ =>
    if isHexDigit c then
      let digits := (r.take 6).takeWhile isHexDigit
      (charNumbered (digits.foldl (16 * · + hexValue ·) 0),
        digits.length + spaceLength (r.drop digits.length))
    else if c == '\x00' then (replacement, 1)
    else (c, 1)

/-- The length of the name at the front of a text. -/
def nameLength : Nat → List Char → Nat
  | _, [] => 0
  | skip + 1, _ :: r => nameLength skip r + 1
  | 0, c :: r =>
    if isNamePart c then nameLength 0 r + 1
    else if c == '\\' && !startsNewline r then nameLength (escape r).2 r + 1
    else 0

/-- The name at the front of a text, with its escapes resolved. -/
def nameValue : Nat → List Char → List Char
  | _, [] => []
  | skip + 1, _ :: r => nameValue skip r
  | 0, c :: r =>
    if isNamePart c then (if c == '\x00' then replacement else c) :: nameValue 0 r
    else if c == '\\' && !startsNewline r then (escape r).1 :: nameValue (escape r).2 r
    else []

/-- Whether a name begins at the front of a text. A digit does not begin one, and a hyphen only
before another hyphen, a letter or an escape. -/
def startsName : List Char → Bool
  | [] => false
  | '-' :: c :: _ => isNameStart c || c == '-' || c == '\\'
  | c :: r => isNameStart c || (c == '\\' && !startsNewline r)

theorem isNamePart_of_isNameStart {c : Char} (h : isNameStart c = true) : isNamePart c = true := by
  simp [isNamePart, h]

example : nameValue 0 "a\\62 c\\-d".toList = "abc-d".toList := by decide

example : nameLength 0 "a\\62 c\\-d e".toList = 9 := by decide

end StylePack.Css.Token
