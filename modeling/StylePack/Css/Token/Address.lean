import StylePack.Css.Token.Name

/-! Addresses that are written without quotes, as in `url(a.png)`. One that holds a character it
must not hold is still one token, which runs to the next closing bracket. -/
namespace StylePack.Css.Token

/-- The characters that make an unquoted address faulty. -/
def isFaulty (c : Char) : Bool :=
  let n := c.toNat
  (0x01 ≤ n && n ≤ 0x08) || n == 0x0B || (0x0E ≤ n && n ≤ 0x1F) || n == 0x7F
    || c == '"' || c == '\'' || c == '('

/-- The length of the rest of a faulty address; an escaped bracket does not close it. -/
def faultyLength : List Char → Nat
  | [] => 0
  | ')' :: _ => 1
  | '\\' :: ')' :: r => faultyLength r + 2
  | '\\' :: '\\' :: r => faultyLength r + 2
  | _ :: r => faultyLength r + 1

/-- The length of what follows the first space in an address: spaces and the closing bracket. -/
def addressEndLength : List Char → Nat
  | [] => 0
  | c :: r =>
    if c == ')' then 1
    else if isSpace c then addressEndLength r + 1
    else faultyLength r + 1

/-- The length of an address from its first character that is no space. -/
def addressBodyLength : Nat → List Char → Nat
  | _, [] => 0
  | skip + 1, _ :: r => addressBodyLength skip r + 1
  | 0, c :: r =>
    if c == ')' then 1
    else if isSpace c then addressEndLength r + 1
    else if isFaulty c then faultyLength r + 1
    else if c == '\\' then
      if startsNewline r then faultyLength r + 1 else addressBodyLength (escape r).2 r + 1
    else addressBodyLength 0 r + 1

/-- The length of an unquoted address after its opening bracket; none where a quoted string
follows, which makes the bracket an ordinary one. -/
def addressLength (cs : List Char) : Option Nat :=
  let spaces := (cs.takeWhile isSpace).length
  match cs.drop spaces with
  | '"' :: _ => none
  | '\'' :: _ => none
  | r => some (spaces + addressBodyLength 0 r)

example : addressLength " a.png ) b".toList = some 8 := by decide

example : addressLength " \"a\")".toList = none := by decide

example : addressLength "a b\\) c)d".toList = some 8 := by decide

end StylePack.Css.Token
