import StylePack.Css.Token.Name

/-! Numbers in CSS text: a sign, digits with a fraction, an exponent, then `%` or a unit. -/
namespace StylePack.Css.Token

def digitsLength (cs : List Char) : Nat := (cs.takeWhile isDigit).length

def startsDigit : List Char → Bool
  | c :: _ => isDigit c
  | [] => false

def signLength : List Char → Nat
  | c :: _ => if c == '+' || c == '-' then 1 else 0
  | [] => 0

/-- The length of a point with the digits after it; a point that no digit follows is left. -/
def fractionLength : List Char → Nat
  | '.' :: r => if startsDigit r then digitsLength r + 1 else 0
  | _ => 0

/-- The length of an exponent; an `e` that no exponent follows is left for the unit. -/
def exponentLength : List Char → Nat
  | c :: r =>
    let signed := signLength r
    if (c == 'e' || c == 'E') && startsDigit (r.drop signed) then
      digitsLength (r.drop signed) + signed + 1
    else 0
  | [] => 0

/-- The length of what may follow the digits: a percent sign or a unit's name. -/
def unitLength (cs : List Char) : Nat :=
  match cs with
  | '%' :: _ => 1
  | _ => if startsName cs then nameLength 0 cs else 0

/-- Whether a number begins at the front of a text. -/
def startsNumber (cs : List Char) : Bool :=
  match cs.drop (signLength cs) with
  | '.' :: r => startsDigit r
  | r => startsDigit r

/-- The length of the number at the front of a text. -/
def numberLength (cs : List Char) : Nat :=
  let whole := signLength cs + digitsLength (cs.drop (signLength cs))
  let fraction := whole + fractionLength (cs.drop whole)
  let exponent := fraction + exponentLength (cs.drop fraction)
  exponent + unitLength (cs.drop exponent)

example : numberLength "-1.5e+3px;".toList = 9 := by decide

example : numberLength "1.e3".toList = 1 := by decide

example : numberLength "12%x".toList = 3 := by decide

end StylePack.Css.Token
