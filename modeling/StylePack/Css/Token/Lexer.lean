import StylePack.Css.Token
import StylePack.Css.Token.Number
import StylePack.Css.Token.Quoted
import StylePack.Css.Token.Address
import StylePack.Text.AsciiCase

/-! Cutting CSS text into tokens. Every text can be cut, and the pieces put together again give
the text back (`source_lexemes`). -/
namespace StylePack.Css.Token

/-- The token that begins with the name at the front of `c :: r`, and how much of `r` belongs to
it: the name alone, a name that opens a bracket, or a whole unquoted address. -/
def nameLike (c : Char) (r : List Char) : Token × Nat :=
  let length := nameLength 0 (c :: r) - 1
  match r.drop length with
  | '(' :: inner =>
    if Text.sameLetters (nameValue 0 (c :: r)) ['u', 'r', 'l'] then
      match addressLength inner with
      | some n => (.other, length + 1 + n)
      | none => (.opening .round, length + 1)
    else (.opening .round, length + 1)
  | _ => (.other, length)

/-- Whether a hyphen followed by `r` is the mark `-->`. -/
def closesMark (r : List Char) : Bool := r.take 2 == ['-', '>']

/-- Whether `<` followed by `r` is the mark `<!--`. -/
def opensMark (r : List Char) : Bool := r.take 3 == ['!', '-', '-']

/-- The token at the front of `c :: r`, and how much of `r` belongs to it. -/
def first (c : Char) (r : List Char) : Token × Nat :=
  match c with
  | ';' => (.semicolon, 0)
  | '{' => (.opening .curly, 0)
  | '}' => (.closing .curly, 0)
  | '(' => (.opening .round, 0)
  | ')' => (.closing .round, 0)
  | '[' => (.opening .square, 0)
  | ']' => (.closing .square, 0)
  | '"' => (.other, stringLength '"' 0 r)
  | '\'' => (.other, stringLength '\'' 0 r)
  | '#' => (.other, nameLength 0 r)
  | '/' =>
    match r with
    | '*' :: inner => (.comment (commentBody inner), (commentBody inner).length + 3)
    | _ => (.other, 0)
  | '@' => if startsName r then (.atKeyword (nameValue 0 r), nameLength 0 r) else (.other, 0)
  | '<' => if opensMark r then (.mark, 3) else (.other, 0)
  | '-' =>
    if startsNumber (c :: r) then (.other, numberLength (c :: r) - 1)
    else if closesMark r then (.mark, 2)
    else if startsName (c :: r) then nameLike c r
    else (.other, 0)
  | '$' | '*' | '^' | '|' | '~' => (.other, if r.head? = some '=' then 1 else 0)
  | _ =>
    if isSpace c then (.blank, (r.takeWhile isSpace).length)
    else if startsNumber (c :: r) then (.other, numberLength (c :: r) - 1)
    else if startsName (c :: r) then nameLike c r
    else (.other, 0)

/-- The lexemes of a text; the first argument counts the characters that the last token still
takes. -/
def lexemesFrom : Nat → List Char → List Lexeme
  | _, [] => []
  | skip + 1, _ :: r => lexemesFrom skip r
  | 0, c :: r => ⟨(first c r).1, c :: r.take (first c r).2⟩ :: lexemesFrom (first c r).2 r

def lexemes (cs : List Char) : List Lexeme := lexemesFrom 0 cs

@[simp] theorem lexemes_nil : lexemes [] = [] := rfl

theorem lexemesFrom_eq (skip : Nat) (cs : List Char) :
    lexemesFrom skip cs = lexemes (cs.drop skip) := by
  induction cs generalizing skip with
  | nil => simp [lexemesFrom]
  | cons c r ih =>
    cases skip with
    | zero => rfl
    | succ n => simp [lexemesFrom, ih]

/-- A text that is not empty begins with one token; the rest is cut on its own. -/
theorem lexemes_cons (c : Char) (r : List Char) :
    lexemes (c :: r) =
      ⟨(first c r).1, c :: r.take (first c r).2⟩ :: lexemes (r.drop (first c r).2) := by
  rw [lexemes, lexemesFrom, lexemesFrom_eq]

theorem source_lexemesFrom (skip : Nat) (cs : List Char) :
    Lexeme.source (lexemesFrom skip cs) = cs.drop skip := by
  fun_induction lexemesFrom skip cs <;> simp_all

/-- No character of the text is lost. -/
theorem source_lexemes (cs : List Char) : Lexeme.source (lexemes cs) = cs := by
  rw [lexemes, source_lexemesFrom, List.drop_zero]

example : (lexemes "a:url( x )!;".toList).map (·.text.length) = [1, 1, 8, 1, 1] := by decide

example : (lexemes "@use/* k */ x\x7b".toList).map Lexeme.token =
    [.atKeyword ['u', 's', 'e'], .comment " k ".toList, .blank, .other, .opening .curly] := by
  decide

end StylePack.Css.Token
