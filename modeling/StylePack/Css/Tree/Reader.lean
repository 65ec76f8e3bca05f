import StylePack.Css.Token.Lexer
import StylePack.Css.Tree

/-! Reading a stylesheet. The reader takes one lexeme at a time and never fails: what it cannot
read as a rule, an at-rule, a declaration or a comment is dropped.

After an opening bracket the bracket's content is passed over, and it is counted to the lexeme
that follows the closing bracket. So a prelude that a `{` or `;` ends directly after a bracket
keeps the opening bracket only. -/
namespace StylePack.Css.Tree
open Text

/-- What is being read in the innermost open block. -/
inductive Mode
  /-- The space between the nodes of a block. -/
  | contents
  /-- An at-rule, with its name and its parameters so far. -/
  | atRule (name params : List Char)
  /-- A rule or a declaration, with its text so far. -/
  | prelude (text : List Char)
  deriving DecidableEq, Repr

/-- A reader part way through a text. -/
structure Reader where
  /-- The finished nodes of the innermost open block, the last one first. -/
  done : List (Tree Kind) := []
  /-- The open nodes, innermost first, each with the finished nodes before it, the last one
  first. -/
  outer : List (Kind × List (Tree Kind)) := []
  mode : Mode := .contents
  /-- The brackets that are being passed over, innermost first. -/
  skipping : List Bracket := []
  /-- The text that was passed over since the last lexeme. -/
  gap : List Char := []

namespace Reader

def add (r : Reader) (kind : Kind) : Reader := { r with done := node kind [] :: r.done }

/-- Adds the declaration that a text holds, if it holds one and a block is open. -/
def addDeclaration (r : Reader) (text : List Char) : Reader :=
  if r.outer.isEmpty then r
  else match Declaration.ofText? text with
    | some content => r.add (.declaration content)
    | none => r

def atRuleKind (name params : List Char) (hasBlock : Bool) : Kind :=
  .atRule (String.ofList name) (String.ofList (trim params)) hasBlock

/-- Opens the block of a node. -/
def enter (r : Reader) (kind : Kind) : Reader :=
  { r with done := [], outer := (kind, r.done) :: r.outer, mode := .contents, gap := [] }

/-- Closes the innermost open block. -/
def leave (r : Reader) : Reader :=
  match r.outer with
  | [] => r
  | (kind, before) :: outer => { r with done := node kind r.done.reverse :: before, outer := outer }

/-- Completes what is being read, at a semicolon or at the end of a block. At the end the text
that was passed over belongs to a declaration, at a semicolon it does not. -/
def complete (r : Reader) (passed : List Char) : Reader :=
  let r' := { r with mode := .contents, gap := [] }
  match r.mode with
  | .contents => r'
  | .atRule name params => r'.add (atRuleKind name params false)
  | .prelude text => r'.addDeclaration (text ++ passed)

/-- The brackets that are still open after a token inside brackets. -/
def bracketsAfter (inside : List Bracket) : Token → List Bracket
  | .opening b => b :: inside
  | .closing b => if inside.head? = some b then inside.tail else inside
  | _ => inside

/-- The brackets to pass over after a token. -/
def bracketsOf : Token → List Bracket
  | .opening b => [b]
  | _ => []

/-- Parameters with one more piece of source text; a blank piece leaves one space at most. -/
def addParams (params piece : List Char) : List Char :=
  if AllBlank piece then (if params.getLast? = some ' ' then params else params ++ [' '])
  else params ++ piece

/-- One lexeme outside of brackets that are passed over; `piece` is its text with the text that
was passed over before it. -/
def read (r : Reader) (token : Token) (piece : List Char) : Reader :=
  match r.mode, token with
  | .contents, .comment body => { r.add (.comment (String.ofList (trim body))) with gap := [] }
  | .contents, .atKeyword name => { r with mode := .atRule name [], gap := [] }
  | .contents, .opening .curly => { r with skipping := [.curly], gap := [] }
  | .contents, .opening b => { r with mode := .prelude piece, skipping := [b], gap := [] }
  | .contents, .other => { r with mode := .prelude piece, gap := [] }
  | .contents, _ => { r with gap := [] }
  | .atRule name params, .opening .curly => r.enter (atRuleKind name params true)
  | .prelude text, .opening .curly => r.enter (.rule (String.ofList (trim text)))
  | _, .semicolon => r.complete []
  | .atRule _ _, .comment _ => { r with gap := [] }
  | .atRule name params, token =>
    { r with mode := .atRule name (addParams params piece), skipping := bracketsOf token, gap := [] }
  | .prelude text, token =>
    { r with mode := .prelude (text ++ piece), skipping := bracketsOf token, gap := [] }

def step (r : Reader) (l : Lexeme) : Reader :=
  if r.skipping.isEmpty then
    if l.token = .closing .curly ∧ ¬ r.outer.isEmpty then (r.complete r.gap).leave
    else r.read l.token (r.gap ++ l.text)
  else { r with skipping := bracketsAfter r.skipping l.token, gap := r.gap ++ l.text }

/-- Closes the open blocks. -/
def closeAll (inner : List (Tree Kind)) : List (Kind × List (Tree Kind)) → List (Tree Kind)
  | [] => inner.reverse
  | (kind, before) :: outer => closeAll (node kind inner.reverse :: before) outer

/-- The nodes of the text, when nothing of it is left. -/
def finish (r : Reader) : List (Tree Kind) :=
  closeAll (r.complete r.gap).done r.outer

end Reader

/-- The nodes of a stylesheet's text. -/
def parse (css : String) : List (Tree Kind) :=
  ((Token.lexemes css.toList).foldl Reader.step {}).finish

end StylePack.Css.Tree
