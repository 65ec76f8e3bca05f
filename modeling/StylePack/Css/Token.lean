/-! The tokens of CSS text, as coarse as the reader of a stylesheet needs them. Names, numbers,
quoted strings, addresses and single delimiters are all one kind of token. -/
namespace StylePack.Css

/-- The three pairs of brackets. -/
inductive Bracket
  | curly
  | square
  | round
  deriving DecidableEq, Repr

inductive Token
  /-- A run of CSS whitespace. -/
  | blank
  /-- A comment, with the text between its marks. -/
  | comment (body : List Char)
  /-- `@` and a name, with the name's escapes resolved. -/
  | atKeyword (name : List Char)
  | semicolon
  /-- An opening bracket; a name directly followed by `(` opens a round one. -/
  | opening (bracket : Bracket)
  | closing (bracket : Bracket)
  /-- One of the two marks `<!--` and `-->`. -/
  | mark
  /-- Any other token. -/
  | other
  deriving DecidableEq, Repr

/-- A token and the piece of the source that it was read from. -/
structure Lexeme where
  token : Token
  text : List Char
  deriving DecidableEq, Repr

/-- The source text of a run of lexemes. -/
def Lexeme.source (lexemes : List Lexeme) : List Char := lexemes.flatMap Lexeme.text

@[simp] theorem Lexeme.source_nil : Lexeme.source [] = [] := rfl

@[simp] theorem Lexeme.source_cons (l : Lexeme) (ls : List Lexeme) :
    Lexeme.source (l :: ls) = l.text ++ Lexeme.source ls := rfl

@[simp] theorem Lexeme.source_append (ls ms : List Lexeme) :
    Lexeme.source (ls ++ ms) = Lexeme.source ls ++ Lexeme.source ms := by
  simp [Lexeme.source]

end StylePack.Css
