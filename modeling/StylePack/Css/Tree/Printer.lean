import StylePack.Css.Tree

/-! The text of a stylesheet: one node a line, four spaces of indentation for each open block. -/
namespace StylePack.Css.Tree

def indentation (depth : Nat) : String := String.ofList (List.replicate (4 * depth) ' ')

/-- The line of a comment, a declaration or an at-rule without a block, or the part of a line
that stands before a block. -/
def header : Kind → String
  | .root => ""
  | .comment text => "/* " ++ text ++ " */"
  | .declaration content => content.text ++ ";"
  | .rule selector => selector ++ " "
  | .atRule name params hasBlock =>
    "@" ++ name ++ (if params.isEmpty then "" else " " ++ params) ++ (if hasBlock then " " else ";")

/-- Whether the nodes below a node are written in a block after it; else they are not written. -/
def hasBody : Kind → Bool
  | .rule _ => true
  | .atRule _ _ hasBlock => hasBlock
  | _ => false

/-- A block around lines that are written already. -/
def block (depth : Nat) (lines : String) : String :=
  "\x7b" ++ (if lines.isEmpty then "" else "\n" ++ lines ++ indentation depth) ++ "\x7d"

mutual

def render (depth : Nat) : Tree Kind → String
  | node .root _ => ""
  | node kind children =>
    indentation depth ++ header kind ++
      (if hasBody kind then block depth (renderLines (depth + 1) children) else "")

def renderLines (depth : Nat) : List (Tree Kind) → String
  | [] => ""
  | t :: ts => render depth t ++ "\n" ++ renderLines depth ts

end

/-- The text of a whole stylesheet: its top nodes with a newline between them. -/
def renderAll (ts : List (Tree Kind)) : String := "\n".intercalate (ts.map (render 0))

example : renderAll [node (.rule ".a") [node (.declaration ⟨"b", "c", true⟩) []],
    node (.atRule "m" "p" true) [], node (.comment "k") []] =
    ".a \x7b\n    b: c !important;\n\x7d\n@m p \x7b\x7d\n/* k */" := by decide +kernel

end StylePack.Css.Tree
