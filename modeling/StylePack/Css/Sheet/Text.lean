import StylePack.Css.Sheet.Edit
import StylePack.Css.Tree.Printer
import StylePack.Css.Tree.Reader

/-! Sheets from text and back. -/
namespace StylePack.Css.Sheet

/-- Reads a stylesheet; nothing is refused. -/
def parse (css : String) : Sheet := ofTrees (Tree.parse css)

/-- The text of what belongs to the stylesheet. -/
def toCss (s : Sheet) : String := Tree.renderAll s.contents

end StylePack.Css.Sheet
