import StylePack.Css.Tree.Printer
import StylePack.Proofs.Css.Declared
import StylePack.Proofs.Css.Reading

/-! Stylesheets that are written in tidy text: names, selectors, parameters and values are source
text that the reader keeps whole, and every node stands where it can be read. -/
namespace StylePack.Css
open Token Css.Tree

/-- Clean text without addresses and without blanks at its ends. -/
structure Neat (s : String) : Prop extends Clean s.toList where
  noUrl : ¬ HoldsUrl s.toList
  trimmed : Text.trim s.toList = s.toList

/-- A node that is written as it can be read, inside or outside of a block. -/
def Kind.Tidy (inBlock : Bool) : Kind → Prop
  | .root => False
  | .rule selector => Neat selector ∧ ∃ c r, selector.toList = c :: r ∧ Starts c
  | .atRule name params hasBlock => IsName name.toList ∧ Neat params ∧
      ¬ [' ', ' '] <:+: params.toList ∧ (hasBlock = false → params.toList.getLast? ≠ some ')')
  | .declaration d => inBlock = true ∧ IsName d.property.toList ∧ Neat d.value ∧
      '!' ∉ d.value.toList ∧ d.value.toList.getLast? ≠ some ')'
  | .comment text => ¬ ['*', '/'] <:+: text.toList ∧ Text.trim text.toList = text.toList

mutual

/-- A tidy node with tidy nodes below it; only a node with a block has nodes below it. -/
def Tree.Tidy (inBlock : Bool) : Tree Kind → Prop
  | node kind children =>
    kind.Tidy inBlock ∧ (hasBody kind = false → children = []) ∧ AllTidy true children

def Tree.AllTidy (inBlock : Bool) : List (Tree Kind) → Prop
  | [] => True
  | t :: ts => t.Tidy inBlock ∧ AllTidy inBlock ts

end

namespace Neat
variable {s : String}

/-- A neat text has no space at its front. -/
theorem head_ne (h : Neat s) : s.toList.head? ≠ some ' ' := by
  intro hs
  obtain ⟨r, hr⟩ : ∃ r, s.toList = ' ' :: r := by
    rcases hl : s.toList with _ | ⟨c, r⟩
    · simp [hl] at hs
    · exact ⟨r, by simpa [hl] using hs⟩
  have hlength := congrArg List.length h.trimmed
  rw [hr, Text.trim_cons_blank (by decide), List.length_cons] at hlength
  have hle := (Text.trim_isInfix r).length_le
  omega

theorem last_ne (h : Neat s) : s.toList.getLast? ≠ some ' ' := by
  intro hs
  obtain ⟨r, hr⟩ := List.getLast?_eq_some_iff.mp hs
  have hlength := congrArg List.length h.trimmed
  rw [hr, Text.trim_append_blank (by decide), List.length_append, List.length_singleton] at hlength
  have hle := (Text.trim_isInfix r).length_le
  omega

theorem firm (h : Neat s) (hlast : s.toList.getLast? ≠ some ')') : Firm s.toList :=
  ⟨h.toClean, h.noUrl, hlast⟩

/-- A space behind a neat text makes it firm. -/
theorem append_space (h : Neat s) : Firm (s.toList ++ [' ']) :=
  Firm.join h.toClean h.noUrl Firm.nil (by decide) (by decide) (by decide)

end Neat

end StylePack.Css
