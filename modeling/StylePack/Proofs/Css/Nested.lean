import StylePack.Css.Tree.Printer
import StylePack.Css.Tree.Reader

/-! Where the reader puts nodes. Only rules and at-rules with a block have nodes below them, and no
declaration stands outside of a block. -/
namespace StylePack.Css.Tree

mutual

/-- Only nodes with a block have nodes below them. -/
def Blocked : Tree Kind → Prop
  | node kind children => (children ≠ [] → hasBody kind = true) ∧ AllBlocked children

def AllBlocked : List (Tree Kind) → Prop
  | [] => True
  | t :: ts => t.Blocked ∧ AllBlocked ts

end

theorem allBlocked_iff {ts : List (Tree Kind)} : AllBlocked ts ↔ ∀ t ∈ ts, t.Blocked := by
  induction ts with
  | nil => simp [AllBlocked]
  | cons t ts ih => simp [AllBlocked, ih]

theorem AllBlocked.reverse {ts : List (Tree Kind)} (h : AllBlocked ts) : AllBlocked ts.reverse := by
  simpa [allBlocked_iff] using h

theorem blocked_leaf (kind : Kind) : Blocked (node kind []) := by
  simp [Blocked, AllBlocked]

/-- The nodes that are finished in the outermost of the open blocks hold no declaration. -/
def NoneDeclared : List (Tree Kind) → List (Kind × List (Tree Kind)) → Prop
  | done, [] => ∀ t ∈ done, t.label.declaration? = none
  | _, (_, before) :: outer => NoneDeclared before outer

theorem NoneDeclared.cons {t : Tree Kind} {done : List (Tree Kind)}
    {outer : List (Kind × List (Tree Kind))} (h : NoneDeclared done outer)
    (ht : outer = [] → t.label.declaration? = none) : NoneDeclared (t :: done) outer := by
  cases outer with
  | nil =>
    intro u hu
    rcases List.mem_cons.mp hu with rfl | hu
    · exact ht rfl
    · exact h u hu
  | cons f outer => exact h

theorem declaration?_of_hasBody {kind : Kind} (h : hasBody kind = true) :
    kind.declaration? = none := by
  cases kind <;> simp_all [hasBody, Kind.declaration?]

theorem NoneDeclared.close {kind : Kind} {inner before : List (Tree Kind)}
    {outer : List (Kind × List (Tree Kind))} (h : NoneDeclared before outer)
    (hk : hasBody kind = true) : NoneDeclared (node kind inner :: before) outer :=
  h.cons fun _ => declaration?_of_hasBody hk

namespace Reader

/-- The nodes of a reader, finished or open, stand where they may. -/
structure Nested (r : Reader) : Prop where
  done : AllBlocked r.done
  outer : ∀ f ∈ r.outer, hasBody f.1 = true ∧ AllBlocked f.2
  top : NoneDeclared r.done r.outer

variable {r : Reader}

theorem Nested.add {kind : Kind} (h : r.Nested) (hk : r.outer = [] → kind.declaration? = none) :
    (r.add kind).Nested :=
  ⟨⟨blocked_leaf kind, h.done⟩, h.outer, h.top.cons hk⟩

theorem Nested.addDeclaration (h : r.Nested) (text : List Char) :
    (r.addDeclaration text).Nested := by
  unfold Reader.addDeclaration
  split
  · exact h
  · next ho =>
    split
    · exact h.add fun hnil => absurd (List.isEmpty_iff.mpr hnil) ho
    · exact h

theorem Nested.enter {kind : Kind} (h : r.Nested) (hk : hasBody kind = true) :
    (r.enter kind).Nested := by
  refine ⟨trivial, fun f hf => ?_, h.top⟩
  rcases List.mem_cons.mp hf with rfl | hf
  · exact ⟨hk, h.done⟩
  · exact h.outer f hf

/-- A node that is closed may have had nodes in it. -/
theorem blocked_close {kind : Kind} {inner : List (Tree Kind)} (hk : hasBody kind = true)
    (hi : AllBlocked inner) : Blocked (node kind inner.reverse) :=
  ⟨fun _ => hk, hi.reverse⟩

theorem Nested.leave (h : r.Nested) : r.leave.Nested := by
  have htop := h.top
  unfold Reader.leave
  split
  · exact h
  · next kind before outer ho =>
    obtain ⟨hk, hbefore⟩ := h.outer (kind, before) (by simp [ho])
    rw [ho] at htop
    exact ⟨⟨blocked_close hk h.done, hbefore⟩, fun f hf => h.outer f (by simp [ho, hf]),
      NoneDeclared.close htop hk⟩

@[simp] theorem complete_outer (r : Reader) (passed : List Char) :
    (r.complete passed).outer = r.outer := by
  unfold Reader.complete Reader.addDeclaration
  dsimp only
  split
  · rfl
  · rfl
  · split
    · rfl
    · split <;> rfl

theorem Nested.complete (h : r.Nested) (passed : List Char) : (r.complete passed).Nested := by
  have h' : Nested { r with mode := .contents, gap := [] } := ⟨h.done, h.outer, h.top⟩
  unfold Reader.complete
  dsimp only
  split
  · exact h'
  · exact h'.add fun _ => rfl
  · exact h'.addDeclaration _

theorem Nested.read (h : r.Nested) (token : Token) (piece : List Char) :
    (r.read token piece).Nested := by
  unfold Reader.read
  split
  · next body _ =>
    have hadd : (r.add (.comment (String.ofList (Text.trim body)))).Nested := h.add fun _ => rfl
    exact ⟨hadd.done, hadd.outer, hadd.top⟩
  all_goals first
    | exact ⟨h.done, h.outer, h.top⟩
    | exact h.enter rfl
    | exact h.complete []

theorem Nested.step (h : r.Nested) (l : Lexeme) : (r.step l).Nested := by
  unfold Reader.step
  split
  · split
    · exact (h.complete _).leave
    · exact h.read _ _
  · exact ⟨h.done, h.outer, h.top⟩

theorem Nested.run (h : r.Nested) (ls : List Lexeme) : (ls.foldl Reader.step r).Nested := by
  induction ls generalizing r with
  | nil => exact h
  | cons l ls ih => exact ih (h.step l)

theorem closeAll_nested {inner : List (Tree Kind)} {outer : List (Kind × List (Tree Kind))}
    (hi : AllBlocked inner) (ho : ∀ f ∈ outer, hasBody f.1 = true ∧ AllBlocked f.2)
    (htop : NoneDeclared inner outer) :
    AllBlocked (closeAll inner outer) ∧
      ∀ t ∈ closeAll inner outer, t.label.declaration? = none := by
  induction outer generalizing inner with
  | nil => exact ⟨hi.reverse, fun t ht => htop t (List.mem_reverse.mp ht)⟩
  | cons f outer ih =>
    obtain ⟨hk, hbefore⟩ := ho f List.mem_cons_self
    exact ih ⟨blocked_close hk hi, hbefore⟩ (fun g hg => ho g (List.mem_cons_of_mem f hg))
      (NoneDeclared.close htop hk)

end Reader

/-- In a stylesheet that was read only blocks have nodes in them, and no declaration stands outside
of one. -/
theorem nested_parse (css : String) :
    AllBlocked (parse css) ∧ ∀ t ∈ parse css, t.label.declaration? = none := by
  have hstart : ({} : Reader).Nested :=
    ⟨trivial, fun _ hf => absurd hf List.not_mem_nil, fun _ ht => absurd ht List.not_mem_nil⟩
  have h := hstart.run (Token.lexemes css.toList)
  have hc := h.complete (List.foldl Reader.step {} (Token.lexemes css.toList)).gap
  exact Reader.closeAll_nested hc.done h.outer (by simpa using hc.top)

end StylePack.Css.Tree
