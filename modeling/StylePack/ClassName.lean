import StylePack.Text.Blank

/-! The class names in a selector list. -/
namespace StylePack.ClassName
open Text

/-- The characters of a class name. -/
def isPart (c : Char) : Bool :=
  ('a' ≤ c && c ≤ 'z') || ('A' ≤ c && c ≤ 'Z') || ('0' ≤ c && c ≤ '9') || c == '_' || c == '-'

/-- The names that directly follow a point, in order; a point that no name follows gives none. -/
def dotted : List Char → List (List Char)
  | [] => []
  | c :: r =>
    if c = '.' ∧ r.takeWhile isPart ≠ [] then r.takeWhile isPart :: dotted r else dotted r

/-- A list without the later copies of what stands in it before. -/
def firstSeen {α : Type} [DecidableEq α] : List α → List α
  | [] => []
  | x :: xs => x :: (firstSeen xs).filter (· ≠ x)

/-- The selectors of a list that are not blank, trimmed. -/
def branches (selector : List Char) : List (List Char) :=
  ((splitWhere (· == ',') selector).map trim).filter (!·.isEmpty)

/-- The class names of a selector list, each once, in the order in which they come. -/
def inSelector (selector : String) : List String :=
  firstSeen (((branches selector.toList).flatMap dotted).map String.ofList)

theorem isPart_dot : isPart '.' = false := by decide

theorem isPart_comma : isPart ',' = false := by decide

@[simp] theorem dotted_nil : dotted [] = [] := rfl

theorem mem_firstSeen {α : Type} [DecidableEq α] {x : α} {xs : List α} :
    x ∈ firstSeen xs ↔ x ∈ xs := by
  induction xs with
  | nil => simp [firstSeen]
  | cons y ys ih => by_cases h : x = y <;> simp [firstSeen, h, ih]

theorem nodup_firstSeen {α : Type} [DecidableEq α] (xs : List α) : (firstSeen xs).Nodup := by
  induction xs with
  | nil => simp [firstSeen]
  | cons y ys ih =>
    rw [firstSeen, List.nodup_cons]
    exact ⟨by simp, ih.filter _⟩

theorem firstSeen_of_nodup {α : Type} [DecidableEq α] {xs : List α} (h : xs.Nodup) :
    firstSeen xs = xs := by
  induction xs with
  | nil => rfl
  | cons y ys ih =>
    rw [List.nodup_cons] at h
    rw [firstSeen, ih h.2, List.filter_eq_self.2]
    intro z hz
    have : z ≠ y := fun he => h.1 (he ▸ hz)
    simpa using this

example : inSelector ".a > .b-1:hover, p.a::after .c" = ["a", "b-1", "c"] := by decide

end StylePack.ClassName
