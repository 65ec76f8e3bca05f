/-! Blank characters and what depends on them: trimming a text and cutting it into words. -/
namespace StylePack.Text

/-- The characters with the Unicode property White_Space. -/
def isBlank (c : Char) : Bool :=
  let n := c.toNat
  (0x09 ≤ n && n ≤ 0x0D) || n == 0x20 || n == 0x85 || n == 0xA0 || n == 0x1680
    || (0x2000 ≤ n && n ≤ 0x200A) || n == 0x2028 || n == 0x2029 || n == 0x202F || n == 0x205F
    || n == 0x3000

def trimStart (cs : List Char) : List Char := cs.dropWhile isBlank

def trimEnd (cs : List Char) : List Char := (cs.reverse.dropWhile isBlank).reverse

/-- A text without the blanks at either end. -/
def trim (cs : List Char) : List Char := trimEnd (trimStart cs)

/-- Nothing is left of the text once it is trimmed. -/
def AllBlank (cs : List Char) : Bool := cs.all isBlank

/-- The text cut at every character that satisfies `p`; neighbouring cuts leave empty pieces. -/
def splitWhere (p : Char → Bool) : List Char → List (List Char)
  | [] => [[]]
  | c :: r =>
    if p c then [] :: splitWhere p r
    else match splitWhere p r with
      | [] => [[c]]
      | piece :: pieces => (c :: piece) :: pieces

/-- The maximal runs of characters that are not blank. -/
def words (cs : List Char) : List (List Char) := (splitWhere isBlank cs).filter (!·.isEmpty)

/-- The parts before and after the first `mark`. -/
def splitFirst (mark : Char) (cs : List Char) : Option (List Char × List Char) :=
  match cs.dropWhile (· != mark) with
  | [] => none
  | _ :: after => some (cs.takeWhile (· != mark), after)

/-- The parts before and after the last `mark`. -/
def splitLast (mark : Char) (cs : List Char) : Option (List Char × List Char) :=
  (splitFirst mark cs.reverse).map fun (after, before) => (before.reverse, after.reverse)

theorem splitWhere_ne_nil (p : Char → Bool) (cs : List Char) : splitWhere p cs ≠ [] := by
  cases cs with
  | nil => simp [splitWhere]
  | cons c r =>
    simp only [splitWhere]
    split
    · simp
    · split <;> simp

/-- Cutting loses only the characters it cuts at. -/
theorem flatten_splitWhere (p : Char → Bool) (cs : List Char) :
    (splitWhere p cs).flatten = cs.filter (!p ·) := by
  induction cs with
  | nil => rfl
  | cons c r ih =>
    simp only [splitWhere]
    by_cases hc : p c
    · simp [hc, ih]
    · cases hs : splitWhere p r with
      | nil => exact absurd hs (splitWhere_ne_nil p r)
      | cons piece pieces => simp_all

/-- The blanks of a text trimmed off at both ends; also the form for string values. -/
def trimmed (s : String) : String := String.ofList (trim s.toList)

/-- Whether a string holds nothing but blanks. -/
def isBlankText (s : String) : Bool := AllBlank s.toList

/-- The words of a string, as strings. -/
def wordsOf (s : String) : List String := (words s.toList).map String.ofList

example : wordsOf " a \t b\u00a0c " = ["a", "b", "c"] := by decide

end StylePack.Text
