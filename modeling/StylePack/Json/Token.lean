import StylePack.Json.Numeral
import StylePack.Json.Quoted

/-! The tokens of JSON text. -/
namespace StylePack.Json

inductive Token
  | openObject
  | closeObject
  | openArray
  | closeArray
  | comma
  | colon
  | null
  | bool (value : Bool)
  | number (value : Numeral)
  | string (value : String)
  deriving DecidableEq, Repr

namespace Token

def isSpace (c : Char) : Bool := c == ' ' || c == '\t' || c == '\r' || c == '\n'

/-- A literal whose first letter was read already. -/
def literal (rest : String) (token : Token) (r : List Char) : Option (Token × Nat) :=
  if rest.toList.isPrefixOf r then some (token, rest.length) else none

/-- The token at the front of `c :: r`, and how much of `r` belongs to it. -/
def first (c : Char) (r : List Char) : Option (Token × Nat) :=
  match c with
  | '{' => some (.openObject, 0)
  | '}' => some (.closeObject, 0)
  | '[' => some (.openArray, 0)
  | ']' => some (.closeArray, 0)
  | ',' => some (.comma, 0)
  | ':' => some (.colon, 0)
  | '"' => (Quoted.decode 0 r).map fun (s, n) => (.string (String.ofList s), n)
  | 'n' => literal "ull" .null r
  | 't' => literal "rue" (.bool true) r
  | 'f' => literal "alse" (.bool false) r
  | _ =>
    match Numeral.scan (c :: r) with
    | some (x, n) => if x.inRange then some (.number x, n - 1) else none
    | none => none

/-- The tokens of a text; the first argument counts the characters that the last token still
takes. -/
def scanFrom : Nat → List Char → Option (List Token)
  | _, [] => some []
  | skip + 1, _ :: r => scanFrom skip r
  | 0, c :: r =>
    if isSpace c then scanFrom 0 r
    else match first c r with
      | some (t, n) => (scanFrom n r).map (t :: ·)
      | none => none

def scan (cs : List Char) : Option (List Token) := scanFrom 0 cs

theorem scanFrom_eq (skip : Nat) (cs : List Char) : scanFrom skip cs = scan (cs.drop skip) := by
  induction cs generalizing skip with
  | nil => simp [scanFrom, scan]
  | cons c r ih =>
    cases skip with
    | zero => rfl
    | succ n => simp [scanFrom, ih]

theorem scan_space {c : Char} (h : isSpace c = true) (r : List Char) : scan (c :: r) = scan r := by
  simp [scan, scanFrom, h]

/-- A token is cut off the front of a text; the rest is scanned on its own. -/
theorem scan_cons {c : Char} {r : List Char} {t : Token} {n : Nat} (hs : isSpace c = false)
    (h : first c r = some (t, n)) : scan (c :: r) = (scan (r.drop n)).map (t :: ·) := by
  rw [← scanFrom_eq]
  simp [scan, scanFrom, hs, h]

end Token
end StylePack.Json
