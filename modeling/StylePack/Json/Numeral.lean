import StylePack.Rounding

/-! Numbers as they are written in JSON, and which of them a double-precision number can hold. -/
namespace StylePack.Json

/-- The digits of a number: before the point, after it, and of the exponent. -/
structure Numeral where
  negative : Bool
  whole : List Char
  fraction : List Char
  negativeExponent : Bool
  exponent : List Char
  deriving DecidableEq, Repr, Inhabited

namespace Numeral

def isDigit (c : Char) : Bool := '0' ≤ c && c ≤ '9'

def digit (c : Char) : Nat := c.toNat - '0'.toNat

def digits (cs : List Char) : List Char := cs.takeWhile isDigit

/-- The digits before the point: a zero stands alone. -/
def scanWhole (cs : List Char) : Option (List Char) :=
  match digits cs with
  | [] => none
  | '0' :: _ => some ['0']
  | ds => some ds

/-- The digits after a point, if there is a point; at least one must follow it. -/
def scanFraction : List Char → Option (List Char × Nat)
  | '.' :: r => if (digits r).isEmpty then none else some (digits r, (digits r).length + 1)
  | _ => some ([], 0)

/-- The sign and the digits of an exponent, if there is one; at least one digit must follow. -/
def scanExponent : List Char → Option (Bool × List Char × Nat)
  | [] => some (false, [], 0)
  | c :: r =>
    if c == 'e' || c == 'E' then
      let signed := match r with
        | s :: _ => if s == '+' || s == '-' then 1 else 0
        | [] => 0
      let ds := digits (r.drop signed)
      if ds.isEmpty then none else some (r.head? = some '-', ds, ds.length + signed + 1)
    else some (false, [], 0)

/-- The number at the front of a text, and its length. -/
def scan (cs : List Char) : Option (Numeral × Nat) := do
  let negative := cs.head? = some '-'
  let sign := if negative then 1 else 0
  let whole ← scanWhole (cs.drop sign)
  let point := sign + whole.length
  let (fraction, fractionLength) ← scanFraction (cs.drop point)
  let mark := point + fractionLength
  let (negativeExponent, exponent, exponentLength) ← scanExponent (cs.drop mark)
  pure (⟨negative, whole, fraction, negativeExponent, exponent⟩, mark + exponentLength)

def maxSignificand : Nat := (1 <<< 64) - 1

/-- The leading digits as one number, and how many digits no longer fit into it. -/
def significand (whole : List Char) : Nat × Nat :=
  whole.foldl (fun (n, dropped) c =>
    if dropped > 0 ∨ maxSignificand < n * 10 + digit c then (n, dropped + 1)
    else (n * 10 + digit c, 0)) (0, 0)

/-- A significand with the digits after the point that still fit, and how many they are. -/
def addFraction (n : Nat) : List Char → Nat × Nat
  | [] => (n, 0)
  | c :: r =>
    if maxSignificand < n * 10 + digit c then (n, 0)
    else
      let (m, scale) := addFraction (n * 10 + digit c) r
      (m, scale + 1)

def value (ds : List Char) : Nat := ds.foldl (fun n c => n * 10 + digit c) 0

/-- The smallest number that is rounded to infinity. -/
def overflowLimit : Nat := (1 <<< 1024) - (1 <<< 970)

/-- Whether a double-precision number holds `n · 10 ^ exponent`, computed as the product of the two
rounded factors. -/
def fits (n : Nat) (exponent : Int) : Bool :=
  if n = 0 ∨ exponent < 0 then true
  else if 308 < exponent then false
  else Rounding.toBits 53 n * Rounding.toBits 53 (Nat.pow 10 exponent.toNat) < overflowLimit

/-- Whether a double-precision number can hold the number. Digits beyond the first nineteen or
twenty count by their place only. -/
def inRange (x : Numeral) : Bool :=
  let (n, dropped) := significand x.whole
  let (n, scale) := addFraction n x.fraction
  let exponent := value x.exponent
  if exponent < 1 <<< 31 then
    let shift : Int := if x.negativeExponent then -(exponent : Int) else exponent
    fits n (dropped - scale + shift)
  else n = 0 ∨ x.negativeExponent

example : (scan "-12.5e+3]".toList).map Prod.snd = some 8 := by decide

example : (["1e308", "1e309", "0e999", "1.7976931348623157e308", "1e-999"].filterMap
    fun s => (scan s.toList).map (inRange ·.1)) = [true, false, true, true, true] := by
  decide +kernel

end Numeral
end StylePack.Json
