/-! Rounding of natural numbers to the nearest, where a tie goes to the even neighbour. -/
namespace StylePack.Rounding

/-- The quotient of `a` by `b`, rounded to the nearest number; a half goes to the even one. -/
def divide (a b : Nat) : Nat :=
  let q := a / b
  let r := a % b
  if 2 * r < b then q else if b < 2 * r then q + 1 else q + q % 2

/-- The nearest number with at most `bits` significant bits. -/
def toBits (bits n : Nat) : Nat :=
  let dropped := n.log2 + 1 - bits
  divide n (1 <<< dropped) <<< dropped

example : [divide 5 2, divide 7 2, divide 1 3] = [2, 4, 0] := by decide

example : toBits 3 11 = 12 := by decide

end StylePack.Rounding
