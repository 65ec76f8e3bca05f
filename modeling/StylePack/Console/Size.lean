import StylePack.Console.Paint
import StylePack.Rounding

/-! File sizes in kilobytes, and the lines of a package list. -/
namespace StylePack.Console

/-- How a number is written with one digit after the point, given in tenths. -/
def tenths (n : Nat) : String := toString (n / 10) ++ "." ++ toString (n % 10)

/-- A number of bytes in kilobytes with one digit after the point. The number is held to 53
significant bits; of two digits equally near the even one is written. -/
def kilobytes (bytes : Nat) : String :=
  tenths (Rounding.divide (Rounding.toBits 53 bytes * 10) 1024) ++ "kb"

/-- The line of a package in the list of installed packages. -/
def packageLine (colored : Bool) (name : String) (bytes : Nat) : String :=
  if colored then paint .magenta name ++ "\t" ++ paint .brightBlack (kilobytes bytes)
  else name ++ "\t" ++ kilobytes bytes

example : [0, 1536, 2048, 256].map kilobytes = ["0.0kb", "1.5kb", "2.0kb", "0.2kb"] := by decide

end StylePack.Console
