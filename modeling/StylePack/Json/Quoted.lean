/-! Quoted strings in JSON: how a text is written between quotes, and how it is read. -/
namespace StylePack.Json.Quoted

def hexDigit (n : Nat) : Char := if n < 10 then Char.ofNat (n + '0'.toNat) else Char.ofNat (n + 87)

/-- One character between quotes. Quotes, backslashes and control characters are escaped. -/
def encodeChar (c : Char) : List Char :=
  match c with
  | '"' => ['\\', '"']
  | '\\' => ['\\', '\\']
  | '\n' => ['\\', 'n']
  | '\r' => ['\\', 'r']
  | '\t' => ['\\', 't']
  | '\x08' => ['\\', 'b']
  | '\x0C' => ['\\', 'f']
  | _ =>
    if c.toNat < 0x20 then ['\\', 'u', '0', '0', hexDigit (c.toNat / 16), hexDigit (c.toNat % 16)]
    else [c]

def encode (cs : List Char) : List Char := cs.flatMap encodeChar

/-- A string with its quotes. -/
def quote (s : String) : String := "\"" ++ String.ofList (encode s.toList) ++ "\""

def hexValue? (c : Char) : Option Nat :=
  if '0' ≤ c ∧ c ≤ '9' then some (c.toNat - '0'.toNat)
  else if 'a' ≤ c ∧ c ≤ 'f' then some (c.toNat - 'a'.toNat + 10)
  else if 'A' ≤ c ∧ c ≤ 'F' then some (c.toNat - 'A'.toNat + 10)
  else none

/-- The number that the first four hexadecimal digits give. -/
def hexUnit? : List Char → Option Nat
  | a :: b :: c :: d :: _ => do
    let a ← hexValue? a
    let b ← hexValue? b
    let c ← hexValue? c
    let d ← hexValue? d
    pure (((a * 16 + b) * 16 + c) * 16 + d)
  | _ => none

def isHighSurrogate (n : Nat) : Bool := 0xD800 ≤ n && n ≤ 0xDBFF

def isLowSurrogate (n : Nat) : Bool := 0xDC00 ≤ n && n ≤ 0xDFFF

/-- The character that four digits stand for, and how many characters after the `u` are read. A
surrogate counts only as the first half of a pair. -/
def unescapeUnit (r : List Char) : Option (Char × Nat) := do
  let n ← hexUnit? r
  if isLowSurrogate n then none
  else if isHighSurrogate n then
    match r.drop 4 with
    | '\\' :: 'u' :: r' =>
      let m ← hexUnit? r'
      if isLowSurrogate m then
        pure (Char.ofNat (0x10000 + (n - 0xD800) * 0x400 + (m - 0xDC00)), 10)
      else none
    | _ => none
  else pure (Char.ofNat n, 4)

/-- The character that the text after a backslash stands for, and how much of it is read. -/
def unescape : List Char → Option (Char × Nat)
  | [] => none
  | c :: r =>
    match c with
    | '"' => some ('"', 1)
    | '\\' => some ('\\', 1)
    | '/' => some ('/', 1)
    | 'b' => some ('\x08', 1)
    | 'f' => some ('\x0C', 1)
    | 'n' => some ('\n', 1)
    | 'r' => some ('\r', 1)
    | 't' => some ('\t', 1)
    | 'u' => (unescapeUnit r).map fun (e, n) => (e, n + 1)
    | _ => none

/-- The text up to the closing quote, and how much is read, the quote included. The first argument
counts the characters of an escape that are still to be passed over. -/
def decode : Nat → List Char → Option (List Char × Nat)
  | _, [] => none
  | skip + 1, _ :: r => (decode skip r).map fun (s, n) => (s, n + 1)
  | 0, c :: r =>
    if c = '"' then some ([], 1)
    else if c = '\\' then
      match unescape r with
      | some (e, skip) => (decode skip r).map fun (s, n) => (e :: s, n + 1)
      | none => none
    else if c.toNat < 0x20 then none
    else (decode 0 r).map fun (s, n) => (c :: s, n + 1)

example : quote "a\"\n\x01é" = "\"a\\\"\\n\\u0001é\"" := by decide

example : decode 0 "\\ud83d\\ude00\\u0041\" x".toList = some (['😀', 'A'], 19) := by decide

end StylePack.Json.Quoted
