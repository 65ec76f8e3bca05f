/-! From bytes to text. Whatever is wrong in the bytes becomes a replacement character, so every
sequence of bytes has a text. -/
namespace StylePack

inductive Charset
  | utf8
  | utf16LittleEndian
  | utf16BigEndian
  | windows1252
  deriving DecidableEq, Repr

namespace Charset

def replacement : Char := '\ufffd'

/-- A character of UTF-8 of which not all bytes have come: its code point so far, how many bytes
are missing, and the bounds of the next one. -/
structure Unfinished where
  point : Nat
  missing : Nat
  low : Nat := 0x80
  high : Nat := 0xBF
  deriving DecidableEq, Repr

/-- The first byte of a character. Bounds on the second byte keep out overlong forms, surrogates
and what is beyond the last code point. -/
def start (b : Nat) : List Char × Option Unfinished :=
  if b < 0x80 then ([Char.ofNat b], none)
  else if b < 0xC2 then ([replacement], none)
  else if b < 0xE0 then ([], some { point := b - 0xC0, missing := 1 })
  else if b < 0xF0 then
    ([], some ⟨b - 0xE0, 2, if b = 0xE0 then 0xA0 else 0x80, if b = 0xED then 0x9F else 0xBF⟩)
  else if b < 0xF5 then
    ([], some ⟨b - 0xF0, 3, if b = 0xF0 then 0x90 else 0x80, if b = 0xF4 then 0x8F else 0xBF⟩)
  else ([replacement], none)

/-- A further byte. One that does not fit ends the unfinished character and starts another. -/
def next (u : Unfinished) (b : Nat) : List Char × Option Unfinished :=
  if u.low ≤ b ∧ b ≤ u.high then
    let point := u.point * 64 + (b - 0x80)
    if u.missing ≤ 1 then ([Char.ofNat point], none)
    else ([], some { point := point, missing := u.missing - 1 })
  else
    let (cs, u) := start b
    (replacement :: cs, u)

def decodeUtf8 : Option Unfinished → List Nat → List Char
  | none, [] => []
  | some _, [] => [replacement]
  | u, b :: bs =>
    let (cs, u) := (u.map (next · b)).getD (start b)
    cs ++ decodeUtf8 u bs

/-- The bytes two by two; an odd one at the end is no unit. -/
def units (unit : Nat → Nat → Nat) : List Nat → List (Option Nat)
  | [] => []
  | [_] => [none]
  | a :: b :: bs => some (unit a b) :: units unit bs

/-- What a unit of UTF-16 adds after a high surrogate, or after none. A low surrogate makes one
character with the high one before it; a surrogate without its other half stands for nothing. -/
def nextUnit (high : Option Nat) (unit : Option Nat) : List Char × Option Nat :=
  let lost := if high.isSome then [replacement] else []
  match high, unit with
  | _, none => ([replacement], none)
  | some h, some u =>
    if 0xDC00 ≤ u ∧ u < 0xE000 then
      ([Char.ofNat (0x10000 + (h - 0xD800) * 1024 + (u - 0xDC00))], none)
    else if 0xD800 ≤ u ∧ u < 0xDC00 then (lost, some u)
    else (lost ++ [Char.ofNat u], none)
  | none, some u =>
    if 0xD800 ≤ u ∧ u < 0xDC00 then ([], some u)
    else if 0xDC00 ≤ u ∧ u < 0xE000 then ([replacement], none)
    else ([Char.ofNat u], none)

/-- Text from units of UTF-16. -/
def decodeUnits : Option Nat → List (Option Nat) → List Char
  | none, [] => []
  | some _, [] => [replacement]
  | high, unit :: us =>
    let (cs, high) := nextUnit high unit
    cs ++ decodeUnits high us

/-- The characters of Windows-1252 from 0x80 to 0x9F; the others are those of Latin-1. -/
def windowsTable : List Nat :=
  [0x20AC, 0x81, 0x201A, 0x192, 0x201E, 0x2026, 0x2020, 0x2021, 0x2C6, 0x2030, 0x160, 0x2039, 0x152,
    0x8D, 0x17D, 0x8F, 0x90, 0x2018, 0x2019, 0x201C, 0x201D, 0x2022, 0x2013, 0x2014, 0x2DC, 0x2122,
    0x161, 0x203A, 0x153, 0x9D, 0x17E, 0x178]

def windowsChar (b : Nat) : Char :=
  Char.ofNat (if 0x80 ≤ b then windowsTable.getD (b - 0x80) b else b)

def decode : Charset → List Nat → List Char
  | utf8, bs => decodeUtf8 none bs
  | utf16LittleEndian, bs => decodeUnits none (units (fun a b => a + 256 * b) bs)
  | utf16BigEndian, bs => decodeUnits none (units (fun a b => 256 * a + b) bs)
  | windows1252, bs => bs.map windowsChar

/-- A byte order mark at the start decides the character set, whatever was announced, and is no
part of the text. -/
def text (announced : Charset) (bytes : ByteArray) : String :=
  let bs := bytes.toList.map UInt8.toNat
  String.ofList (match bs with
    | 0xEF :: 0xBB :: 0xBF :: rest => utf8.decode rest
    | 0xFF :: 0xFE :: rest => utf16LittleEndian.decode rest
    | 0xFE :: 0xFF :: rest => utf16BigEndian.decode rest
    | _ => announced.decode bs)

/-- The names of character sets, in lower case. -/
def labels : Charset → List String
  | utf8 =>
    ["unicode-1-1-utf-8", "unicode11utf8", "unicode20utf8", "utf-8", "utf8", "x-unicode20utf8"]
  | utf16LittleEndian =>
    ["csunicode", "iso-10646-ucs-2", "ucs-2", "unicode", "unicodefeff", "utf-16", "utf-16le"]
  | utf16BigEndian => ["unicodefffe", "utf-16be"]
  | windows1252 =>
    ["ansi_x3.4-1968", "ascii", "cp1252", "cp819", "csisolatin1", "ibm819", "iso-8859-1",
      "iso-ir-100", "iso8859-1", "iso88591", "iso_8859-1", "iso_8859-1:1987", "l1", "latin1",
      "us-ascii", "windows-1252", "x-cp1252"]

/-- The character set that is announced by a name. -/
def ofLabel? (same : String → String → Bool) (label : String) : Option Charset :=
  [utf8, utf16LittleEndian, utf16BigEndian, windows1252].find? (·.labels.any (same label))

example : utf8.text ⟨#[0xEF, 0xBB, 0xBF, 0x61, 0xE2, 0x82, 0x28, 0xC3]⟩ = "a\ufffd(\ufffd" := by
  decide +kernel

example : utf16BigEndian.text ⟨#[0, 0x61, 0xD8, 0x3D, 0xDE, 0, 0xD8]⟩ = "a😀\ufffd" := by
  decide +kernel

end Charset
end StylePack
