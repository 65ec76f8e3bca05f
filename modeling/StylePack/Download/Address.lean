import StylePack.Text.AsciiCase
import StylePack.Text.Blank

/-! Addresses of the web: which texts are some, and the form in which they are shown. -/
namespace StylePack

inductive Address
  | malformed
  /-- An address, but not one that can be fetched. -/
  | foreign (text : String)
  | web (text : String)
  deriving DecidableEq, Repr

namespace Address

/-- The port of a scheme whose addresses name a host. -/
def port? : String → Option Nat
  | "http" => some 80
  | "https" => some 443
  | "ws" => some 80
  | "wss" => some 443
  | "ftp" => some 21
  | _ => none

/-- Blanks around an address and line breaks in it do not count. -/
def cleaned (cs : List Char) : List Char :=
  let isOuter (c : Char) : Bool := c.toNat ≤ 0x20
  ((cs.dropWhile isOuter).reverse.dropWhile isOuter).reverse.filter fun c =>
    c ≠ '\t' && c ≠ '\n' && c ≠ '\r'

def isSchemeChar (c : Char) : Bool := c.isAlphanum || c = '+' || c = '-' || c = '.'

/-- The scheme, in lower case, and what follows its colon. -/
def scheme? (cs : List Char) : Option (String × List Char) :=
  match cs.head?, cs.dropWhile isSchemeChar with
  | some c, ':' :: rest =>
    if c.isAlpha then
      some (String.ofList ((cs.takeWhile isSchemeChar).map Text.foldCase), rest)
    else none
  | _, _ => none

def hexDigit (n : Nat) : Char := "0123456789ABCDEF".toList.getD n '0'

/-- A character as percent signs with the bytes of its UTF-8. -/
def percent (c : Char) : List Char :=
  (String.singleton c).toUTF8.toList.flatMap fun b =>
    ['%', hexDigit (b.toNat / 16), hexDigit (b.toNat % 16)]

def escape (special : String) (cs : List Char) : List Char :=
  cs.flatMap fun c =>
    if c.toNat ≤ 0x20 ∨ 0x7F ≤ c.toNat ∨ special.toList.contains c then percent c else [c]

/-- Segments without those that stand for the folder itself or the one around it. -/
def resolve : List (List Char) → List (List Char) → List (List Char)
  | done, [] => done.reverse
  | done, s :: ss =>
    let last := ss.isEmpty
    if s = ['.', '.'] then resolve (if last then [] :: done.tail else done.tail) ss
    else if s = ['.'] then resolve (if last then [] :: done else done) ss
    else resolve (s :: done) ss

/-- A path with the query and the fragment behind it. -/
def tail (cs : List Char) : List Char :=
  let path := cs.takeWhile fun c => c ≠ '?' && c ≠ '#'
  let segments := Text.splitWhere (fun c => c = '/' || c = '\\') path
  let segments := if segments.head? = some [] ∧ 1 < segments.length then segments.tail else segments
  let path := (resolve [] segments).flatMap fun s => '/' :: escape "\"#<>?`\x7b\x7d^" s
  let rest := cs.dropWhile fun c => c ≠ '?' && c ≠ '#'
  let query := rest.takeWhile (· ≠ '#')
  path ++ escape "\"#<>'" query ++
    match rest.dropWhile (· ≠ '#') with
    | [] => []
    | mark :: fragment => mark :: escape "\"<>`" fragment

def digit? (c : Char) : Option Nat :=
  if c.isDigit then some (c.toNat - 48)
  else if 'a' ≤ c ∧ c ≤ 'f' then some (c.toNat - 87)
  else if 'A' ≤ c ∧ c ≤ 'F' then some (c.toNat - 55)
  else none

def digits? (base : Nat) (cs : List Char) : Option Nat :=
  cs.foldlM (fun n c => ((digit? c).filter (· < base)).map (n * base + ·)) 0

/-- A number in a host: hexadecimal after `0x`, octal after `0`, else decimal. -/
def number? : List Char → Option Nat
  | [] => none
  | '0' :: 'x' :: cs => digits? 16 cs
  | '0' :: cs => digits? 8 cs
  | cs => digits? 10 cs

/-- The number that one to four parts of a numeric host stand for. The last part fills all that
the parts before it leave open. -/
def host4? : List Nat → Option Nat
  | ns =>
    if ns.isEmpty ∨ 4 < ns.length ∨ ns.dropLast.any (255 < ·) then none
    else
      let last := ns.getLast?.getD 0
      let left := 5 - ns.length
      if 1 <<< (8 * left) ≤ last then none
      else some (ns.dropLast.foldl (fun n m => n * 256 + m) 0 <<< (8 * left) + last)

def dotted (n : Nat) : String :=
  ".".intercalate ([n >>> 24, n >>> 16 % 256, n >>> 8 % 256, n % 256].map toString)

def isForbidden (c : Char) : Bool := c.toNat ≤ 0x20 || 0x7F ≤ c.toNat || "#/:<>?@[\\]^|%".toList.contains c

/-- A host in its usual form. -/
def host? (cs : List Char) : Option String :=
  match cs with
  | '[' :: rest =>
    let inner := rest.takeWhile (· ≠ ']')
    if rest.dropWhile (· ≠ ']') = [']'] ∧ inner.contains ':' ∧
        inner.all (fun c => (digit? c).isSome || c = ':' || c = '.')
    then some (String.ofList (cs.map Text.foldCase)) else none
  | _ =>
    if cs = [] ∨ cs.any isForbidden then none
    else
      let cs := cs.map Text.foldCase
      let labels := Text.splitWhere (· = '.') cs
      let labels := if labels.getLast? = some [] then labels.dropLast else labels
      let last := labels.getLast?.getD []
      if last ≠ [] ∧ (last.all Char.isDigit ∨ (last.take 2 = ['0', 'x'] ∧ (number? last).isSome))
      then ((labels.mapM number?).bind host4?).map dotted
      else some (String.ofList cs)

/-- The port after a host, if it is not the usual one; only digits up to 65535 make a port. -/
def portText? (usual : Nat) : List Char → Option String
  | [] => some ""
  | [':'] => some ""
  | ':' :: cs =>
    if !cs.all Char.isDigit then none
    else (digits? 10 cs).bind fun n =>
      if 65535 < n then none else if n = usual then some "" else some (":" ++ toString n)
  | _ => none

/-- Host and port, each in its own characters; a user's name before them is left out. -/
def splitHost (authority : List Char) : List Char × List Char :=
  let cs := ((Text.splitLast '@' authority).map Prod.snd).getD authority
  if cs.head? = some '[' then
    (cs.takeWhile (· ≠ ']') ++ (cs.dropWhile (· ≠ ']')).take 1, (cs.dropWhile (· ≠ ']')).drop 1)
  else (cs.takeWhile (· ≠ ':'), cs.dropWhile (· ≠ ':'))

def ofText (text : String) : Address :=
  match scheme? (cleaned text.toList) with
  | none => malformed
  | some (scheme, rest) =>
    match port? scheme with
    | none => foreign (scheme ++ ":" ++ String.ofList rest)
    | some usual =>
      let isSlash (c : Char) : Bool := c = '/' || c = '\\'
      let isEnd (c : Char) : Bool := isSlash c || c = '?' || c = '#'
      let rest := rest.dropWhile isSlash
      let (host, port) := splitHost (rest.takeWhile (!isEnd ·))
      match host? host, portText? usual port with
      | some host, some port =>
        let shown := scheme ++ "://" ++ host ++ port ++ String.ofList (tail (rest.dropWhile (!isEnd ·)))
        if scheme = "http" ∨ scheme = "https" then web shown else foreign shown
      | _, _ => malformed

example : ofText " HTTP://Example.com:80/a/../b c?d#e " = web "http://example.com/b%20c?d#e" := by
  decide +kernel

example : ["", "notaurl", "http://", "http://127.0.0.1:99999/x", "http://256.1/"].map ofText =
    List.replicate 5 malformed := by decide +kernel

example : (ofText "http://127.1:1/x.json", ofText "localhost:1/x") =
    (web "http://127.0.0.1:1/x.json", foreign "localhost:1/x") := by decide +kernel

end Address
end StylePack
