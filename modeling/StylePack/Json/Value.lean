import StylePack.Json.Token
import StylePack.OrderedMap

/-! JSON values, and how they are read from text. Objects keep the order of their keys; of a key
that comes twice the first place and the last value stay. -/
namespace StylePack.Json

inductive Value
  | null
  | bool (value : Bool)
  | number (value : Numeral)
  | string (value : String)
  | array (items : List Value)
  | object (members : List (String × Value))
  deriving Repr, Inhabited

namespace Value

def members? : Value → Option (List (String × Value))
  | object members => some members
  | _ => none

def string? : Value → Option String
  | string value => some value
  | _ => none

/-- The value of a key of an object. -/
def get? (v : Value) (key : String) : Option Value :=
  v.members?.bind (OrderedMap.lookup key)

/-- An array or an object part way through, with what was read of it, the last part first. -/
inductive Frame
  | array (items : List Value)
  /-- With the key whose value comes next. -/
  | object (members : List (String × Value)) (key : String)
  deriving Repr

/-- What the reader has to meet next. -/
inductive Phase
  | value
  /-- A value, or the end of an empty array. -/
  | firstItem
  /-- A key, or the end of an empty object. -/
  | firstKey
  | key
  | colon
  /-- A comma or the end of the array or object that the value is in. -/
  | after (value : Value)
  deriving Repr

/-- A reader part way through a text, with the open arrays and objects, innermost first. -/
structure Reader where
  frames : List Frame
  phase : Phase
  deriving Repr

namespace Reader

/-- How deep arrays and objects may be nested. -/
def maxDepth : Nat := 127

def enter (r : Reader) (frame : Frame) (phase : Phase) : Option Reader :=
  if r.frames.length < maxDepth then some ⟨frame :: r.frames, phase⟩ else none

/-- A token that begins a value. -/
def begin (r : Reader) : Token → Option Reader
  | .null => some ⟨r.frames, .after .null⟩
  | .bool b => some ⟨r.frames, .after (.bool b)⟩
  | .number x => some ⟨r.frames, .after (.number x)⟩
  | .string s => some ⟨r.frames, .after (.string s)⟩
  | .openArray => r.enter (.array []) .firstItem
  | .openObject => r.enter (.object [] "") .firstKey
  | _ => none

/-- The object with members that were collected last first. -/
def closeObject (members : List (String × Value)) : Value :=
  .object (OrderedMap.ofList members.reverse).entries

def step (r : Reader) (t : Token) : Option Reader :=
  match r.phase, r.frames, t with
  | .value, _, t => r.begin t
  | .firstItem, .array _ :: frames, .closeArray => some ⟨frames, .after (.array [])⟩
  | .firstItem, _, t => r.begin t
  | .firstKey, .object _ _ :: frames, .closeObject => some ⟨frames, .after (.object [])⟩
  | .firstKey, .object ms _ :: frames, .string k => some ⟨.object ms k :: frames, .colon⟩
  | .key, .object ms _ :: frames, .string k => some ⟨.object ms k :: frames, .colon⟩
  | .colon, _, .colon => some ⟨r.frames, .value⟩
  | .after v, .array items :: frames, .comma => some ⟨.array (v :: items) :: frames, .value⟩
  | .after v, .array items :: frames, .closeArray =>
    some ⟨frames, .after (.array (v :: items).reverse)⟩
  | .after v, .object ms k :: frames, .comma => some ⟨.object ((k, v) :: ms) k :: frames, .key⟩
  | .after v, .object ms k :: frames, .closeObject =>
    some ⟨frames, .after (closeObject ((k, v) :: ms))⟩
  | _, _, _ => none

def run : Reader → List Token → Option Reader
  | r, [] => some r
  | r, t :: ts => (r.step t).bind (run · ts)

/-- The value that was read, if it is complete. -/
def result? (r : Reader) : Option Value :=
  match r.frames, r.phase with
  | [], .after v => some v
  | _, _ => none

theorem run_append (r : Reader) (ts us : List Token) :
    r.run (ts ++ us) = (r.run ts).bind (run · us) := by
  induction ts generalizing r with
  | nil => rfl
  | cons t ts ih => cases h : r.step t <;> simp [run, h, ih]

end Reader

/-- The value that a text holds. -/
def parse? (text : String) : Option Value := do
  let tokens ← Token.scan text.toList
  let reader ← Reader.run ⟨[], .value⟩ tokens
  reader.result?

example : (parse? "\x7b\"a\": [1, \x7b\x7d], \"b\": \"x\", \"a\": null\x7d").bind
    (·.members?.map (·.map Prod.fst)) = some ["a", "b"] := by decide +kernel

example : ["", "[1,]", "\x7b\"a\":1,\x7d", "[1 2]", "01", "nul", "\"a", "1 x"].filterMap
    (fun s => (parse? s).map fun _ => s) = [] := by decide +kernel

end Value
end StylePack.Json
