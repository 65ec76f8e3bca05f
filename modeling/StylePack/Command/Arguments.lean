import StylePack.Command
import StylePack.Command.Form

/-! Reading a command line. Words are taken from left to right. The value of an option and the
operands are held back until the next option or the end, and only then looked at, so that of two
faults the later one may be reported. -/
namespace StylePack
open Command

/-- What is wrong with a command line. -/
inductive Misuse
  | unknownCommand (word : String)
  | unknownArgument (argument : String)
  | missingOperand (operand : String)
  | missingValue (argument : String)
  | repeated (argument : String)
  | unexpectedValue (value argument : String)
  deriving DecidableEq, Repr

def Misuse.message : Misuse → String
  | unknownCommand word => "unrecognized subcommand '" ++ word ++ "'"
  | unknownArgument argument => "unexpected argument '" ++ argument ++ "' found"
  | missingOperand _ => "the following required arguments were not provided:"
  | missingValue argument =>
    "a value is required for '" ++ argument ++ "' but none was supplied"
  | repeated argument => "the argument '" ++ argument ++ "' cannot be used multiple times"
  | unexpectedValue value argument =>
    "unexpected value '" ++ value ++ "' for '" ++ argument ++ "' found; no more were expected"

/-- Why a command line leads to no command. -/
inductive Stop
  /-- The version of the program, or of one of its commands, is asked for. -/
  | version (of : Option Verb)
  | misuse (m : Misuse)
  deriving DecidableEq, Repr

namespace Arguments

/-- What is held back. -/
inductive Pending
  | nothing
  | value (s : Switch) (given : Option String)
  | operands (words : List String)
  deriving DecidableEq, Repr

/-- What was read of the arguments of a command, or of the words before any command. -/
structure Reading where
  verb : Option Verb
  flags : List String := []
  values : List (String × String) := []
  operands : List String := []
  pending : Pending := .nothing
  deriving DecidableEq, Repr

namespace Reading

def operand? (r : Reading) : Option Operand := r.verb.bind Verb.operand?

def switches (r : Reading) : List Switch := ((r.verb.map Verb.switches).getD []) ++ Switch.common

def hasFlag (r : Reading) (s : Switch) : Bool := r.flags.contains s.name

def value? (r : Reading) (s : Switch) : Option Path := (r.values.lookup s.name).map Path.mk

/-- The path that an option gives, or its usual one. -/
def path (r : Reading) (s : Switch) : Path := ((r.value? s).or s.usual).getD default

/-- Stores the value of an option. -/
def store (r : Reading) (s : Switch) : Option String → Except Stop Reading
  | none => .error (.misuse (.missingValue s.shown))
  | some word =>
    if (r.value? s).isSome then .error (.misuse (.repeated s.shown))
    else if word.isEmpty then .error (.misuse (.missingValue s.shown))
    else .ok { r with values := r.values ++ [(s.name, word)] }

/-- Stores what was held back. -/
def settle (r : Reading) : Except Stop Reading :=
  let r' := { r with pending := .nothing }
  match r.pending, r.operand? with
  | .value s given, _ => r'.store s given
  | .operands words, some o =>
    if o.isPath && words.any (·.isEmpty) then .error (.misuse (.missingValue o.shown))
    else .ok { r' with operands := r.operands ++ words }
  | _, _ => .ok r'

def raise (r : Reading) (s : Switch) : Except Stop Reading := do
  let r ← r.settle
  if s = .version then throw (.version r.verb)
  if r.hasFlag s then throw (.misuse (.repeated s.shown))
  pure { r with flags := s.name :: r.flags }

/-- Begins an option with a value; the value may be attached to it or be the next word. -/
def begin (r : Reading) (s : Switch) (attached : Option String) : Except Stop Reading := do
  let r ← r.settle
  match attached with
  | some word => r.store s (some word)
  | none => pure { r with pending := .value s none }

/-- An option by its name, with what may follow a `=`. -/
def takeLong (r : Reading) (word : List Char) : Except Stop Reading :=
  let (name, attached) := match Text.splitFirst '=' word with
    | some (name, value) => (String.ofList name, some (String.ofList value))
    | none => (String.ofList word, none)
  match r.switches.find? (·.name = name) with
  | none => .error (.misuse (.unknownArgument ("--" ++ name)))
  | some s =>
    match s.value, attached with
    | some _, _ => r.begin s attached
    | none, some value => .error (.misuse (.unexpectedValue value s.shown))
    | none, none => r.raise s

/-- Options by their letters. What follows the letter of an option with a value is the value. -/
def takeLetters : Reading → List Char → Except Stop Reading
  | r, [] => .ok r
  | r, c :: cs =>
    match r.switches.find? (·.letter = some c) with
    | none => .error (.misuse (.unknownArgument (String.ofList ['-', c])))
    | some s =>
      if s.value.isNone then r.raise s >>= (takeLetters · cs)
      else match cs with
        | [] => r.begin s none
        | '=' :: value => r.begin s (some (String.ofList value))
        | value => r.begin s (some (String.ofList value))

/-- Whether one more operand can be taken. -/
def hasRoom (r : Reading) : Bool :=
  match r.operand? with
  | none => false
  | some o =>
    o.count = .several || (r.operands.isEmpty && match r.pending with
      | .operands _ => false
      | _ => true)

def takeOperand (r : Reading) (word : String) : Except Stop Reading :=
  if !r.hasRoom then .error (.misuse (.unknownArgument word))
  else match r.pending with
    | .operands words => .ok { r with pending := .operands (words ++ [word]) }
    | _ => r.settle.map ({ · with pending := .operands [word] })

/-- A word before any `--`. -/
def takeWord (r : Reading) (word : String) : Except Stop Reading :=
  match word.toList, r.pending with
  | '-' :: '-' :: name, _ => r.takeLong name
  | '-' :: c :: cs, _ => r.takeLetters (c :: cs)
  | _, .value s none => .ok { r with pending := .value s (some word) }
  | _, _ => r.takeOperand word

/-- The words of a command; after `--` there are operands only. -/
def takeAll : Reading → List String → Except Stop Reading
  | r, [] => r.settle
  | r, word :: words =>
    if word = "--" then words.foldlM takeOperand r >>= settle
    else r.takeWord word >>= (takeAll · words)

end Reading

/-- The first operand, which some commands need. -/
def first (r : Reading) : Except Stop String :=
  match r.operands with
  | word :: _ => .ok word
  | [] => .error (.misuse (.missingOperand ((r.operand?.map Operand.shown).getD "")))

def command (v : Verb) (r : Reading) : Except Stop Command := do
  match v with
  | .build =>
    pure (.build ⟨← first r⟩ (r.value? .outFile) (r.path .packages) (r.hasFlag .experimental)
      (r.hasFlag .debug))
  | .add => pure (.add (← first r) (r.path .packages) (r.hasFlag .debug))
  | .list => pure (.list (r.path .packages))
  | .remove => pure (.remove r.operands.head? (r.path .packages))
  | .generate =>
    let _ ← first r
    pure (.generate (r.operands.map Path.mk) (r.path .outFolder) (r.hasFlag .debug))
  | .help => pure (.help r.operands.head?)

/-- The words up to a command's name, and from there on the command's. -/
def readFrom (r : Reading) : List String → Except Stop Invocation
  | [] => .ok ⟨r.hasFlag .quiet, none⟩
  | word :: words =>
    match Verb.ofWord? word with
    | some v => do
      let s ← ({ verb := some v } : Reading).takeAll words
      pure ⟨r.hasFlag .quiet || s.hasFlag .quiet, some (← command v s)⟩
    | none =>
      if word = "--" then
        match words with
        | [] => .ok ⟨r.hasFlag .quiet, none⟩
        | word :: _ =>
          .error (.misuse (if (Verb.ofWord? word).isSome then .unknownArgument word
            else .unknownCommand word))
      else if word.toList.head? = some '-' ∧ word ≠ "-" then
        r.takeWord word >>= (readFrom · words)
      else .error (.misuse (.unknownCommand word))

end Arguments

/-- What a command line asks for. -/
def Invocation.ofArguments (words : List String) : Except Stop Invocation :=
  Arguments.readFrom { verb := none } words

namespace Invocation

/-- The command of a command line that has one. -/
def command? (words : List String) : Option Command := (ofArguments words).toOption.bind command

/-- What is wrong with a command line. -/
def misuse? (words : List String) : Option Misuse :=
  match ofArguments words with
  | .error (.misuse m) => some m
  | _ => none

example : command? ["-q", "b", "a.css", "-oz.css", "--packages=s"] =
    some (.build ⟨"a.css"⟩ (some ⟨"z.css"⟩) ⟨"s"⟩ false false) := by decide +kernel

example : command? ["gen", "a", "-o", "c", "--", "-d"] =
    some (.generate [⟨"a"⟩, ⟨"-d"⟩] ⟨"c"⟩ false) := by decide +kernel

/-- An option without its value is only noticed at the next option, an unknown option at once. -/
example : (misuse? ["build", "--out", "--debug"], misuse? ["build", "--out", "--nope"]) =
    (some (.missingValue "--out <OUT>"), some (.unknownArgument "--nope")) := by decide +kernel

example : misuse? ["--", "build"] = some (.unknownArgument "build") := by decide +kernel

end Invocation

end StylePack
