import StylePack.Console.Size

/-! What a command says to the user, and how it is written to the two output streams. Log lines go
to the error stream, so that the output stream holds results only. -/
namespace StylePack.Console

inductive Level
  | info
  | success
  | warning
  | error
  | debug
  deriving DecidableEq, Repr

inductive Event
  /-- A log line. -/
  | log (level : Level) (message : String)
  /-- The last log line of a command, with the time it took. -/
  | finish (message : String)
  /-- A line on the error stream as it is. -/
  | finishLine (message : String)
  /-- What the command is doing, on a line that is overwritten. -/
  | status (message : String)
  /-- A text on the line that is overwritten. -/
  | updateLine (message : String)
  /-- A result on the output stream. -/
  | print (text : String)
  /-- A line of the list of installed packages. -/
  | package (name : String) (bytes : Nat)
  /-- A text on the error stream that is never held back. -/
  | announce (text : String)
  deriving DecidableEq, Repr

/-- How a command may talk: whether it says errors only, uses colours, and has a terminal. -/
structure Settings where
  quiet : Bool := false
  colored : Bool := false
  interactive : Bool := false
  deriving DecidableEq, Repr

/-- What was written to the two streams. -/
structure Output where
  out : String
  err : String
  deriving DecidableEq, Repr, Inhabited

def Output.append (a b : Output) : Output := ⟨a.out ++ b.out, a.err ++ b.err⟩

instance : Append Output := ⟨Output.append⟩

def tag : String := "[penguinui]"

def paintedTag : String := bold (paint .brightCyan tag)

def paintMessage (level : Level) (message : String) : String :=
  match level with
  | .info => paint .white message
  | .success => paint .brightGreen message
  | .warning => bold (paint .brightYellow message)
  | .error => paint .brightRed message
  | .debug => paint .brightBlack message

/-- A line on the error stream; the line that is overwritten is cleared before. -/
def errorLine (s : Settings) (line : String) : Output :=
  ⟨if s.quiet || !s.interactive then "" else clearLine, line ++ "\n"⟩

def finishLine (s : Settings) (line : String) : Output :=
  if s.quiet then ⟨"", ""⟩ else errorLine s line

def log (s : Settings) (level : Level) (message : String) : Output :=
  if s.quiet ∧ level ≠ .error then ⟨"", ""⟩
  else if s.colored then errorLine s (paintedTag ++ " " ++ paintMessage level message)
  else errorLine s (tag ++ " " ++ message)

def updateLine (s : Settings) (text : String) : Output :=
  if s.quiet || !s.interactive then ⟨"", ""⟩ else ⟨clearLine ++ text, ""⟩

/-- What an event writes; `elapsed` is the time the command took, as text. -/
def render (s : Settings) (elapsed : String) : Event → Output
  | .log level message => log s level message
  | .finish message =>
    finishLine s
      (if s.colored then paintedTag ++ " " ++ paint .brightGreen message ++ " " ++
        paint .brightBlack ("[" ++ elapsed ++ "]")
      else tag ++ " " ++ message ++ " [" ++ elapsed ++ "]")
  | .finishLine message => finishLine s message
  | .status message => updateLine s (paint .brightCyan "◦" ++ " " ++ paint .brightWhite message)
  | .updateLine message => updateLine s message
  | .print text => ⟨text, ""⟩
  | .package name bytes => ⟨packageLine s.colored name bytes ++ "\n", ""⟩
  | .announce text => ⟨"", text⟩

/-- What a run of events writes. -/
def renderAll (s : Settings) (elapsed : String) (events : List Event) : Output :=
  events.foldl (fun o e => o ++ render s elapsed e) ⟨"", ""⟩

/-- How a time in milliseconds is shown: from one second on in seconds with two decimals. -/
def duration (ms : Nat) : String :=
  if ms < 1000 then toString ms ++ "ms"
  else
    let n := Rounding.divide ms 10
    toString (n / 100) ++ "." ++ toString (n / 10 % 10) ++ toString (n % 10) ++ "s"

/-- A log line that is only written on demand. -/
def debug (enabled : Bool) (message : String) : List Event :=
  if enabled then [.log .debug message] else []

end StylePack.Console
