import StylePack.Download.Address
import StylePack.Download.Charset
import StylePack.Store.Upkeep

/-! Fetching a descriptor from the web. What goes over the wire is not decided here: an action is
given what its request came to. -/
namespace StylePack

/-- The answer of a server. -/
structure Reply where
  status : Nat
  contentType : Option String
  body : ByteArray
  /-- The connection ended before the body did. -/
  cut : Bool

/-- What a request came to. -/
inductive Exchange
  /-- It was made while another one was being waited for. -/
  | nested
  /-- There was no answer, for this reason. -/
  | failed (reason : String)
  | reply (r : Reply)

namespace Reply

/-- Some answers never have a body. -/
def hasBody (r : Reply) : Bool := r.status != 204 && r.status != 304

def isFailure (r : Reply) : Bool := 400 ≤ r.status && r.status < 600

/-- The value of a parameter, without the quotes it may be in. -/
def unquoted (cs : List Char) : List Char :=
  match cs with
  | '"' :: rest => rest.takeWhile (· ≠ '"')
  | _ => cs

/-- The character set that a content type names. -/
def charset? (contentType : String) : Option Charset :=
  match Text.splitWhere (· = ';') contentType.toList with
  | kind :: parameters =>
    if !kind.contains '/' then none
    else parameters.findSome? fun parameter =>
      match Text.splitFirst '=' parameter with
      | some (name, value) =>
        if Text.sameLetters (Text.trim name) "charset".toList
        then Charset.ofLabel? Text.sameName (String.ofList (unquoted (Text.trim value)))
        else none
      | none => none
  | [] => none

/-- The body as text; it is UTF-8 if nothing else is said. -/
def text (r : Reply) : String :=
  if r.hasBody then ((r.contentType.bind charset?).getD .utf8).text r.body else ""

end Reply

namespace Exchange

/-- What a request comes to if no server can be reached. -/
def unanswered (url : String) : Exchange :=
  failed (match Address.ofText url with
    | .malformed => "builder error"
    | .foreign shown => "builder error for url (" ++ shown ++ ")"
    | .web shown => "error sending request for url (" ++ shown ++ ")")

end Exchange

namespace Download
open StylePack.Action (say sayAll)

/-- The text at an address, given what the request for it came to. -/
def fetch (url : String) (exchange : Exchange) (debug : Bool) : Action String :=
  match exchange with
  | .nested =>
    throw (.network "fetch_text_sync called from async context. Use fetch_text instead.")
  | .failed reason => do
    say (.status ("Downloading " ++ url ++ "..."))
    sayAll (Console.debug debug ("Request to " ++ url ++ " failed: " ++ reason))
    throw (.network reason)
  | .reply r => do
    say (.status ("Downloading " ++ url ++ "..."))
    if r.isFailure then throw (.downloadFailed url ("HTTP " ++ toString r.status))
    if r.cut && r.hasBody then
      let reason := "error decoding response body"
      sayAll (Console.debug debug ("Failed to read body of " ++ url ++ ": " ++ reason))
      throw (.network reason)
    sayAll (Console.debug debug
      ("Downloaded " ++ url ++ " (" ++ toString r.text.utf8ByteSize ++ " bytes)"))
    return r.text

/-- Fetches a descriptor and installs its package. -/
def add (folder : Path) (url : String) (exchange : Exchange) (debug : Bool) : Action Path := do
  let path ← Store.install folder (← fetch url exchange debug)
  say (.log .success ("Saved " ++ path.text))
  return path

end Download
end StylePack
