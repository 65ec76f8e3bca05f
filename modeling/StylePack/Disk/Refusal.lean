/-! Why the file system refuses something. -/
namespace StylePack

inductive Refusal
  /-- Nothing is there. -/
  | notFound
  | alreadyThere
  | notFolder
  | isFolder
  | nameTooLong
  /-- A path has a NUL character in it, which ends a path. -/
  | nulInPath
  /-- A file that is read as text is no UTF-8. -/
  | notText
  deriving DecidableEq, Repr

def Refusal.message : Refusal → String
  | notFound => "No such file or directory (os error 2)"
  | alreadyThere => "File exists (os error 17)"
  | notFolder => "Not a directory (os error 20)"
  | isFolder => "Is a directory (os error 21)"
  | nameTooLong => "File name too long (os error 36)"
  | nulInPath => "file name contained an unexpected NUL byte"
  | notText => "stream did not contain valid UTF-8"

end StylePack
