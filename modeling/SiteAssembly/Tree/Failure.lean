import SiteAssembly.Text.Printable
import SiteAssembly.Text.Utf8

/-!
# Why an operation on files fails

Most failures are a cause of the system at a path, as that path was given to
the operation.
-/

namespace SiteAssembly

inductive Cause
  | missing
  | denied
  | busy
  | alreadyExists
  | notADirectory
  | isADirectory
  | invalid
  | nameTooLong
  | notEmpty
  | tooManyLinks
  deriving DecidableEq, Repr

def Cause.number : Cause → Nat
  | .missing => 2
  | .denied => 13
  | .busy => 16
  | .alreadyExists => 17
  | .notADirectory => 20
  | .isADirectory => 21
  | .invalid => 22
  | .nameTooLong => 36
  | .notEmpty => 39
  | .tooManyLinks => 40

def Cause.text : Cause → Text
  | .missing => "No such file or directory"
  | .denied => "Permission denied"
  | .busy => "Device or resource busy"
  | .alreadyExists => "File exists"
  | .notADirectory => "Not a directory"
  | .isADirectory => "Is a directory"
  | .invalid => "Invalid argument"
  | .nameTooLong => "File name too long"
  | .notEmpty => "Directory not empty"
  | .tooManyLinks => "Too many levels of symbolic links"

inductive Failure
  | system (cause : Cause) (path : Text)
  /-- A file was to be copied onto itself. -/
  | sameFile (source target : Text)
  /-- A file was to be copied to a path that ends in a slash and names nothing. -/
  | noDirectory (path : Text)
  /-- The path holds the character zero, which no path may. -/
  | zeroInPath
  /-- The content is not the encoding of a text. -/
  | undecodable (fault : Utf8.Fault)
  deriving DecidableEq, Repr

def Failure.message : Failure → Text
  | .system cause path =>
    "[Errno " ++ Text.decimal cause.number ++ "] " ++ cause.text ++ ": " ++ Text.quoted path
  | .sameFile source target =>
    Text.quoted source ++ " and " ++ Text.quoted target ++ " are the same file"
  | .noDirectory path => "Directory does not exist: " ++ path
  | .zeroInPath => "embedded null byte"
  | .undecodable fault => fault.message

/-- Whether a failure lies in the value given and not in the state of the file system. -/
def Failure.isOfValue : Failure → Bool
  | .zeroInPath => true
  | .undecodable _ => true
  | _ => false

end SiteAssembly
