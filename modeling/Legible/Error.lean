import Legible.Text.Utf8

/-!
# Errors

Why a file, the symbol dictionary or the settings could not be used. Every cause is a constructor;
the wording shown to a user stands in one place.
-/

namespace Legible

/-- Why the file system refused an operation. -/
inductive FileFault where
  | notFound
  | notDirectory
  | isDirectory
  | alreadyExists
  | notEmpty
  | invalid
  | busy
  /-- A name in the path, or the path as a whole, has too many bytes. -/
  | nameTooLong
  /-- The path holds the character that ends a path for the system. -/
  | nulInPath
  | notText
  /-- A cause outside the ones above, in the system's words. -/
  | other (text : String)
deriving Repr, DecidableEq

def FileFault.message : FileFault → String
  | .notFound => "No such file or directory (os error 2)"
  | .notDirectory => "Not a directory (os error 20)"
  | .isDirectory => "Is a directory (os error 21)"
  | .alreadyExists => "File exists (os error 17)"
  | .notEmpty => "Directory not empty (os error 39)"
  | .invalid => "Invalid argument (os error 22)"
  | .busy => "Device or resource busy (os error 16)"
  | .nameTooLong => "File name too long (os error 36)"
  | .nulInPath => "file name contained an unexpected NUL byte"
  | .notText => "stream did not contain valid UTF-8"
  | .other text => text

/-- What can go wrong in a run. -/
inductive Error where
  | file (path : String) (fault : FileFault)
  /-- The source is not Java; `line` and `column` count from one, columns in bytes. -/
  | malformed (path : String) (line column : Nat) (snippet : String)
  | undecodable (fault : Text.Utf8Fault)
  | unparsed (path : String)
  | dictionary (path reason : String)
  | noSettings (path : String)
  | settings (path reason : String)
deriving Repr, DecidableEq

def Error.message : Error → String
  | .file path fault => "I/O error on " ++ path ++ ": " ++ fault.message
  | .malformed path line column snippet =>
    path ++ ":" ++ toString line ++ ":" ++ toString column ++ ": syntax error near `"
      ++ snippet ++ "`"
  | .undecodable fault => "Invalid UTF-8 in source: " ++ fault.message
  | .unparsed path => "Parser error: Failed to parse " ++ path
  | .dictionary path reason => "Malformed symbol store " ++ path ++ ": " ++ reason
  | .noSettings path => "Config error: config file " ++ path ++ " not found"
  | .settings path reason => "Config error: " ++ path ++ ": " ++ reason

end Legible
