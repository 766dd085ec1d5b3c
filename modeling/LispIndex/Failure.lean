/-!
Failures. Texts of any kind are read as documents without fail; what can fail is reading a file, a
keyword list or a configuration.
-/

namespace LispIndex

inductive ReadFailure where
  | missing
  | isFolder
  | notFolder
  | denied
  | notText
  | other (reason : String)
deriving DecidableEq

def ReadFailure.message : ReadFailure → String
  | .missing => "No such file or directory (os error 2)"
  | .isFolder => "Is a directory (os error 21)"
  | .notFolder => "Not a directory (os error 20)"
  | .denied => "Permission denied (os error 13)"
  | .notText => "stream did not contain valid UTF-8"
  | .other reason => reason

inductive Failure where
  | unreadable (path : String) (reason : ReadFailure)
  /-- A keyword list that is neither an array nor an object. -/
  | keywordShape
  /-- A keyword list that is an object without any of the members it may have. -/
  | keywordMembers
  | cacheWithoutEntries
  | json
deriving DecidableEq

def Failure.message : Failure → String
  | .unreadable path reason => "Failed to read '" ++ path ++ "': " ++ reason.message
  | .keywordShape =>
    "Invalid keyword list: expected an array of names or a help index object"
  | .keywordMembers =>
    "Invalid keyword list: object has none of the recognized keyword members"
  | .cacheWithoutEntries =>
    "Invalid configuration: cache.max_entries must be positive when the cache is enabled"
  | .json => "JSON error:"

end LispIndex
