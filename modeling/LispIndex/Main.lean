import LispIndex.CommandLine

/-!
The program: it reads files from the disk and prints.
-/

namespace LispIndex

/-- The reason that an error of the system gives for a failed read. Folders and files in the place
of folders are told apart by the system's code. -/
def ReadFailure.ofError : IO.Error → ReadFailure
  | .noFileOrDirectory .. => .missing
  | .inappropriateType _ code _ => if code = 21 then .isFolder else .notFolder
  | .permissionDenied .. => .denied
  | error => .other (toString error)

def diskFiles : Files IO where
  readBytes path := do
    try
      return .ok (← IO.FS.readBinFile path)
    catch error => return .error (.ofError error)

end LispIndex

open LispIndex in
def main (arguments : List String) : IO UInt32 := do
  let outcome ← CommandLine.run diskFiles arguments
  IO.print outcome.output
  IO.eprint outcome.errors
  return outcome.code.toUInt32
