import LispIndex.Failure
import Std.Data.TreeMap

/-!
Files. A program reads them through a function from paths to bytes; `Folder` is a set of files held
in memory, with the paths of a file system: a slash divides the names, `.` stays and `..` goes up.
-/

namespace LispIndex

structure Files (m : Type → Type) where
  readBytes : String → m (Except ReadFailure ByteArray)

def Files.readText {m : Type → Type} [Monad m] (files : Files m) (path : String) :
    ExceptT Failure m String :=
  ExceptT.mk do
    match ← files.readBytes path with
    | .error reason => return .error (.unreadable path reason)
    | .ok bytes =>
      match String.fromUTF8? bytes with
      | some text => return .ok text
      | none => return .error (.unreadable path .notText)

inductive Entry where
  | file (bytes : ByteArray)
  | folder

structure Folder where
  entries : Std.TreeMap (List String) Entry

namespace Folder

def empty : Folder := ⟨∅⟩

/-- The names in a path. There is an empty one before, behind and between slashes. -/
def names (path : String) : List String :=
  path.splitOn "/"

def isStep (name : String) : Bool :=
  name == "" || name == "." || name == ".."

def insert (f : Folder) (path : String) (entry : Entry) : Folder :=
  let target := (names path).filter (!isStep ·)
  let outer := (List.range target.length).map target.take
  ⟨(outer.foldl (fun entries way => entries.insertIfNew way .folder) f.entries).insert target entry⟩

/-- Follows names from the place `here`, whose names are given innermost first. -/
def follow (f : Folder) (here : List String) : List String → Except ReadFailure Entry
  | [] => .ok .folder
  | name :: rest =>
    if name = "" || name = "." then f.follow here rest
    else if name = ".." then
      match here with
      | _ :: outer => f.follow outer rest
      -- nothing is known outside but that there are folders
      | [] => if rest.all isStep then .ok .folder else .error .missing
    else
      match f.entries.get? (name :: here).reverse with
      | none => .error .missing
      | some .folder => f.follow (name :: here) rest
      | some (.file bytes) => if rest.isEmpty then .ok (.file bytes) else .error .notFolder

def find (f : Folder) (path : String) : Except ReadFailure Entry :=
  if path = "" then .error .missing
  else
    match names path with
    | "" :: rest => if rest.all isStep then .ok .folder else .error .missing
    | way => f.follow [] way

def files (f : Folder) : Files Id where
  readBytes path :=
    match f.find path with
    | .ok (.file bytes) => .ok bytes
    | .ok .folder => .error .isFolder
    | .error reason => .error reason

end Folder

end LispIndex
