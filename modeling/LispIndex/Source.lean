import LispIndex.Export
import LispIndex.Files
import LispIndex.Keywords

/-!
Sources: documents under a path. The path tells what kind of file it is, and its two spellings,
with slashes and with backslashes, stand for one file.
-/

namespace LispIndex

def normalizePath (path : String) : String :=
  String.ofList (path.toList.map fun c => if c = '\\' then '/' else c)

inductive SourceKind where
  | lisp
  | project
  | dialog
  | other
deriving DecidableEq, Inhabited

namespace SourceKind

/-- The last name in a path, which slashes and dots behind it do not change. -/
def fileName? (path : String) : Option String :=
  ((path.splitOn "/").filter fun name => name != "" && name != ".").getLast?.filter (· != "..")

/-- What follows the last dot of a name, unless nothing stands before it. -/
def extension? (name : String) : Option String :=
  match name.toList.reverse.dropWhile (· != '.') with
  | _ :: _ :: _ => some (String.ofList (name.toList.reverse.takeWhile (· != '.')).reverse)
  | _ => none

def ofPath (path : String) : SourceKind :=
  match (fileName? path).bind extension? with
  | none => .other
  | some ending =>
    if Text.sameName ending "lsp" || Text.sameName ending "mnl" then .lisp
    else if Text.sameName ending "prj" then .project
    else if Text.sameName ending "dcl" then .dialog
    else .other

end SourceKind

structure Source where
  path : String
  text : String
  document : Document

namespace Source

def ofText (keywords : KeywordOracle) (path text : String) : Source :=
  ⟨path, text, .parse keywords.isNative text⟩

def ofFile {m : Type → Type} [Monad m] (files : Files m) (keywords : KeywordOracle) (path : String) :
    ExceptT Failure m Source := do
  return ofText keywords path (← files.readText path)

def update (s : Source) (keywords : KeywordOracle) (text : String) : Source :=
  ofText keywords s.path text

def key (s : Source) : String :=
  normalizePath s.path

def kind (s : Source) : SourceKind :=
  .ofPath s.path

def hasSymbol (s : Source) (name : String) : Bool :=
  s.document.symbols.contains name

def hasExports (s : Source) : Bool :=
  s.kind == .lisp && s.document.symbolIndices.any fun index =>
    s.document.atoms[index]?.any Atom.exported

def exportsOf (s : Source) (key : String) : List Nat :=
  (s.document.occurrences key).filter fun index => s.document.atoms[index]?.any Atom.exported

end Source

end LispIndex
