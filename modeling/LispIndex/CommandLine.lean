import LispIndex.CommandLine.Request
import LispIndex.ScopeCache

/-!
The command line program. It prints a summary of documents, the occurrences of a name, or the
scopes of a document. A file that cannot be read ends it, after what was printed before.
-/

namespace LispIndex.CommandLine

structure Outcome where
  code : Nat
  output : String
  errors : String
deriving DecidableEq

structure Session where
  printed : String
  cache : ScopeCache

abbrev Run (m : Type → Type) := ExceptT Failure (StateT Session m)

variable {m : Type → Type} [Monad m]

def fetchFile (files : Files m) (path : String) : Run m Source := do
  let session ← get
  ExceptT.mk (liftM (Source.ofFile files session.cache.keywords path).run)

def printLine (line : String) : Run m Unit :=
  modify fun session => { session with printed := session.printed ++ line ++ "\n" }

def fetchTree (s : Source) : Run m ScopeTree := do
  let session ← get
  let (t, cache) := session.cache.fetch s false
  set { session with cache }
  return t.tree

structure Summary where
  file : String
  atoms : Nat
  lineEnding : LineEnding
  symbols : Nat
  exported : List String
  hosts : Nat
  references : Nat

namespace Summary

def exportedNames (d : Document) : List String :=
  (Std.TreeSet.ofList ((d.atoms.toList.filter Atom.exported).map Atom.name)).toList

def of (s : Source) (t : ScopeTree) : Summary where
  file := s.path
  atoms := s.document.atoms.size
  lineEnding := s.document.lineEnding
  symbols := s.document.symbols.size
  exported := exportedNames s.document
  hosts := t.hosts.size
  references := t.references.size

def toJson (s : Summary) : Json :=
  .ofMembers [
    ("file", .ofString s.file),
    ("atoms", .ofNat s.atoms),
    ("linefeed", .ofString s.lineEnding.name),
    ("symbols", .ofNat s.symbols),
    ("exported", .array (s.exported.map .ofString)),
    ("hosts", .ofNat s.hosts),
    ("references", .ofNat s.references)]

def lines (s : Summary) : List String :=
  [s.file,
    s!"  atoms:      {s.atoms}",
    "  linefeed:   " ++ s.lineEnding.name,
    s!"  symbols:    {s.symbols}",
    s!"  hosts:      {s.hosts}",
    s!"  references: {s.references}"] ++
  if s.exported.isEmpty then [] else ["  exported:   " ++ ", ".intercalate s.exported]

end Summary

def hostLines (t : ScopeTree) (done : Array String) (depth host : Nat) : Array String :=
  match t.hosts[host]? with
  | none => done
  | some h =>
    let indent := String.ofList (List.replicate (2 * depth) ' ')
    let first := indent ++ h.kind.text ++ " " ++ (t.hostName? host).getD "" ++ " [" ++ h.range.text ++ "]"
    h.items.foldl (fun done item =>
      match item with
      | .reference id =>
        match t.references[id]? with
        | none => done
        | some r =>
          let mark := if r.isLocal then " (local)" else ""
          done.push (indent ++ "  " ++ r.name ++ " " ++ r.range.text ++ mark)
      | .host child =>
        if host < child ∧ child < t.hosts.size then hostLines t done (depth + 1) child else done)
      (done.push first)
termination_by t.hosts.size - host

def occurrenceLine (s : Source) (a : Atom) : String :=
  s.path ++ ":" ++ a.range.text ++ if a.exported then " @Global" else ""

def perform (files : Files m) : Command → Run m Unit
  | .summary paths asJson =>
    paths.forM fun path => do
      let source ← fetchFile files path
      let summary := Summary.of source (← fetchTree source)
      if asJson then printLine summary.toJson.pretty else summary.lines.forM printLine
  | .symbol name paths =>
    paths.forM fun path => do
      let source ← fetchFile files path
      (source.document.occurrences (Text.lower name)).forM fun index =>
        match source.document.atoms[index]? with
        | some a => printLine (occurrenceLine source a)
        | none => return
  | .scopes path => do
    let source ← fetchFile files path
    let tree ← fetchTree source
    (hostLines tree #[] 0 0).toList.forM printLine

def startCache (files : Files m) (config : Option String) : ExceptT Failure m ScopeCache := do
  let settings ← match config with
    | none => pure {}
    | some path => Config.ofFile files path
  return { settings := settings.cache, keywords := ← settings.loadKeywords files }

def failed (printed : String) (failure : Failure) : Outcome :=
  ⟨1, printed, "Error: " ++ failure.message ++ "\n"⟩

def programName : String := "autolisp-inspect"

def usage : String :=
  "Usage: " ++ programName ++ " [--config FILE] summary [--json] [FILES]...\n" ++
  "       " ++ programName ++ " [--config FILE] symbol NAME [FILES]...\n" ++
  "       " ++ programName ++ " [--config FILE] scopes FILE\n"

def run (files : Files m) (arguments : List String) : m Outcome := do
  match Request.ofArguments? arguments with
  | none => return ⟨2, "", usage⟩
  | some .help => return ⟨0, usage, ""⟩
  | some .version => return ⟨0, programName ++ " 0.2.0\n", ""⟩
  | some (.run config command) =>
    match ← (startCache files config).run with
    | .error failure => return failed "" failure
    | .ok cache =>
      match ← (perform files command).run.run ⟨"", cache⟩ with
      | (.ok (), session) => return ⟨0, session.printed, ""⟩
      | (.error failure, session) => return failed session.printed failure

end LispIndex.CommandLine
