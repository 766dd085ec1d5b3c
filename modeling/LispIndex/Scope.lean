import LispIndex.Form.View

/-!
Scopes. Definitions, anonymous functions and the two looping forms bind names of their own; each
such form is a host of the references inside it. Hosts and references are numbered in source order
and the document is host 0, so a host comes after the host around it.
-/

namespace LispIndex

inductive HostKind where
  | root
  | defun
  | defunQ
  | lambda
  | foreach
  | vlaxFor
deriving DecidableEq, Inhabited

namespace HostKind

def ofHead? (symbol : String) : Option HostKind :=
  if Text.sameName symbol "defun" then some .defun
  else if Text.sameName symbol "defun-q" then some .defunQ
  else if Text.sameName symbol "lambda" then some .lambda
  else if Text.sameName symbol "foreach" then some .foreach
  else if Text.sameName symbol "vlax-for" then some .vlaxFor
  else none

def text : HostKind → String
  | .root => "Root"
  | .defun => "Defun"
  | .defunQ => "DefunQ"
  | .lambda => "Lambda"
  | .foreach => "Foreach"
  | .vlaxFor => "VlaxFor"

def isNamed : HostKind → Bool
  | .defun | .defunQ => true
  | _ => false

/-- Which key of the form lists the names that it binds. -/
def headerKey (kind : HostKind) : Nat :=
  if kind.isNamed then 2 else 1

end HostKind

inductive ScopeItem where
  | reference (id : Nat)
  | host (id : Nat)
deriving DecidableEq, Inhabited

structure Reference where
  name : String
  index : Nat
  range : Range
  /-- It names the definition that owns it. -/
  isDefinition : Bool
  /-- It is bound by the form that owns it. -/
  isLocal : Bool
  owner : Nat
deriving DecidableEq, Inhabited

structure Host where
  kind : HostKind
  parent : Option Nat
  items : Array ScopeItem
  named : Option Nat
  range : Range
deriving DecidableEq, Inhabited

structure ScopeTree where
  file : String
  hosts : Array Host
  references : Array Reference
deriving DecidableEq, Inhabited

inductive Role where
  | plain
  | bound
  | name
deriving DecidableEq

namespace ScopeTree

def addItem (t : ScopeTree) (host : Nat) (item : ScopeItem) : ScopeTree :=
  { t with hosts := t.hosts.modify host fun h => { h with items := h.items.push item } }

def pushReference (t : ScopeTree) (host : Nat) (role : Role) (a : Atom) : ScopeTree :=
  let reference : Reference := ⟨a.name, a.index, a.range, role = .name, role = .bound, host⟩
  { t with references := t.references.push reference }

def addReference (t : ScopeTree) (host : Nat) (role : Role) (a : Atom) : ScopeTree :=
  let id := t.references.size
  (t.pushReference host role a).addItem host (.reference id)

def note (native : String → Bool) (host : Nat) (role : Role) (t : ScopeTree) (a : Atom) : ScopeTree :=
  if a.isTracked native then t.addReference host role a else t

def addHost (t : ScopeTree) (parent : Nat) (kind : HostKind) (range : Range) : ScopeTree :=
  let id := t.hosts.size
  { t with hosts := t.hosts.push ⟨kind, some parent, #[], none, range⟩ }.addItem parent (.host id)

def nameHost (t : ScopeTree) (host : Nat) (v : FormView) : ScopeTree :=
  match v.key? 1 with
  | some (.atom a) =>
    let id := t.references.size
    let added := t.pushReference host .name a
    { added with hosts := added.hosts.modify host fun h => { h with named := some id } }
  | _ => t

def directAtoms (v : FormView) : List Atom :=
  v.form.items.filterMap fun node => node.index?.bind (v.atoms[·]?)

def bindHeader (native : String → Bool) (t : ScopeTree) (host : Nat) : Option Piece → ScopeTree
  | some (.atom a) => note native host .bound t a
  | some (.form list) => (directAtoms list).foldl (note native host .bound) t
  | none => t

/-- Opens the host of a form. The items that belong to its body start behind the header; without a
header it has none. -/
def openHost (native : String → Bool) (t : ScopeTree) (parent : Nat) (kind : HostKind)
    (v : FormView) : ScopeTree × Nat :=
  let host := t.hosts.size
  let added := t.addHost parent kind v.range
  let named := if kind.isNamed then added.nameHost host v else added
  match v.keyIndex? kind.headerKey with
  | none => (named, v.form.items.length)
  | some place => (bindHeader native named host (v.item? place), place + 1)

theorem weights_drop (count : Nat) (nodes : List Node) :
    Node.weights (nodes.drop count) ≤ Node.weights nodes := by
  induction nodes generalizing count with
  | nil => simp
  | cons node nodes ih =>
    cases count with
    | zero => simp
    | succ count =>
      have := ih count
      simp only [List.drop_succ_cons, Node.weights]
      omega

def inHost (host : Nat) (nodes : List Node) : List (Nat × Node) :=
  nodes.map (host, ·)

theorem inHost_nodes (host : Nat) (nodes : List Node) : (inHost host nodes).map (·.2) = nodes := by
  simp [inHost, Function.comp_def]

def walk (native : String → Bool) (atoms : Array Atom) (t : ScopeTree) :
    List (Nat × Node) → ScopeTree
  | [] => t
  | (host, .atom index) :: rest =>
    match atoms[index]? with
    | some a => walk native atoms (note native host .plain t a) rest
    | none => walk native atoms t rest
  | (host, .form span items) :: rest =>
    let v : FormView := ⟨atoms, ⟨span, items⟩, false⟩
    match v.head?.bind fun head => HostKind.ofHead? head.symbol with
    | none => walk native atoms t (inHost host items ++ rest)
    | some kind =>
      let inner := t.hosts.size
      let opened := t.openHost native host kind v
      walk native atoms opened.1 (inHost inner (items.drop opened.2) ++ rest)
termination_by nodes => Node.weights (nodes.map (·.2))
decreasing_by
  · simp only [List.map_cons, Node.weights, Node.weight]
    omega
  · simp only [List.map_cons, Node.weights, Node.weight]
    omega
  · simp only [List.map_append, inHost_nodes, List.map_cons, Node.weights_append, Node.weights,
      Node.weight]
    omega
  · have := weights_drop (t.openHost native host kind ⟨atoms, ⟨span, items⟩, false⟩).2 items
    simp only [List.map_append, inHost_nodes, List.map_cons, Node.weights_append, Node.weights,
      Node.weight]
    omega

end ScopeTree

def ScopeTree.build (native : String → Bool) (file : String) (d : Document) : ScopeTree :=
  walk native d.atoms ⟨file, #[⟨.root, none, #[], none, d.view.range⟩], #[]⟩
    (inHost 0 d.root.items)

end LispIndex
