import RegexDiagram.Token

/-!
Nodes of an automaton. A node is known by its position in the list of nodes that it belongs to, and
refers to others by position. Besides the edges along which the automaton runs, a node has the links
along which it is drawn: quantifier nodes are not drawn, so the drawing passes them by.
-/
namespace RegexDiagram

inductive Node.Kind
  | piece (p : Piece)
  | first
  | last
deriving DecidableEq

/-- Where an alternation branches in the drawing, and how tall each branch is. -/
structure Fork where
  branches : List Nat
  heights : List Nat
deriving DecidableEq

structure Node where
  kind : Node.Kind
  pos : Option Nat := none
  /-- The lexeme that the node stands for. -/
  index : Option Nat := none
  /-- The edges. One without a target led to a fork that another fork has replaced. -/
  next : List (Option Nat) := []
  /-- The quantifier that is drawn at the node. -/
  quantifier : Option Quantifier := none
  /-- For an opening parenthesis, the closing one. -/
  close : Option Nat := none
  /-- The nodes from which lines are drawn to this one. -/
  sources : List Nat := []
  fork : Option Fork := none
  /-- Which branch of the fork in front starts here. -/
  branch : Option Nat := none
deriving DecidableEq

namespace Node

namespace Kind

def label : Kind → List Char
  | piece p => p.label
  | first => ['>']
  | last => ['>']

def name : Kind → String
  | piece p => p.name
  | first => "first"
  | last => "last"

end Kind

/-- The node of a token, without any links. -/
def ofToken (t : Token) : Node :=
  { kind := .piece t.piece, pos := some t.pos, index := some t.index }

def label (n : Node) : List Char := n.kind.label

def name (n : Node) : String := n.kind.name

/-- The value that a node tests characters against. Control nodes have none. -/
def value? (n : Node) : Option Value :=
  match n.kind with
  | .piece (.value v) => some v
  | _ => none

/-- Quantifier nodes are not drawn. -/
def isDrawn (n : Node) : Bool :=
  match n.kind with
  | .piece (.quantifier _) => false
  | _ => true

def targets (n : Node) : List Nat := n.next.filterMap id

/-- Moves a node together with everything it refers to. -/
def shift (k : Nat) (n : Node) : Node :=
  { n with
    next := n.next.map (·.map (k + ·))
    close := n.close.map (k + ·)
    sources := n.sources.map (k + ·)
    fork := n.fork.map fun f => { f with branches := f.branches.map (k + ·) } }

def addEdge (target : Nat) (n : Node) : Node := { n with next := n.next ++ [some target] }

/-- Cuts the edges to a node that is no longer there. -/
def loseTarget (target : Nat) (n : Node) : Node :=
  { n with next := n.next.map fun e => if e = some target then none else e }

def setSources (sources : List Nat) (n : Node) : Node := { n with sources := sources }

/-- Makes a node the start of a branch of a fork. -/
def asBranch (fork branch : Nat) (n : Node) : Node :=
  { n with sources := [fork], branch := some branch }

def setQuantifier (q : Quantifier) (n : Node) : Node := { n with quantifier := some q }

end Node
end RegexDiagram
