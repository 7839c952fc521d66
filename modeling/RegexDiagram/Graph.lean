import RegexDiagram.Layout

/-!
The drawing of an automaton: its nodes in their places and the lines between them. Quantifiers are
shown at the node or the parentheses that they apply to.
-/
namespace RegexDiagram

structure GraphNode where
  label : List Char
  coord : Coord
  classes : String
  quantifier : Option Quantifier
  /-- How the node is highlighted. -/
  runClasses : String := ""

structure Graph where
  nodes : List GraphNode
  /-- Lines from one node to one other. -/
  links : List (Coord × Coord)
  /-- Each fork, followed by the starts of its branches. -/
  forks : List (List Coord)
  /-- Each node at which lines meet, followed by the nodes they come from. -/
  merges : List (List Coord)
  /-- The parentheses of each group with a quantifier. -/
  parentheses : List (Coord × Coord)

namespace Node

def kindClass (n : Node) : String :=
  match n.kind with
  | .piece (.value (.literal _)) => "value"
  | .piece (.value _) => "value-special"
  | .piece .alternation => "operator"
  | .piece (.quantifier _) => "operator"
  | .piece .groupOpen => "delimiter"
  | .piece .groupClose => "delimiter"
  | .first => "first"
  | .last => "last"

def classes (n : Node) : String :=
  if n.quantifier.isSome then n.kindClass ++ " quantifier" else n.kindClass

/-- The node that a single line comes from. -/
def linkSource? (n : Node) : Option Nat :=
  if n.kind = .first ∨ n.fork.isSome ∨ n.branch.isSome then none
  else
    match n.sources with
    | [source] => some source
    | _ => none

/-- The nodes that lines come from, if there are several. -/
def mergeSources? (n : Node) : Option (List Nat) :=
  if n.fork.isNone ∧ 1 < n.sources.length then some n.sources else none

/-- The closing parenthesis of a group with a quantifier. -/
def quantifiedClose? (n : Node) : Option Nat :=
  if n.fork.isNone ∧ n.sources.length ≤ 1 ∧ n.kind = .piece .groupOpen ∧ n.quantifier.isSome then
    n.close
  else none

end Node

namespace Graph

def coordAt (placed : Layout.Places) (i : Nat) : Coord := placed[i]?.join.getD ⟨0, 0⟩

/-- The nodes that are drawn, with their positions in the automaton. -/
def drawnNodes (a : Automaton) : List (Node × Nat) := a.nodes.toList.zipIdx.filter (·.1.isDrawn)

/-- Draws an automaton whose drawn nodes all have a place. -/
def draw (a : Automaton) (placed : Layout.Places) : Graph :=
  let drawn := drawnNodes a
  let coord := coordAt placed
  { nodes := drawn.map fun (n, i) =>
      { label := n.label, coord := coord i, classes := n.classes, quantifier := n.quantifier }
    links := drawn.filterMap fun (n, i) => n.linkSource?.map fun s => (coord s, coord i)
    forks := drawn.filterMap fun (n, i) => n.fork.map fun f => coord i :: f.branches.map coord
    merges := drawn.filterMap fun (n, i) => n.mergeSources?.map fun ss => coord i :: ss.map coord
    parentheses := drawn.filterMap fun (n, i) => n.quantifiedClose?.map fun c => (coord i, coord c) }

/-- The drawing in given places, which may have ended in an error. -/
def ofLayout (a : Automaton) (layout : Layout.Places × Option Layout.Error) :
    Except Layout.Error Graph :=
  match layout.2 with
  | some e => .error e
  | none =>
      if (drawnNodes a).all fun (_, i) => layout.1[i]?.join.isSome then .ok (draw a layout.1)
      else .error .noCoord

/-- The drawing of an automaton, if all of its nodes have a place. -/
def ofAutomaton (a : Automaton) : Except Layout.Error Graph := ofLayout a (Layout.ofAutomaton a)

end Graph
end RegexDiagram
