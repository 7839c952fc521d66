import RegexDiagram.Automaton

/-!
The places of nodes in the drawing of an automaton. Columns run from left to right in whole steps.
The branches of a fork are stacked from top to bottom, each as tall as its height, so that the fork
is level with the middle between the first and the last branch; where branches meet again the
drawing goes on at that middle.
-/
namespace RegexDiagram

structure Coord where
  x : Int
  y : Rat
deriving DecidableEq

namespace Coord

/-- One column to the right, `dy` further down. -/
def right (c : Coord) (dy : Rat) : Coord := ⟨c.x + 1, c.y + dy⟩

/-- Where lines from `first` and `others` meet: right of all of them, and in the middle between the
first and the last. -/
def meet (first : Coord) (others : List Coord) : Coord :=
  ⟨(others.foldl (fun x c => max x c.x) first.x) + 1,
    (first.y + (others.getLastD first).y) / 2⟩

end Coord

namespace Fork

def stackedHeight : List Nat → Nat
  | [] => 0
  | height :: heights => height + stackedHeight heights

/--
How far below its fork a branch is drawn, in quarters, if there is such a branch. From the top of
the stack it is `above + height / 2` to the middle of the branch, and to the fork it is the mean of
`first / 2` and `total - last / 2`.
-/
def offsetQuarters? (heights : List Nat) (branch : Nat) : Option Int :=
  heights[branch]?.map fun height =>
    let above : Int := stackedHeight (heights.take branch)
    let total : Int := stackedHeight heights
    let first : Int := heights.headD 0
    let last : Int := heights.getLastD 0
    4 * above + 2 * height - (first + 2 * total - last)

/-- How far below its fork a branch is drawn, if there is such a branch. -/
def offset? (heights : List Nat) (branch : Nat) : Option Rat :=
  (offsetQuarters? heights branch).map (mkRat · 4)

end Fork

namespace Layout

inductive Error
  /-- A fork to which no line leads. -/
  | noSource
  /-- A node that would have to be placed earlier. -/
  | noCoord
deriving DecidableEq

/-- The places of the nodes up to some node. Nodes that are not drawn have none. -/
abbrev Places := Array (Option Coord)

def Places.get (placed : Places) (i : Nat) : Except Error Coord :=
  match placed[i]? with
  | some (some c) => .ok c
  | _ => .error .noCoord

/-- Places a branch of the fork at `source`. -/
def placeBranch (nodes : Array Node) (placed : Places) (source branch : Nat) :
    Except Error Coord := do
  let c ← placed.get source
  let heights := (nodes[source]?.bind (·.fork)).elim [] (·.heights)
  match Fork.offset? heights branch with
  | some dy => .ok (c.right dy)
  | none => .error .noSource

/-- Places one node. There is no place for a node to which no line leads. -/
def place (nodes : Array Node) (placed : Places) (n : Node) : Except Error (Option Coord) :=
  if n.kind = .first then .ok (some ⟨0, 0⟩)
  else
    match n.fork, n.branch, n.sources with
    | some _, _, [] => .error .noSource
    | some _, _, source :: _ => .ok placed[source]?.join
    | none, some _, [] => .error .noSource
    | none, some branch, source :: _ => (placeBranch nodes placed source branch).map some
    | none, none, [] => .ok none
    | none, none, [source] => (placed.get source).map fun c => some (c.right 0)
    | none, none, source :: sources => do
        let first ← placed.get source
        let others ← sources.mapM placed.get
        return some (first.meet others)

/-- Places nodes in order. An error leaves the nodes from there on without a place. -/
def placeAll (nodes : Array Node) (placed : Places) : List Node → Places × Option Error
  | [] => (placed, none)
  | n :: rest =>
      if n.isDrawn then
        match place nodes placed n with
        | .ok c => placeAll nodes (placed.push c) rest
        | .error e => (placed, some e)
      else placeAll nodes (placed.push none) rest

/-- The places of the nodes of an automaton, and the error that ended the search for them. -/
def ofAutomaton (a : Automaton) : Places × Option Error := placeAll a.nodes #[] a.nodes.toList

def Error.message : Error → String
  | noSource => "Layout: No line leads to a fork"
  | noCoord => "Layout: A node has no place"

end Layout
end RegexDiagram
