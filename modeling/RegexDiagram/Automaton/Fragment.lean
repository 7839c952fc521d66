import RegexDiagram.Automaton.Node

/-!
Fragments are parts of an automaton: an entry, which is the node at position zero, and terminals
that do not lead on yet. The operations put fragments together in the way of the operators of a
regex. Nodes stay in the order of the source, save that a fork or a quantifier that may skip its
operand comes in front of it.
-/
namespace RegexDiagram

structure Fragment where
  nodes : List Node
  /-- Where the fragment ends. -/
  terminals : List Nat
  /-- The entry of the fragment in the drawing. -/
  drawnEntry : Nat
  /-- Where the fragment ends in the drawing. -/
  drawnTerminals : List Nat
  /-- The number of values on top of each other. -/
  height : Nat
  /-- The lexemes it was made from. -/
  extent : Operand
deriving DecidableEq

namespace Fragment

/-- Adds an edge from each terminal to a node. -/
def leadTo (target : Nat) (terminals : List Nat) (nodes : List Node) : List Node :=
  nodes.mapIdx fun i n => if terminals.contains i then n.addEdge target else n

/-- Marks where a quantified fragment starts and ends in the drawing. -/
def tag (q : Quantifier) (f : Fragment) : List Node :=
  let tagged := f.nodes.modify f.drawnEntry (·.setQuantifier q)
  match f.drawnTerminals with
  | terminal :: _ => tagged.modify terminal (·.setQuantifier q)
  | [] => tagged

/-- A fragment of one node. -/
def single (n : Node) (extent : Operand) : Fragment where
  nodes := [n]
  terminals := [0]
  drawnEntry := 0
  drawnTerminals := [0]
  height := 1
  extent := extent

/-- The fragment of a value. A bracket expression takes up several lexemes. -/
def ofValue (t : Token) : Fragment :=
  single (.ofToken t) ⟨some t.index, some (t.last.getD t.index)⟩

def concat (f g : Fragment) : Fragment :=
  let k := f.nodes.length
  { nodes := leadTo k f.terminals f.nodes
      ++ (g.nodes.map (·.shift k)).modify g.drawnEntry (·.setSources f.drawnTerminals)
    terminals := g.terminals.map (k + ·)
    drawnEntry := f.drawnEntry
    drawnTerminals := g.drawnTerminals.map (k + ·)
    height := max f.height g.height
    extent := ⟨f.extent.first, g.extent.last⟩ }

/-- The fork that a fragment starts with. -/
def fork? (f : Fragment) : Option Fork := f.nodes.head?.bind (·.fork)

/-- A new fork in front of two fragments. -/
def branchOff (t : Token) (f g : Fragment) : List Node :=
  let k := 1 + f.nodes.length
  { Node.ofToken t with
      next := [some 1, some k]
      fork := some ⟨[1 + f.drawnEntry, k + g.drawnEntry], [f.height, g.height]⟩ }
    :: (f.nodes.map (·.shift 1)).modify f.drawnEntry (·.asBranch 0 0)
    ++ (g.nodes.map (·.shift k)).modify g.drawnEntry (·.asBranch 0 1)

/--
One more branch for the fork that the first fragment starts with. The new fork takes the place of
the old one, which is where the branches are already linked to.
-/
def addBranch (t : Token) (fork : Fork) (f g : Fragment) : List Node :=
  let k := f.nodes.length
  { Node.ofToken t with
      next := f.nodes.head?.elim [] (·.next) ++ [some k]
      fork := some ⟨fork.branches ++ [k + g.drawnEntry], fork.heights ++ [g.height]⟩ }
    :: f.nodes.tail.map (·.loseTarget 0)
    ++ (g.nodes.map (·.shift k)).modify g.drawnEntry (·.asBranch 0 fork.branches.length)

/-- A choice between two fragments, if the second does not start with a fork. -/
def alternate (t : Token) (f g : Fragment) : Option Fragment :=
  if g.fork?.isSome then none
  else
    let nodes := match f.fork? with
      | some fork => addBranch t fork f g
      | none => branchOff t f g
    let kf := if f.fork?.isSome then 0 else 1
    let kg := kf + f.nodes.length
    some
      { nodes := nodes
        terminals := f.terminals.map (kf + ·) ++ g.terminals.map (kg + ·)
        drawnEntry := 0
        drawnTerminals := f.drawnTerminals.map (kf + ·) ++ g.drawnTerminals.map (kg + ·)
        height := f.height + g.height
        extent := ⟨f.extent.first, g.extent.last⟩ }

def optional (t : Token) (f : Fragment) : Fragment where
  nodes := { Node.ofToken t with next := [some 1] } :: (f.tag .optional).map (·.shift 1)
  terminals := f.terminals.map (1 + ·) ++ [0]
  drawnEntry := 1 + f.drawnEntry
  drawnTerminals := f.drawnTerminals.map (1 + ·)
  height := f.height
  extent := ⟨f.extent.first, some t.index⟩

def star (t : Token) (f : Fragment) : Fragment where
  nodes := { Node.ofToken t with next := [some 1] }
    :: leadTo 0 f.terminals ((f.tag .star).map (·.shift 1))
  terminals := [0]
  drawnEntry := 1 + f.drawnEntry
  drawnTerminals := f.drawnTerminals.map (1 + ·)
  height := f.height
  extent := ⟨f.extent.first, some t.index⟩

def plus (t : Token) (f : Fragment) : Fragment where
  nodes := leadTo f.nodes.length f.terminals (f.tag .plus)
    ++ [{ Node.ofToken t with next := [some 0] }]
  terminals := [f.nodes.length]
  drawnEntry := f.drawnEntry
  drawnTerminals := f.drawnTerminals
  height := f.height
  extent := ⟨f.extent.first, some t.index⟩

def quantify (t : Token) : Quantifier → Fragment → Fragment
  | .optional => optional t
  | .star => star t
  | .plus => plus t

/-- The fragment in parentheses, of which the closing one is the lexeme `last` at `pos`. -/
def enclose (t : Token) (last pos : Nat) (f : Fragment) : Fragment :=
  let k := 1 + f.nodes.length
  { nodes :=
      { Node.ofToken t with next := [some 1], close := some k }
        :: leadTo k f.terminals
          ((f.nodes.map (·.shift 1)).modify f.drawnEntry (·.setSources [0]))
        ++ [{ kind := .piece .groupClose, pos := some pos, index := some last,
              sources := f.drawnTerminals.map (1 + ·) }]
    terminals := [k]
    drawnEntry := 0
    drawnTerminals := [k]
    height := f.height
    extent := ⟨some t.index, some last⟩ }

end Fragment
end RegexDiagram
