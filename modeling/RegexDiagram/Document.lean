import RegexDiagram.Json
import RegexDiagram.Compiled

/-!
The JSON documents in which lexemes, diagnostics, automata, graphs and runs are handed out. Fields
that are not set are left out.
-/
namespace RegexDiagram

namespace Document

/-- A field that is only there if it is set. -/
def optional {α : Type} (key : String) (f : α → Json) : Option α → List (String × Json)
  | some a => [(key, f a)]
  | none => []

def quantifier (q : Quantifier) : Json := Json.ofChars [q.symbol]

def operand (firstKey lastKey : String) (o : Operand) : List (String × Json) :=
  optional firstKey Json.ofNat o.first ++ optional lastKey Json.ofNat o.last

def lexeme (l : Lexeme) : Json :=
  .object <|
    [("label", Json.ofChars l.label), ("type", .string l.glyph.name), ("pos", Json.ofNat l.pos),
      ("index", Json.ofNat l.index), ("displayType", .string l.glyph.style),
      ("invalid", .bool l.invalid)]
    ++ optional "begin" Json.ofNat (l.extent.map (·.first))
    ++ optional "end" Json.ofNat (l.extent.map (·.last))
    ++ optional "negate" Json.bool (l.glyph.bracket?.map (·.negated))
    ++ optional "matches" Json.ofChars (l.glyph.bracket?.map (·.members))
    ++ operand "begin_l" "end_l" l.left
    ++ operand "begin_r" "end_r" l.right

def diagnostic (d : Diagnostic) : Json :=
  .object
    [("type", .string d.category.key), ("label", Json.ofChars d.label),
      ("issue", .string d.category.issue), ("msg", .string d.category.remedy),
      ("count", Json.ofNat d.count), ("positions", Json.ofList Json.ofNat d.positions)]

def symbol (s : Symbol) : Json :=
  .object <|
    [("label", Json.ofChars s.label), ("type", .string s.name),
      ("pos", Json.ofOption Json.ofNat (s.token?.map (·.pos))),
      ("index", Json.ofOption Json.ofNat (s.token?.map (·.index)))]
    ++ optional "negate" Json.bool ((s.token?.bind (·.bracket?)).map (·.negated))

/-- The target of an edge. A fork that was replaced has no position. -/
def edge : Option Nat → Json
  | some i => Json.ofNat i
  | none => Json.ofInt (-1)

def node (n : Node) (index : Nat) (place : Option Nat) : Json :=
  .object
    [("label", Json.ofChars n.label), ("type", .string n.name), ("nodeIndex", Json.ofNat index),
      ("graphNodeIndex", Json.ofOption Json.ofNat place), ("next", Json.ofList edge n.next)]

def automaton (a : Automaton) : Json :=
  .array ((a.nodes.toList.zip a.places).zipIdx.map fun ((n, place), i) => node n i place)

def coord (c : Coord) : Json := .array [Json.ofInt c.x, Json.ofRat c.y]

def line (l : Coord × Coord) : Json := .array [coord l.1, coord l.2]

def graphNode (n : GraphNode) : Json :=
  .object <|
    [("label", Json.ofChars n.label), ("coord", coord n.coord), ("classes", .string n.classes),
      ("runClasses", .string n.runClasses)]
    ++ optional "quantifier" quantifier n.quantifier

def graph (g : Graph) : Json :=
  .object
    [("nodes", Json.ofList graphNode g.nodes), ("links", Json.ofList line g.links),
      ("forks", Json.ofList (Json.ofList coord) g.forks),
      ("merges", Json.ofList (Json.ofList coord) g.merges),
      ("parentheses", Json.ofList line g.parentheses)]

def compiled (c : Compiled) : Json :=
  .object
    [("regex", Json.ofChars c.source), ("lexemes", Json.ofList lexeme c.lexemes),
      ("rpn", Json.ofList symbol c.symbols), ("nfa", automaton c.automaton),
      ("graph", graph c.graph), ("warnings", Json.ofList diagnostic c.report),
      ("autofix", Json.ofChars c.repaired)]

def hint (h : Hint) : Json :=
  .object <|
    [("label", Json.ofChars h.label)]
    ++ optional "type" Json.string h.kind
    ++ [("name", .string h.name), ("description", .string h.description)]
    ++ optional "warning" Json.string h.warning
    ++ optional "range" Json.ofChars h.range
    ++ optional "left" Json.ofChars h.left
    ++ optional "right" Json.ofChars h.right

/-- The fields of a step of a run. -/
def step (s : RunStep) : List (String × Json) :=
  [("run_state", .string s.state.name), ("matching_nodes", Json.ofList Json.ofNat s.accepting),
    ("next_nodes", Json.ofList Json.ofNat s.next)]

end Document
end RegexDiagram
