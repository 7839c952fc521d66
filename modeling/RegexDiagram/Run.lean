import RegexDiagram.Run.Walk
import RegexDiagram.Graph

/-!
Running an automaton on an input, one character at a time. A run keeps the value nodes that may
consume the next character. The first of them that accepts it and leads to `last` ends the run.
-/
namespace RegexDiagram

inductive RunState
  | starting
  | running
  | success
  | failure
  | endOfString
deriving DecidableEq

namespace RunState

def name : RunState → String
  | starting => "starting"
  | running => "running"
  | success => "success"
  | failure => "failure"
  | endOfString => "endOfString"

def isTerminal : RunState → Bool
  | starting => false
  | running => false
  | success => true
  | failure => true
  | endOfString => true

end RunState

structure RunStep where
  state : RunState
  /-- The nodes that accepted the character. -/
  accepting : List Nat := []
  /-- The value nodes to test against the next character. -/
  next : List Nat := []
deriving DecidableEq

inductive RunError
  | noNode (index : Nat)
  /-- A character cannot be tested against a node that is not a value. -/
  | controlNode (index : Nat)
deriving DecidableEq

def RunError.message : RunError → String
  | noNode index => "Run: There is no node " ++ toString index
  | controlNode index => "Run: Node " ++ toString index ++ " is not a value"

/-- What the nodes do with a character. -/
inductive Advance
  /-- A node accepts it and leads to `last`. -/
  | complete (node : Nat)
  /-- The nodes that accept it, and the value nodes that they lead to. -/
  | spread (accepting next : List Nat)
deriving DecidableEq

namespace Advance

/-- Puts a node that accepts in front, with what was found from it. -/
def cons (node : Nat) (found : List Nat) : Advance → Advance
  | complete last => complete last
  | spread accepting next => spread (node :: accepting) (found ++ next)

/-- The step of a run. `isLast` says that the character is the last one of the input. -/
def toStep (isLast : Bool) : Advance → RunStep
  | complete node => { state := .success, accepting := [node] }
  | spread [] _ => { state := .failure }
  | spread accepting next =>
      { state := if isLast then .endOfString else .running, accepting := accepting, next := next }

end Advance

namespace Automaton

/-- Tests a character against nodes in order. All of them share one set of visited nodes. -/
def advance (a : Automaton) (c : Char) (visited : NodeSet) : List Nat → Except RunError Advance
  | [] => .ok (.spread [] [])
  | i :: rest =>
      match a.nodes[i]? with
      | none => .error (.noNode i)
      | some n =>
          match n.value? with
          | none => .error (.controlNode i)
          | some v =>
              if v.accepts c then
                let w := a.walk visited n.targets
                if w.reached then .ok (.complete i)
                else (a.advance c w.visited rest).map (.cons i w.found)
              else a.advance c visited rest

/-- The step before any character is consumed. -/
def start (a : Automaton) : RunStep :=
  { state := .starting, accepting := [0], next := (a.walk {} [0]).found }

def consume (a : Automaton) (current : List Nat) (c : Char) (isLast : Bool) :
    Except RunError RunStep :=
  (a.advance c {} current).map (·.toStep isLast)

/-- Consumes the character at a position of the input. There is none past the end. -/
def step (a : Automaton) (current : List Nat) (input : List Char) (pos : Nat) :
    Except RunError RunStep :=
  match current.find? (a.nodes.size ≤ ·) with
  | some i => .error (.noNode i)
  | none =>
      match input[pos]? with
      | none => .ok { state := .failure }
      | some c => a.consume current c (pos + 1 = input.length)

/-- The steps that consume an input, up to a terminal one. -/
def follow (a : Automaton) (current : List Nat) : List Char → Except RunError (List RunStep)
  | [] => .ok []
  | c :: rest =>
      (a.consume current c rest.isEmpty).bind fun s =>
        if s.state.isTerminal then .ok [s] else (a.follow s.next rest).map (s :: ·)

/-- A whole run: the initial step and one for each character that it consumes. -/
def run (a : Automaton) (input : List Char) : Except RunError (List RunStep) :=
  (a.follow a.start.next input).map (a.start :: ·)

end Automaton

namespace Graph

/-- The text that is added to the last node to show the state of a run. -/
def stateClass (s : RunState) : String := " " ++ s.name

/-- Highlights what a step shows, given the place of each node of the automaton in the drawing. -/
def highlight (places : List (Option Nat)) (s : RunStep) (g : Graph) : Graph :=
  let active := s.accepting.filterMap fun i => places[i]?.join
  { g with
    nodes := g.nodes.mapIdx fun k n =>
      { n with
        runClasses := (if active.contains k then "active" else "")
          ++ (if k + 1 = g.nodes.length then stateClass s.state else "") } }

/-- The highlighted nodes by place. -/
def runClasses (g : Graph) : List String := g.nodes.map (·.runClasses)

end Graph
end RegexDiagram
