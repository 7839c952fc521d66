import RegexDiagram.Compiled

/-!
A session runs one compiled regex step by step and shows the last step in its graph.
-/
namespace RegexDiagram

structure Session where
  compiled : Compiled
  /-- The nodes to test against the next character. -/
  current : List Nat := []
  last : Option RunStep := none
  graph : Graph := compiled.graph

namespace Session

/-- Makes a step the last one. -/
def record (s : Session) (step : RunStep) : Session :=
  { s with current := step.next, last := some step }

def start (s : Session) : Session × RunStep :=
  (s.record s.compiled.automaton.start, s.compiled.automaton.start)

/-- Tests one character of an input against the current nodes, or against the given ones. -/
def step (s : Session) (input : List Char) (pos : Nat) (current : Option (List Nat)) :
    Except RunError (Session × RunStep) :=
  (s.compiled.automaton.step (current.getD s.current) input pos).map fun step =>
    (s.record step, step)

/-- Shows the last step in the graph. -/
def highlight (s : Session) : Session :=
  match s.last with
  | some step => { s with graph := s.compiled.highlight step s.graph }
  | none => s

end Session
end RegexDiagram
