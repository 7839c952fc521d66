import RegexDiagram.Automaton
import RegexDiagram.Run.NodeSet

/-!
Walking through an automaton without consuming a character. The walk goes depth first, through
control nodes in the order of their edges, and gathers the values that are to be tested next. It
ends as soon as it reaches `last`.
-/
namespace RegexDiagram

/-- The outcome of a walk. -/
structure Walk where
  /-- The walk came to `last`. -/
  reached : Bool
  /-- The value nodes it came to, in order. -/
  found : List Nat
  visited : NodeSet
deriving DecidableEq

namespace Walk

/-- Puts a value node in front of those that were found. -/
def find (i : Nat) (w : Walk) : Walk := { w with found := i :: w.found }

/-- Goes on with another walk, unless `last` has been reached. -/
def andThen (w : Walk) (go : NodeSet → Walk) : Walk :=
  if w.reached then w
  else { go w.visited with found := w.found ++ (go w.visited).found }

theorem find_andThen (i : Nat) (w : Walk) (go : NodeSet → Walk) :
    (w.find i).andThen go = (w.andThen go).find i := by
  cases h : w.reached <;> simp [find, andThen, h]

end Walk

namespace Automaton

/-- Walks from each of the nodes on the stack in turn, skipping the nodes visited before. -/
def walk (a : Automaton) (visited : NodeSet) : List Nat → Walk
  | [] => ⟨false, [], visited⟩
  | i :: stack =>
      if hv : visited.contains i then a.walk visited stack
      else if hi : i < a.nodes.size then
        let n := a.nodes[i]
        if n.kind = .last then ⟨true, [], visited.insert i⟩
        else if n.value?.isSome then (a.walk (visited.insert i) stack).find i
        else a.walk (visited.insert i) (n.targets ++ stack)
      else a.walk visited stack
termination_by stack => (visited.missing a.nodes.size, stack.length)
decreasing_by
  · exact Prod.Lex.right _ (Nat.lt_succ_self _)
  · exact Prod.Lex.left _ _ (NodeSet.missing_insert_lt hi (by simpa using hv))
  · exact Prod.Lex.left _ _ (NodeSet.missing_insert_lt hi (by simpa using hv))
  · exact Prod.Lex.right _ (Nat.lt_succ_self _)

theorem walk_nil (a : Automaton) (visited : NodeSet) : a.walk visited [] = ⟨false, [], visited⟩ := by
  rw [walk]

theorem walk_visited (a : Automaton) {visited : NodeSet} {i : Nat} (stack : List Nat)
    (hv : visited.contains i) : a.walk visited (i :: stack) = a.walk visited stack := by
  rw [walk, dif_pos hv]

theorem walk_absent (a : Automaton) {visited : NodeSet} {i : Nat} (stack : List Nat)
    (hi : ¬i < a.nodes.size) : a.walk visited (i :: stack) = a.walk visited stack := by
  rw [walk, dif_neg hi, dite_eq_ite, ite_self]

theorem walk_last (a : Automaton) {visited : NodeSet} {i : Nat} (stack : List Nat)
    (hv : ¬visited.contains i) (hi : i < a.nodes.size) (hn : a.nodes[i].kind = .last) :
    a.walk visited (i :: stack) = ⟨true, [], visited.insert i⟩ := by
  rw [walk, dif_neg hv, dif_pos hi, if_pos hn]

theorem walk_value (a : Automaton) {visited : NodeSet} {i : Nat} (stack : List Nat)
    (hv : ¬visited.contains i) (hi : i < a.nodes.size) (hn : a.nodes[i].kind ≠ .last)
    (hvalue : a.nodes[i].value?.isSome) :
    a.walk visited (i :: stack) = (a.walk (visited.insert i) stack).find i := by
  rw [walk, dif_neg hv, dif_pos hi, if_neg hn, if_pos hvalue]

theorem walk_control (a : Automaton) {visited : NodeSet} {i : Nat} (stack : List Nat)
    (hv : ¬visited.contains i) (hi : i < a.nodes.size) (hn : a.nodes[i].kind ≠ .last)
    (hvalue : ¬a.nodes[i].value?.isSome) :
    a.walk visited (i :: stack) = a.walk (visited.insert i) (a.nodes[i].targets ++ stack) := by
  rw [walk, dif_neg hv, dif_pos hi, if_neg hn, if_neg hvalue]

/-- Walking from several nodes is walking from them one after the other. -/
theorem walk_append (a : Automaton) (visited : NodeSet) (xs ys : List Nat) :
    a.walk visited (xs ++ ys) = (a.walk visited xs).andThen (a.walk · ys) := by
  fun_induction walk a visited xs with
  | case1 => simp [Walk.andThen]
  | case2 visited i stack hv ih => rw [List.cons_append, walk_visited a _ hv, ih]
  | case3 visited i stack hv hi n hn =>
    rw [List.cons_append, walk_last a _ hv hi hn]
    simp [Walk.andThen]
  | case4 visited i stack hv hi n hn hvalue ih =>
    rw [List.cons_append, walk_value a _ hv hi hn hvalue, ih, Walk.find_andThen]
  | case5 visited i stack hv hi n hn hvalue ih =>
    rw [List.cons_append, walk_control a _ hv hi hn hvalue, ← List.append_assoc, ih]
  | case6 visited i stack hv hi ih => rw [List.cons_append, walk_absent a _ hi, ih]

end Automaton
end RegexDiagram
