import Mathlib.Algebra.BigOperators.Group.Finset.Basic
import RegexDiagram.Proofs.Closure

/-!
A walk as a recursion. Visiting a control node is visiting the nodes that it leads to, one after the
other, and all of them share what has been visited. The recursion has no stack of its own, and
nothing in its definition says how deep it goes. It goes no deeper than there are nodes to visit and
has the outcome of the walk, and so has the loop that takes one node after the other from a stack.
-/
namespace RegexDiagram

/-- The outcome of two walks, one of which goes on where the other ended. -/
def Walk.followedBy (w rest : Walk) : Walk := { rest with found := w.found ++ rest.found }

theorem NodeSet.missing_le (n : Nat) (s : NodeSet) : s.missing n ≤ n :=
  List.countP_le_length.trans_eq List.length_range

namespace Automaton

/-- Visits nodes in order, up to one from which `last` is reached. -/
def visitAll (visit : NodeSet → Nat → Option Walk) (visited : NodeSet) : List Nat → Option Walk
  | [] => some ⟨false, [], visited⟩
  | i :: is => do
      let w ← visit visited i
      if w.reached then return w
      let rest ← visitAll visit w.visited is
      return w.followedBy rest

/--
Visits a node, if no visits are nested deeper than `depth`. A node that has been visited is skipped,
a node with a value is not left, and `last` ends the visit of all others.
-/
def visit (a : Automaton) : Nat → NodeSet → Nat → Option Walk
  | 0, _, _ => none
  | depth + 1, visited, i =>
      if visited.contains i then some ⟨false, [], visited⟩
      else
        match a.nodes[i]? with
        | none => some ⟨false, [], visited⟩
        | some n =>
            if n.kind = .last then some ⟨true, [], visited.insert i⟩
            else if n.value?.isSome then some ⟨false, [i], visited.insert i⟩
            else visitAll (a.visit depth) (visited.insert i) n.targets

variable {a : Automaton} {visited : NodeSet} {i : Nat}

/-! ## The recursion -/

theorem missing_walk_le (a : Automaton) (visited : NodeSet) (stack : List Nat) (n : Nat) :
    (a.walk visited stack).visited.missing n ≤ visited.missing n := by
  fun_induction walk a visited stack with
  | case1 => exact Nat.le_refl _
  | case2 visited i stack hv ih => exact ih
  | case3 visited i => exact visited.missing_insert_le n i
  | case4 visited i stack hv hi node hlast hvalue ih =>
    exact Nat.le_trans ih (visited.missing_insert_le n i)
  | case5 visited i stack hv hi node hlast hvalue ih =>
    exact Nat.le_trans ih (visited.missing_insert_le n i)
  | case6 visited i stack hv hi ih => exact ih

theorem visitAll_eq_walk {visit : NodeSet → Nat → Option Walk} {is : List Nat}
    (h : ∀ s j, s.missing a.nodes.size ≤ visited.missing a.nodes.size →
      visit s j = some (a.walk s [j])) :
    visitAll visit visited is = some (a.walk visited is) := by
  induction is generalizing visited with
  | nil => rw [visitAll, walk_nil]
  | cons i is ih =>
    have hle := a.missing_walk_le visited [i] a.nodes.size
    have hrest := ih fun s j hs => h s j (Nat.le_trans hs hle)
    have happend : a.walk visited (i :: is) = (a.walk visited [i]).andThen (a.walk · is) :=
      a.walk_append visited [i] is
    rw [visitAll, h visited i (Nat.le_refl _), happend, Walk.andThen]
    simp only [Option.bind_eq_bind, Option.bind_some, hrest]
    split <;> rfl

theorem visit_eq_walk {depth : Nat} (h : visited.missing a.nodes.size < depth) :
    a.visit depth visited i = some (a.walk visited [i]) := by
  induction depth generalizing visited i with
  | zero => contradiction
  | succ depth ih =>
    by_cases hv : visited.contains i = true
    · rw [visit, if_pos hv, walk_visited a [] hv, walk_nil]
    by_cases hi : i < a.nodes.size
    · rw [visit, if_neg hv, Array.getElem?_eq_getElem hi]
      dsimp only
      split
      case isTrue hlast => rw [walk_last a [] hv hi hlast]
      case isFalse hlast =>
        split
        case isTrue hvalue =>
          rw [walk_value a [] hv hi hlast hvalue, walk_nil]
          rfl
        case isFalse hvalue =>
          have hlt := NodeSet.missing_insert_lt hi (Bool.eq_false_of_not_eq_true hv)
          rw [walk_control a [] hv hi hlast hvalue, List.append_nil]
          exact visitAll_eq_walk fun s j hs => ih (by omega)
    · rw [visit, if_neg hv, Array.getElem?_eq_none (by omega), walk_absent a [] hi, walk_nil]

/-! ## The loop -/

/-- What the loop of a walk works on. -/
structure Loop where
  stack : List Nat
  found : List Nat
  visited : NodeSet

/-- One turn of the loop, for the node on top of the stack: the loop ends, or it goes on. -/
def turn (a : Automaton) : Loop → Walk ⊕ Loop
  | ⟨[], found, visited⟩ => .inl ⟨false, found, visited⟩
  | ⟨i :: stack, found, visited⟩ =>
      if visited.contains i then .inr ⟨stack, found, visited⟩
      else
        match a.nodes[i]? with
        | none => .inr ⟨stack, found, visited⟩
        | some n =>
            if n.kind = .last then .inl ⟨true, found, visited.insert i⟩
            else if n.value?.isSome then .inr ⟨stack, found ++ [i], visited.insert i⟩
            else .inr ⟨n.targets ++ stack, found, visited.insert i⟩

def turns (a : Automaton) : Nat → Loop → Option Walk
  | 0, _ => none
  | n + 1, s => (a.turn s).elim some (a.turns n)

/-- The nodes that a node leads to. -/
def targetsAt (a : Automaton) (i : Nat) : List Nat := (a.nodes[i]?.map Node.targets).getD []

theorem targetsAt_of_getElem? {n : Node} (h : a.nodes[i]? = some n) :
    a.targetsAt i = n.targets := by
  rw [targetsAt, h]
  rfl

/-- The number of edges that start at nodes not visited yet. -/
def unusedEdges (a : Automaton) (visited : NodeSet) : Nat :=
  ∑ i ∈ Finset.range a.nodes.size with ¬visited.contains i = true, (a.targetsAt i).length

theorem unusedEdges_insert (hv : ¬visited.contains i = true) (hi : i < a.nodes.size) :
    a.nodes[i].targets.length + a.unusedEdges (visited.insert i) = a.unusedEdges visited := by
  have hmem : i ∈ (Finset.range a.nodes.size).filter fun i => ¬visited.contains i = true := by
    simp [hi, hv]
  have hrest : ((Finset.range a.nodes.size).filter fun j => ¬(visited.insert i).contains j = true) =
      ((Finset.range a.nodes.size).filter fun j => ¬visited.contains j = true).erase i := by
    ext j
    simp only [Finset.mem_filter, Finset.mem_erase, NodeSet.contains_insert_iff, not_or]
    tauto
  have htargets := targetsAt_of_getElem? (Array.getElem?_eq_getElem hi)
  rw [unusedEdges, unusedEdges, hrest, ← Finset.add_sum_erase _ _ hmem, htargets]

theorem turns_ended {s : Loop} {w : Walk} {n : Nat} (h : a.turn s = .inl w) (hn : 0 < n) :
    a.turns n s = some w := by
  obtain ⟨n, rfl⟩ := Nat.exists_eq_add_one.mpr hn
  rw [turns, h]
  rfl

theorem turns_goesOn {s s' : Loop} {n : Nat} (h : a.turn s = .inr s') (hn : 0 < n) :
    a.turns n s = a.turns (n - 1) s' := by
  obtain ⟨n, rfl⟩ := Nat.exists_eq_add_one.mpr hn
  rw [turns, h]
  rfl

/-- Each turn takes a node from the stack, and only unused edges put nodes there. -/
theorem turns_eq_walk (a : Automaton) {visited : NodeSet} {stack : List Nat} (found : List Nat)
    {n : Nat} (hn : stack.length + a.unusedEdges visited < n) :
    a.turns n ⟨stack, found, visited⟩ =
      some { a.walk visited stack with found := found ++ (a.walk visited stack).found } := by
  fun_induction walk a visited stack generalizing n found with
  | case1 visited => rw [turns_ended rfl (by omega), List.append_nil]
  | case2 visited i stack hv ih =>
    have hturn : a.turn ⟨i :: stack, found, visited⟩ = .inr ⟨stack, found, visited⟩ := if_pos hv
    rw [List.length_cons] at hn
    rw [turns_goesOn hturn (by omega)]
    apply ih
    omega
  | case3 visited i stack hv hi node hlast =>
    have hturn : a.turn ⟨i :: stack, found, visited⟩ = .inl ⟨true, found, visited.insert i⟩ := by
      simp [turn, hv, hi, node, hlast]
    rw [turns_ended hturn (by omega), List.append_nil]
  | case4 visited i stack hv hi node hlast hvalue ih =>
    have hturn : a.turn ⟨i :: stack, found, visited⟩ =
        .inr ⟨stack, found ++ [i], visited.insert i⟩ := by
      simp [turn, hv, hi, node, hlast, hvalue]
    have hedges := unusedEdges_insert hv hi
    rw [List.length_cons] at hn
    rw [turns_goesOn hturn (by omega), ih (found ++ [i]) (by omega), List.append_assoc]
    rfl
  | case5 visited i stack hv hi node hlast hvalue ih =>
    have hturn : a.turn ⟨i :: stack, found, visited⟩ =
        .inr ⟨node.targets ++ stack, found, visited.insert i⟩ := by
      simp [turn, hv, hi, node, hlast, hvalue]
    have hedges : node.targets.length + a.unusedEdges (visited.insert i) = a.unusedEdges visited :=
      unusedEdges_insert hv hi
    rw [List.length_cons] at hn
    rw [turns_goesOn hturn (by omega)]
    apply ih
    rw [List.length_append]
    omega
  | case6 visited i stack hv hi ih =>
    have hturn : a.turn ⟨i :: stack, found, visited⟩ = .inr ⟨stack, found, visited⟩ := by
      simp [turn, hv, hi]
    rw [List.length_cons] at hn
    rw [turns_goesOn hturn (by omega)]
    apply ih
    omega

/--
From any node, whatever has been visited and found before, the loop of a walk ends, and after no
more turns than there are edges to go along, but for two. The recursion ends as well, and is nested
no deeper than there are nodes to visit, but for one. Both have the same outcome: whether `last` is
reached, what is found in which order, and what has been visited.
-/
theorem walk_visits_depth_first (a : Automaton) (visited : NodeSet) (found : List Nat) (i : Nat) :
    ∃ w, (∀ depth, visited.missing a.nodes.size < depth → a.visit depth visited i = some w) ∧
      a.walk visited [i] = w ∧
      a.turns (a.unusedEdges visited + 2) ⟨[i], found, visited⟩ =
        some { w with found := found ++ w.found } := by
  refine ⟨a.walk visited [i], fun depth h => visit_eq_walk h, rfl, a.turns_eq_walk found ?_⟩
  rw [List.length_singleton]
  omega

end Automaton
end RegexDiagram
