import RegexDiagram.Proofs.DepthFirst
import RegexDiagram.Proofs.FirstOccurrences
import RegexDiagram.Proofs.Protocol

/-!
The nodes that accept a character, each seen by itself. A step walks on from all of them with one
set of visited nodes and stops at the first that leads to `last`. Nothing is lost by that: what is
left out of a walk, because it has been visited for another node, leads to nothing new. The order is
the same as if each node were walked on from afresh.
-/
namespace RegexDiagram

namespace NodeSet

def union (s t : NodeSet) : NodeSet := ⟨s.bits ||| t.bits⟩

variable {s t : NodeSet} {i : Nat}

@[simp] theorem contains_union : (s.union t).contains i = (s.contains i || t.contains i) := by
  simp [contains, union, Nat.testBit_or]

theorem ext_contains (h : ∀ i, s.contains i = t.contains i) : s = t := by
  obtain ⟨m⟩ := s
  obtain ⟨n⟩ := t
  exact congrArg mk (Nat.eq_of_testBit_eq h)

theorem empty_union (t : NodeSet) : union {} t = t :=
  ext_contains fun i => by simp

theorem insert_union (s t : NodeSet) (i : Nat) :
    (s.insert i).union t = (s.union t).insert i :=
  ext_contains fun j => by simp [Bool.or_assoc]

theorem insert_union_of_contains (h : t.contains i = true) :
    (s.insert i).union t = s.union t := by
  apply ext_contains
  intro j
  by_cases hij : i = j
  · simp [← hij, h]
  · simp [hij]

end NodeSet

/-- What is left of the outcome of a walk without the nodes that have been marked before. -/
def Walk.past (marked : NodeSet) (w : Walk) : Walk :=
  ⟨w.reached, w.found.filter fun j => !marked.contains j, w.visited.union marked⟩

namespace Automaton

variable {a : Automaton} {visited marked : NodeSet} {stack current : List Nat} {i j : Nat}
  {c : Char}

/-- What a node leads to if nothing has been visited before. -/
def closure (a : Automaton) (i : Nat) : Walk := a.walk {} (a.targetsAt i)

/-- Whether it leads to `last`. -/
def completes (a : Automaton) (i : Nat) : Bool := (a.closure i).reached

/-- Whether a node is a value that accepts a character. -/
def accepts (a : Automaton) (c : Char) (i : Nat) : Bool :=
  (a.nodes[i]?.bind Node.value?).any (·.accepts c)

/-- What nodes do with a character if each of them that accepts it is seen by itself. -/
def advanceApart (a : Automaton) (c : Char) (current : List Nat) : Advance :=
  let accepting := current.filter (a.accepts c)
  match accepting.find? a.completes with
  | some i => .complete i
  | none => .spread accepting (accepting.flatMap fun i => (a.closure i).found).eraseDups

/-! ## Closures -/

theorem edge_iff_mem_targetsAt : a.Edge i j ↔ j ∈ a.targetsAt i := by
  cases hn : a.nodes[i]? with
  | none => simp [Edge, targetsAt, hn]
  | some n => rw [targetsAt_of_getElem? hn, mem_targets, edge_iff hn]

theorem completes_iff (ha : a.InRange) :
    a.completes i = true ↔ ∃ j, a.IsLast j ∧ a.Leads i j := by
  constructor
  · intro h
    obtain ⟨j, hj, hmark, hnew⟩ := exists_last_of_reached h
    obtain ⟨m, hm, hs⟩ := (silent_of_contains hmark).resolve_right hnew
    exact ⟨j, hj, m, edge_iff_mem_targetsAt.mpr hm, hs⟩
  · intro h
    obtain ⟨j, hj, m, he, hs⟩ := h
    by_contra hcompletes
    have hreached : (a.closure i).reached = false := by simpa [completes] using hcompletes
    have hclosed := (closed_empty a).walk ha hreached
    have hm := (exhausted_of_not_reached hreached).stack m (edge_iff_mem_targetsAt.mp he) (ha i m he)
    exact hclosed.last j (hclosed.silent hm hs) hj

theorem mem_found_closure_iff (ha : a.InRange) (h : a.completes i = false) :
    j ∈ (a.closure i).found ↔ a.IsValue j ∧ a.Leads i j := by
  have hmem : j ∈ (a.closure i).found ↔ _ := mem_walk_found
  rw [hmem]
  constructor
  · intro h'
    obtain ⟨hmark, hnew, hj⟩ := h'
    obtain ⟨m, hm, hs⟩ := (silent_of_contains hmark).resolve_right hnew
    exact ⟨hj, m, edge_iff_mem_targetsAt.mpr hm, hs⟩
  · intro h'
    obtain ⟨hj, m, he, hs⟩ := h'
    have hclosed := (closed_empty a).walk ha h
    have hm := (exhausted_of_not_reached h).stack m (edge_iff_mem_targetsAt.mp he) (ha i m he)
    exact ⟨hclosed.silent hm hs, by simp, hj⟩

/-! ## Walks past what has been visited -/

theorem walk_skip (xs ys : List Nat) (h : ∀ i ∈ xs, visited.contains i = true) :
    a.walk visited (xs ++ ys) = a.walk visited ys := by
  induction xs with
  | nil => rfl
  | cons i xs ih =>
    obtain ⟨hi, hxs⟩ := List.forall_mem_cons.mp h
    rw [List.cons_append, walk_visited a _ hi, ih hxs]

/-- Nodes that lead to nothing new can be left out of a walk. -/
theorem walk_union (hmarked : a.Closed marked) (visited : NodeSet) (stack : List Nat) :
    a.walk (visited.union marked) stack = (a.walk visited stack).past marked := by
  fun_induction walk a visited stack with
  | case1 visited => simp [walk_nil, Walk.past]
  | case2 visited i stack hv ih => rw [walk_visited a stack (by simp [hv]), ih]
  | case3 visited i stack hv hi n hn =>
    have hnew : ¬(visited.union marked).contains i = true := by
      simp only [NodeSet.contains_union, Bool.or_eq_true]
      intro h
      exact h.elim hv fun hmark => hmarked.last i hmark ⟨n, Array.getElem?_eq_getElem hi, hn⟩
    rw [walk_last a stack hnew hi hn, Walk.past, NodeSet.insert_union]
    rfl
  | case4 visited i stack hv hi n hn hvalue ih =>
    by_cases hmark : marked.contains i = true
    · rw [NodeSet.insert_union_of_contains hmark] at ih
      rw [walk_visited a stack (by simp [hmark]), ih]
      simp [Walk.past, Walk.find, hmark]
    · rw [NodeSet.insert_union] at ih
      rw [walk_value a stack (by simp [hv, hmark]) hi hn hvalue, ih]
      simp [Walk.past, Walk.find, hmark]
  | case5 visited i stack hv hi n hn hvalue ih =>
    by_cases hmark : marked.contains i = true
    · have hnode : a.nodes[i]? = some n := Array.getElem?_eq_getElem hi
      have hcontrol : a.Control i := ⟨n, hnode, by simpa using hvalue⟩
      have hskip : ∀ j ∈ n.targets, (visited.union marked).contains j = true := by
        intro j hj
        have := hmarked.edges i hmark hcontrol j ⟨n, hnode, mem_targets.mp hj⟩
        simp [this]
      rw [NodeSet.insert_union_of_contains hmark, walk_skip _ _ hskip] at ih
      rw [walk_visited a stack (by simp [hmark]), ih]
    · rw [NodeSet.insert_union] at ih
      rw [walk_control a stack (by simp [hv, hmark]) hi hn hvalue, ih]
  | case6 visited i stack hv hi ih => rw [walk_absent a stack hi, ih]

theorem walk_targetsAt (hmarked : a.Closed marked) (i : Nat) :
    a.walk marked (a.targetsAt i) = (a.closure i).past marked := by
  rw [closure, ← walk_union hmarked, NodeSet.empty_union]

/-! ## Steps -/

/-- What nodes lead to beyond what is marked, each of them seen by itself. -/
def unmarked (a : Automaton) (marked : NodeSet) (nodes : List Nat) : List Nat :=
  ((nodes.flatMap fun i => (a.closure i).found).filter fun j => !marked.contains j).eraseDups

theorem unmarked_empty (a : Automaton) (nodes : List Nat) :
    a.unmarked {} nodes = (nodes.flatMap fun i => (a.closure i).found).eraseDups := by
  simp [unmarked]

theorem mem_found_iff_visited (hj : a.IsValue j) :
    j ∈ (a.closure i).found ↔ (a.closure i).visited.contains j = true := by
  have hmem : j ∈ (a.closure i).found ↔ _ := mem_walk_found
  rw [hmem]
  exact ⟨fun h => h.1, fun h => ⟨h, by simp, hj⟩⟩

theorem unmarked_cons (a : Automaton) (marked : NodeSet) (i : Nat) (nodes : List Nat) :
    a.unmarked marked (i :: nodes) = ((a.closure i).past marked).found ++
      a.unmarked ((a.closure i).past marked).visited nodes := by
  have hnodup : ((a.closure i).past marked).found.Nodup := nodup_walk_found.filter _
  have hfound : (a.closure i).found.filter (fun j => !marked.contains j) =
      ((a.closure i).past marked).found := rfl
  rw [unmarked, List.flatMap_cons, List.filter_append, hfound, eraseDups_append_of_nodup hnodup,
    unmarked, List.filter_filter]
  congr 2
  apply List.filter_congr
  intro j hj
  obtain ⟨k, -, hj⟩ := List.mem_flatMap.mp hj
  have hvalue : a.IsValue j := (mem_walk_found.mp hj).2.2
  simp only [Walk.past, List.mem_filter, mem_found_iff_visited hvalue, NodeSet.contains_union]
  cases (a.closure i).visited.contains j <;> cases marked.contains j <;> simp

theorem accepts_of_value? {n : Node} {v : Value} (hn : a.nodes[i]? = some n)
    (hv : n.value? = some v) : a.accepts c i = v.accepts c := by
  simp [accepts, hn, hv]

theorem advance_eq_unmarked (ha : a.InRange) (hmarked : a.Closed marked)
    (hcurrent : ∀ i ∈ current, a.IsValue i) :
    a.advance c marked current = .ok
      (match (current.filter (a.accepts c)).find? a.completes with
      | some i => .complete i
      | none => .spread (current.filter (a.accepts c))
          (a.unmarked marked (current.filter (a.accepts c)))) := by
  induction current generalizing marked with
  | nil => simp [advance, unmarked]
  | cons i rest ih =>
    obtain ⟨hi, hrest⟩ := List.forall_mem_cons.mp hcurrent
    obtain ⟨n, v, hn, hvalue, -⟩ := hi.exists_occurrence
    have haccepts := accepts_of_value? (c := c) hn hvalue
    by_cases hc : v.accepts c = true
    · rw [hc] at haccepts
      have hwalk : a.walk marked n.targets = (a.closure i).past marked := by
        rw [← walk_targetsAt hmarked, targetsAt_of_getElem? hn]
      rw [List.filter_cons_of_pos haccepts]
      by_cases hcompletes : a.completes i = true
      · have hreached : ((a.closure i).past marked).reached = true := hcompletes
        rw [List.find?_cons_of_pos hcompletes]
        simp [advance, hn, hvalue, hc, hwalk, hreached]
      · have hreached : ((a.closure i).past marked).reached = false :=
          (Bool.not_eq_true (a.completes i)).mp hcompletes
        have hclosed : a.Closed ((a.closure i).past marked).visited := by
          rw [← hwalk] at hreached ⊢
          exact hmarked.walk ha hreached
        rw [List.find?_cons_of_neg hcompletes, unmarked_cons]
        simp only [advance, hn, hvalue, hc, hwalk, hreached, ih hclosed hrest, if_true, Except.map,
          Bool.false_eq_true, if_false]
        split <;> rfl
    · have hskip : ¬a.accepts c i = true := by rwa [haccepts]
      rw [List.filter_cons_of_neg hskip]
      simp [advance, hn, hvalue, hc, ih hmarked hrest]

theorem advance_eq_advanceApart (ha : a.InRange) (hcurrent : ∀ i ∈ current, a.IsValue i)
    (c : Char) : a.advance c {} current = .ok (a.advanceApart c current) := by
  rw [advance_eq_unmarked ha (closed_empty a) hcurrent, unmarked_empty]
  rfl

end Automaton

/--
A step from any value nodes is what they do each by itself. It succeeds if some node accepts the
character that leads to `last`, and then with the first such node of the list. Otherwise it has the
accepting nodes in the order of the list, and hands on what is found from them, each value where it
is found first. What is found from a node is what a visit of the nodes behind it comes to depth
first, with nothing visited before.
-/
theorem step_spreads_apart (source input : List Char) :
    ∃ c, compile source = .ok c ∧
      (∀ i, (∀ depth, c.automaton.nodes.size < depth →
          Automaton.visitAll (c.automaton.visit depth) {} (c.automaton.targetsAt i) =
            some (c.automaton.closure i)) ∧
        (c.automaton.completes i = true ↔ ∃ j, c.automaton.IsLast j ∧ c.automaton.Leads i j) ∧
        (c.automaton.completes i = false → ∀ j, j ∈ (c.automaton.closure i).found ↔
          c.automaton.IsValue j ∧ c.automaton.Leads i j)) ∧
      ∀ current, (∀ i ∈ current, c.automaton.IsValue i) → ∀ p ch, input[p]? = some ch →
        c.automaton.step current input p =
          .ok ((c.automaton.advanceApart ch current).toStep (p + 1 = input.length)) := by
  obtain ⟨c, A, hcompile, hA⟩ := exists_compile source
  have hrange := A.inRange
  rw [← hA.automaton] at hrange
  refine ⟨c, hcompile, fun i => ⟨?_, ?_, ?_⟩, fun current hcurrent p ch hp => ?_⟩
  · intro depth hdepth
    have hmissing (s : NodeSet) : s.missing c.automaton.nodes.size < depth :=
      Nat.lt_of_le_of_lt (s.missing_le _) hdepth
    exact Automaton.visitAll_eq_walk fun s j _ => Automaton.visit_eq_walk (hmissing s)
  · exact Automaton.completes_iff hrange
  · exact fun h j => Automaton.mem_found_closure_iff hrange h
  · rw [Automaton.step_eq_consume hcurrent hp, Automaton.consume,
      Automaton.advance_eq_advanceApart hrange hcurrent]
    rfl

end RegexDiagram
