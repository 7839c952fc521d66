import RegexDiagram.Run
import RegexDiagram.Proofs.Traces

/-!
What a walk visits. A walk marks only nodes that it can come to without reading anything, and unless
it comes to `last` it leaves none of them out, however the nodes are linked in loops.
-/
namespace RegexDiagram

theorem NodeSet.contains_insert_iff {s : NodeSet} {i j : Nat} :
    (s.insert i).contains j = true ↔ i = j ∨ s.contains j = true := by
  rw [contains_insert, Bool.or_eq_true, decide_eq_true_eq]

namespace Automaton

variable {a : Automaton} {visited : NodeSet} {stack : List Nat} {i j : Nat}

theorem mem_targets {n : Node} : j ∈ n.targets ↔ some j ∈ n.next := by
  simp [Node.targets]

/-- A node between which and the next ones nothing is read. -/
def Control (a : Automaton) (i : Nat) : Prop := ∃ n, a.nodes[i]? = some n ∧ n.value? = none

def IsValue (a : Automaton) (i : Nat) : Prop := ∃ n, a.nodes[i]? = some n ∧ n.value?.isSome = true

def IsLast (a : Automaton) (i : Nat) : Prop := ∃ n, a.nodes[i]? = some n ∧ n.kind = .last

theorem contains_walk_of_contains (h : visited.contains j = true) :
    (a.walk visited stack).visited.contains j = true := by
  fun_induction walk a visited stack with
  | case1 => exact h
  | case2 visited i stack hv ih => exact ih h
  | case3 visited i stack hv hi n hn => simp [h]
  | case4 visited i stack hv hi n hn hvalue ih => exact ih (by simp [h])
  | case5 visited i stack hv hi n hn hvalue ih => exact ih (by simp [h])
  | case6 visited i stack hv hi ih => exact ih h

theorem contains_walk_insert (a : Automaton) (visited : NodeSet) (i : Nat) (stack : List Nat) :
    (a.walk (visited.insert i) stack).visited.contains i = true :=
  contains_walk_of_contains (NodeSet.contains_insert_iff.mpr (.inl rfl))

/-- A walk stays among nodes that lead nowhere else. -/
theorem walk_within {p : Nat → Prop}
    (hp : ∀ i, p i → a.Control i → ∀ j, a.Edge i j → p j ∨ visited.contains j = true)
    (hs : ∀ i ∈ stack, p i ∨ visited.contains i = true)
    (hj : (a.walk visited stack).visited.contains j = true) :
    p j ∨ visited.contains j = true := by
  have keep {visited : NodeSet} {i : Nat} (hi : p i) (j : Nat) :
      p j ∨ (visited.insert i).contains j = true ↔ p j ∨ visited.contains j = true := by
    rw [NodeSet.contains_insert_iff]
    constructor
    · intro h'
      rcases h' with h | rfl | h
      · exact .inl h
      · exact .inl hi
      · exact .inr h
    · exact fun h => h.imp_right .inr
  fun_induction walk a visited stack with
  | case1 => exact .inr hj
  | case2 visited i stack hv ih =>
    exact ih hp (fun i hi => hs i (List.mem_cons_of_mem _ hi)) hj
  | case3 visited i stack hv hi n hn =>
    have hpi := (hs i List.mem_cons_self).resolve_right hv
    exact (keep hpi j).mp (.inr hj)
  | case4 visited i stack hv hi n hn hvalue ih =>
    have hpi := (hs i List.mem_cons_self).resolve_right hv
    simp only [keep hpi] at ih
    exact ih hp (fun i hi => hs i (List.mem_cons_of_mem _ hi)) hj
  | case5 visited i stack hv hi n hn hvalue ih =>
    have hpi := (hs i List.mem_cons_self).resolve_right hv
    have hnode : a.nodes[i]? = some n := Array.getElem?_eq_getElem hi
    have hcontrol : a.Control i := ⟨n, hnode, by simpa using hvalue⟩
    simp only [keep hpi] at ih
    refine ih hp (fun j hj => ?_) hj
    rcases List.mem_append.mp hj with hj | hj
    · exact hp i hpi hcontrol j ⟨n, hnode, mem_targets.mp hj⟩
    · exact hs j (List.mem_cons_of_mem _ hj)
  | case6 visited i stack hv hi ih =>
    exact ih hp (fun i hi => hs i (List.mem_cons_of_mem _ hi)) hj

theorem not_isValue_of_control (h : a.Control i) : ¬a.IsValue i := by
  obtain ⟨n, hn, h⟩ := h
  intro h'
  obtain ⟨m, hm, hv⟩ := h'
  obtain rfl := Option.some.inj (hn.symm.trans hm)
  simp [h] at hv

theorem mem_walk_found : j ∈ (a.walk visited stack).found ↔
    (a.walk visited stack).visited.contains j = true ∧ ¬visited.contains j = true ∧
      a.IsValue j := by
  fun_induction walk a visited stack with
  | case1 =>
    constructor
    · intro hj
      exact absurd hj List.not_mem_nil
    · intro h'
      obtain ⟨h, hnew, -⟩ := h'
      exact absurd h hnew
  | case2 visited i stack hv ih => exact ih
  | case3 visited i stack hv hi n hn =>
    have hnode : a.nodes[i]? = some n := Array.getElem?_eq_getElem hi
    have hvalue := not_isValue_of_control ⟨n, hnode, by simp [Node.value?, hn]⟩
    simp only [List.not_mem_nil, NodeSet.contains_insert_iff, false_iff]
    intro h'
    obtain ⟨rfl | h, hnew, hj⟩ := h'
    · exact hvalue hj
    · exact hnew h
  | case4 visited i stack hv hi n hn hvalue ih =>
    have hi' : a.IsValue i := ⟨n, Array.getElem?_eq_getElem hi, hvalue⟩
    have hmark := a.contains_walk_insert visited i stack
    simp only [Walk.find, List.mem_cons, ih, NodeSet.contains_insert_iff]
    constructor
    · intro h'
      rcases h' with rfl | ⟨h, hnew, hj⟩
      · exact ⟨hmark, hv, hi'⟩
      · exact ⟨h, fun hj' => hnew (.inr hj'), hj⟩
    · intro h'
      obtain ⟨h, hnew, hj⟩ := h'
      by_cases heq : i = j
      · exact .inl heq.symm
      · exact .inr ⟨h, fun h => h.elim heq hnew, hj⟩
  | case5 visited i stack hv hi n hn hvalue ih =>
    have hnode : a.nodes[i]? = some n := Array.getElem?_eq_getElem hi
    have hvalue := not_isValue_of_control ⟨n, hnode, by simpa using hvalue⟩
    rw [ih, NodeSet.contains_insert_iff]
    constructor
    · intro h'
      obtain ⟨h, hnew, hj⟩ := h'
      exact ⟨h, fun hj' => hnew (.inr hj'), hj⟩
    · intro h'
      obtain ⟨h, hnew, hj⟩ := h'
      refine ⟨h, ?_, hj⟩
      intro h'
      rcases h' with rfl | h
      · exact hvalue hj
      · exact hnew h
  | case6 visited i stack hv hi ih => exact ih

theorem exists_last_of_reached (h : (a.walk visited stack).reached = true) :
    ∃ j, a.IsLast j ∧ (a.walk visited stack).visited.contains j = true ∧
      ¬visited.contains j = true := by
  fun_induction walk a visited stack with
  | case1 => simp at h
  | case2 visited i stack hv ih => exact ih h
  | case3 visited i stack hv hi n hn =>
    exact ⟨i, ⟨n, Array.getElem?_eq_getElem hi, hn⟩, by simp, hv⟩
  | case4 visited i stack hv hi n hn hvalue ih =>
    obtain ⟨j, hj, hmark, hnew⟩ := ih h
    exact ⟨j, hj, hmark, fun h => hnew (NodeSet.contains_insert_iff.mpr (.inr h))⟩
  | case5 visited i stack hv hi n hn hvalue ih =>
    obtain ⟨j, hj, hmark, hnew⟩ := ih h
    exact ⟨j, hj, hmark, fun h => hnew (NodeSet.contains_insert_iff.mpr (.inr h))⟩
  | case6 visited i stack hv hi ih => exact ih h

/-- All that a walk had to go on with is marked. -/
structure Exhausted (a : Automaton) (visited : NodeSet) (stack : List Nat) (marked : NodeSet) :
    Prop where
  stack : ∀ i ∈ stack, i < a.nodes.size → marked.contains i = true
  last : ∀ i, marked.contains i = true → visited.contains i = true ∨ ¬a.IsLast i
  edges : ∀ i, marked.contains i = true → ¬visited.contains i = true → a.Control i →
    ∀ j, a.Edge i j → j < a.nodes.size → marked.contains j = true

theorem Exhausted.of_insert {stack' : List Nat} {marked : NodeSet}
    (h : a.Exhausted (visited.insert i) stack' marked) (hmark : marked.contains i = true)
    (hlast : ¬a.IsLast i)
    (hedges : a.Control i → ∀ j, a.Edge i j → j < a.nodes.size → marked.contains j = true)
    (hstack : ∀ j ∈ stack, j ∈ stack') : a.Exhausted visited (i :: stack) marked where
  stack j hj hsize := by
    rcases List.mem_cons.mp hj with rfl | hj
    · exact hmark
    · exact h.stack j (hstack j hj) hsize
  last j hj := by
    rcases h.last j hj with hj | hj
    · rcases NodeSet.contains_insert_iff.mp hj with rfl | hj
      · exact .inr hlast
      · exact .inl hj
    · exact .inr hj
  edges j hj hnew hcontrol := by
    by_cases heq : i = j
    · exact heq ▸ hedges (heq ▸ hcontrol)
    · refine h.edges j hj (fun hj => ?_) hcontrol
      exact (NodeSet.contains_insert_iff.mp hj).elim heq hnew

theorem not_isLast_of_kind {n : Node} (hn : a.nodes[i]? = some n) (h : n.kind ≠ .last) :
    ¬a.IsLast i := by
  intro h'
  obtain ⟨m, hm, hk⟩ := h'
  obtain rfl := Option.some.inj (hn.symm.trans hm)
  exact h hk

theorem exhausted_of_not_reached (h : (a.walk visited stack).reached = false) :
    a.Exhausted visited stack (a.walk visited stack).visited := by
  fun_induction walk a visited stack with
  | case1 => exact ⟨by simp, fun i hi => .inl hi, fun i hi hnew => absurd hi hnew⟩
  | case2 visited i stack hv ih =>
    obtain ⟨hstack, hlast, hedges⟩ := ih h
    refine ⟨fun j hj hsize => ?_, hlast, hedges⟩
    rcases List.mem_cons.mp hj with rfl | hj
    · exact contains_walk_of_contains hv
    · exact hstack j hj hsize
  | case3 visited i stack hv hi n hn => simp at h
  | case4 visited i stack hv hi n hn hvalue ih =>
    have hnode : a.nodes[i]? = some n := Array.getElem?_eq_getElem hi
    have hmark := a.contains_walk_insert visited i stack
    refine (ih h).of_insert hmark (not_isLast_of_kind hnode hn) (fun hcontrol => ?_) fun j hj => hj
    exact absurd ⟨n, hnode, hvalue⟩ (not_isValue_of_control hcontrol)
  | case5 visited i stack hv hi n hn hvalue ih =>
    have hnode : a.nodes[i]? = some n := Array.getElem?_eq_getElem hi
    have hmark := a.contains_walk_insert visited i (n.targets ++ stack)
    refine (ih h).of_insert hmark (not_isLast_of_kind hnode hn) (fun _ j hj hsize => ?_)
      fun j hj => List.mem_append_right _ hj
    exact (ih h).stack j (List.mem_append_left _ (mem_targets.mpr ((edge_iff hnode).mp hj))) hsize
  | case6 visited i stack hv hi ih =>
    obtain ⟨hstack, hlast, hedges⟩ := ih h
    refine ⟨fun j hj hsize => ?_, hlast, hedges⟩
    rcases List.mem_cons.mp hj with rfl | hj
    · exact absurd hsize hi
    · exact hstack j hj hsize

/-- There is a way from one node to the other on which nothing is read. -/
def Silent (a : Automaton) : Nat → Nat → Prop :=
  Relation.ReflTransGen fun i j => a.Control i ∧ a.Edge i j

/-- A node can be read right after another one. -/
def Leads (a : Automaton) (i j : Nat) : Prop := ∃ m, a.Edge i m ∧ a.Silent m j

theorem control_of_occurrence? (he : a.Edge i j) (h : a.occurrence? i = none) : a.Control i := by
  obtain ⟨n, hn, -⟩ := he
  exact ⟨n, hn, by simpa [occurrence?, hn, Node.occurrence?] using h⟩

theorem Control.occurrence? (h : a.Control i) : a.occurrence? i = none := by
  obtain ⟨n, hn, hv⟩ := h
  exact occurrence?_of_control hn hv

theorem silent_iff : a.Silent i j ↔ ∃ n, a.Trace n i [] j := by
  constructor
  · intro h
    induction h using Relation.ReflTransGen.head_induction_on with
    | refl => exact ⟨0, .refl j⟩
    | head h _ ih =>
      obtain ⟨n, ht⟩ := ih
      have hstep := Trace.step h.2 ht
      rw [h.1.occurrence?] at hstep
      exact ⟨n + 1, hstep⟩
  · intro h'
    obtain ⟨n, h⟩ := h'
    generalize hu : ([] : List Occurrence) = u at h
    induction h with
    | refl i => exact .refl
    | step he ht ih =>
      obtain ⟨hread, rfl⟩ := List.append_eq_nil_iff.mp hu.symm
      exact .head ⟨control_of_occurrence? he (by simpa using hread), he⟩ (ih rfl)

theorem silent_of_contains (h : (a.walk visited stack).visited.contains j = true) :
    (∃ i ∈ stack, a.Silent i j) ∨ visited.contains j = true := by
  have hstep : ∀ i, (∃ s ∈ stack, a.Silent s i) → a.Control i → ∀ j, a.Edge i j →
      (∃ s ∈ stack, a.Silent s j) ∨ visited.contains j = true := by
    intro i hi hcontrol j he
    obtain ⟨s, hs, hsilent⟩ := hi
    exact .inl ⟨s, hs, hsilent.tail ⟨hcontrol, he⟩⟩
  exact walk_within hstep (fun i hi => .inl ⟨i, hi, .refl⟩) h

/-- Nothing silent leads out of the marked nodes, and `last` is not one of them. -/
structure Closed (a : Automaton) (marked : NodeSet) : Prop where
  last : ∀ i, marked.contains i = true → ¬a.IsLast i
  edges : ∀ i, marked.contains i = true → a.Control i → ∀ j, a.Edge i j → marked.contains j = true

theorem closed_empty (a : Automaton) : a.Closed {} :=
  ⟨fun i hi => by simp at hi, fun i hi => by simp at hi⟩

theorem Closed.silent {marked : NodeSet} (h : a.Closed marked) (hi : marked.contains i = true)
    (hs : a.Silent i j) : marked.contains j = true := by
  induction hs with
  | refl => exact hi
  | tail _ he ih => exact h.edges _ ih he.1 _ he.2

/-- All edges lead to nodes. -/
def InRange (a : Automaton) : Prop := ∀ i j, a.Edge i j → j < a.nodes.size

theorem Closed.walk (h : a.Closed visited) (ha : a.InRange)
    (hw : (a.walk visited stack).reached = false) : a.Closed (a.walk visited stack).visited := by
  obtain ⟨-, hlast, hedges⟩ := exhausted_of_not_reached hw
  refine ⟨fun i hi => (hlast i hi).elim (h.last i) id, fun i hi hcontrol j he => ?_⟩
  by_cases hv : visited.contains i = true
  · exact contains_walk_of_contains (h.edges i hv hcontrol j he)
  · exact hedges i hi hv hcontrol j he (ha i j he)

/-- The occurrence at a node accepts a character. -/
def AcceptsAt (a : Automaton) (c : Char) (i : Nat) : Prop :=
  ∃ o, a.occurrence? i = some o ∧ o.Accepts c

theorem IsValue.exists_occurrence (h : a.IsValue i) :
    ∃ n v, a.nodes[i]? = some n ∧ n.value? = some v ∧ a.occurrence? i = some ⟨n.index, v⟩ := by
  obtain ⟨n, hn, hv⟩ := h
  obtain ⟨v, hv⟩ := Option.isSome_iff_exists.mp hv
  exact ⟨n, v, hn, hv, occurrence?_of_value hn hv⟩

/-- What has been marked when nodes have spread. -/
structure Marks (a : Automaton) (c : Char) (visited : NodeSet) (current accepting next : List Nat)
    (marked : NodeSet) : Prop where
  closed : a.Closed marked
  kept : ∀ j, visited.contains j = true → marked.contains j = true
  accepted : ∀ i, i ∈ accepting ↔ i ∈ current ∧ a.AcceptsAt c i
  found : ∀ j, j ∈ next ↔ marked.contains j = true ∧ ¬visited.contains j = true ∧ a.IsValue j
  led : ∀ i ∈ accepting, ∀ j, a.Edge i j → marked.contains j = true
  sound : ∀ j, marked.contains j = true →
    visited.contains j = true ∨ ∃ i ∈ accepting, a.Leads i j

theorem acceptsAt_iff {n : Node} {v : Value} {c : Char} (hn : a.nodes[i]? = some n)
    (hv : n.value? = some v) : a.AcceptsAt c i ↔ v.accepts c = true := by
  simp [AcceptsAt, occurrence?_of_value hn hv, Occurrence.Accepts]

variable {c : Char} {rest accepting next : List Nat} {marked : NodeSet}

theorem Marks.skip (h : a.Marks c visited rest accepting next marked) (hi : ¬a.AcceptsAt c i) :
    a.Marks c visited (i :: rest) accepting next marked where
  closed := h.closed
  kept := h.kept
  accepted j := by
    rw [h.accepted, List.mem_cons]
    constructor
    · exact fun ⟨hj, hc⟩ => ⟨.inr hj, hc⟩
    · intro h'
      obtain ⟨rfl | hj, hc⟩ := h'
      · exact absurd hc hi
      · exact ⟨hj, hc⟩
  found := h.found
  led := h.led
  sound := h.sound

theorem Marks.cons {n : Node}
    (h : a.Marks c (a.walk visited n.targets).visited rest accepting next marked)
    (hi : a.AcceptsAt c i) (ha : a.InRange) (hn : a.nodes[i]? = some n)
    (hw : (a.walk visited n.targets).reached = false) :
    a.Marks c visited (i :: rest) (i :: accepting) ((a.walk visited n.targets).found ++ next)
      marked where
  closed := h.closed
  kept j hj := h.kept j (contains_walk_of_contains hj)
  accepted j := by
    rw [List.mem_cons, h.accepted, List.mem_cons]
    constructor
    · intro h'
      rcases h' with rfl | ⟨hj, hc⟩
      · exact ⟨.inl rfl, hi⟩
      · exact ⟨.inr hj, hc⟩
    · intro h'
      obtain ⟨rfl | hj, hc⟩ := h'
      · exact .inl rfl
      · exact .inr ⟨hj, hc⟩
  found j := by
    rw [List.mem_append, mem_walk_found, h.found]
    constructor
    · intro h'
      rcases h' with ⟨hw, hnew, hj⟩ | ⟨hm, hnew, hj⟩
      · exact ⟨h.kept j hw, hnew, hj⟩
      · exact ⟨hm, fun hv => hnew (contains_walk_of_contains hv), hj⟩
    · intro h'
      obtain ⟨hm, hnew, hj⟩ := h'
      by_cases hw : (a.walk visited n.targets).visited.contains j = true
      · exact .inl ⟨hw, hnew, hj⟩
      · exact .inr ⟨hm, hw, hj⟩
  led j hj m he := by
    rcases List.mem_cons.mp hj with rfl | hj
    · exact h.kept m ((exhausted_of_not_reached hw).stack m
        (mem_targets.mpr ((edge_iff hn).mp he)) (ha j m he))
    · exact h.led j hj m he
  sound j hj := by
    rcases h.sound j hj with hj | ⟨m, hm, hlead⟩
    · rcases silent_of_contains hj with ⟨m, hm, hs⟩ | hj
      · exact .inr ⟨i, List.mem_cons_self, m, (edge_iff hn).mpr (mem_targets.mp hm), hs⟩
      · exact .inl hj
    · exact .inr ⟨m, List.mem_cons_of_mem i hm, hlead⟩

/-- Nodes either spread, or one of them accepts and leads to `last`. -/
theorem advance_cases (ha : a.InRange) (c : Char) {visited : NodeSet} (hv : a.Closed visited)
    {current : List Nat} (hcurrent : ∀ i ∈ current, a.IsValue i) :
    (∃ i ∈ current, a.advance c visited current = .ok (.complete i) ∧ a.AcceptsAt c i ∧
      ∃ j, a.IsLast j ∧ a.Leads i j) ∨
    ∃ accepting next marked, a.advance c visited current = .ok (.spread accepting next) ∧
      a.Marks c visited current accepting next marked := by
  induction current generalizing visited with
  | nil =>
    refine .inr ⟨[], [], visited, rfl, hv, fun j hj => hj, by simp, fun j => ?_, by simp, ?_⟩
    · constructor
      · intro hj
        exact absurd hj List.not_mem_nil
      · rintro ⟨h, hnew, -⟩
        exact absurd h hnew
    · exact fun j hj => .inl hj
  | cons i rest ih =>
    obtain ⟨hi, hrest⟩ := List.forall_mem_cons.mp hcurrent
    obtain ⟨n, v, hn, hvalue, -⟩ := hi.exists_occurrence
    by_cases hc : v.accepts c = true
    · have haccepts : a.AcceptsAt c i := (acceptsAt_iff hn hvalue).mpr hc
      cases hw : (a.walk visited n.targets).reached with
      | true =>
        have hadvance : a.advance c visited (i :: rest) = .ok (.complete i) := by
          simp only [advance, hn, hvalue, hc, hw, if_true]
        refine .inl ⟨i, List.mem_cons_self, hadvance, haccepts, ?_⟩
        obtain ⟨j, hj, hmark, hnew⟩ := exists_last_of_reached hw
        obtain ⟨m, hm, hs⟩ := (silent_of_contains hmark).resolve_right hnew
        exact ⟨j, hj, m, (edge_iff hn).mpr (mem_targets.mp hm), hs⟩
      | false =>
        have hadvance : a.advance c visited (i :: rest) =
            (a.advance c (a.walk visited n.targets).visited rest).map
              (.cons i (a.walk visited n.targets).found) := by
          simp [advance, hn, hvalue, hc, hw]
        rcases ih (hv.walk ha hw) hrest with ⟨j, hj, heq, h⟩ | ⟨accepting, next, marked, heq, h⟩
        · exact .inl ⟨j, List.mem_cons_of_mem i hj, by rw [hadvance, heq]; rfl, h⟩
        · exact .inr ⟨_, _, marked, by rw [hadvance, heq]; rfl, h.cons haccepts ha hn hw⟩
    · have hadvance : a.advance c visited (i :: rest) = a.advance c visited rest := by
        simp [advance, hn, hvalue, hc]
      have hskip : ¬a.AcceptsAt c i := fun h => hc ((acceptsAt_iff hn hvalue).mp h)
      rw [hadvance]
      rcases ih hv hrest with ⟨j, hj, heq, h⟩ | ⟨accepting, next, marked, heq, h⟩
      · exact .inl ⟨j, List.mem_cons_of_mem i hj, heq, h⟩
      · exact .inr ⟨_, _, marked, heq, h.skip hskip⟩

/-- The nodes that come after a character, in terms of which nodes follow which. -/
structure Spreads (a : Automaton) (c : Char) (current accepting next : List Nat) : Prop where
  accepted : ∀ i, i ∈ accepting ↔ i ∈ current ∧ a.AcceptsAt c i
  followed : ∀ j, j ∈ next ↔ a.IsValue j ∧ ∃ i ∈ accepting, a.Leads i j
  unfinished : ∀ i ∈ accepting, ∀ j, a.IsLast j → ¬a.Leads i j

theorem Marks.spreads (h : a.Marks c {} rest accepting next marked) :
    a.Spreads c rest accepting next := by
  have hled (i j : Nat) (hi : i ∈ accepting) (hj : a.Leads i j) : marked.contains j = true := by
    obtain ⟨m, he, hs⟩ := hj
    exact h.closed.silent (h.led i hi m he) hs
  refine ⟨h.accepted, fun j => ?_, fun i hi j hj hlead => h.closed.last j (hled i j hi hlead) hj⟩
  rw [h.found]
  constructor
  · exact fun ⟨hm, _, hj⟩ => ⟨hj, (h.sound j hm).resolve_left (by simp)⟩
  · exact fun ⟨hj, i, hi, hlead⟩ => ⟨hled i j hi hlead, by simp, hj⟩

end Automaton
end RegexDiagram
