import RegexDiagram.Proofs.Compile
import RegexDiagram.Proofs.Traces

/-!
Paths of the automaton of a regex. From the `first` node to the `last` one they spell exactly the
language of the regex.
-/
namespace RegexDiagram

namespace Automaton

/-- A path along the edges from the `first` node to the `last` one. -/
structure Path (a : Automaton) (path : List Nat) : Prop where
  edges : path.IsChain a.Edge
  first : ∃ i n, path.head? = some i ∧ a.nodes[i]? = some n ∧ n.kind = .first
  last : ∃ i n, path.getLast? = some i ∧ a.nodes[i]? = some n ∧ n.kind = .last

/-- The values at the nodes of a path. -/
def values (a : Automaton) (path : List Nat) : List Value :=
  path.filterMap fun i => a.nodes[i]?.bind Node.value?

variable {a : Automaton} {i j n : Nat} {u : List Occurrence}

theorem values_eq (path : List Nat) :
    a.values path = (path.filterMap a.occurrence?).map (·.value) := by
  rw [values, List.map_filterMap]
  congr 1
  funext i
  cases h : a.nodes[i]? with
  | none => simp [occurrence?, h]
  | some node => cases hv : node.value? <;> simp [occurrence?, h, Node.occurrence?, hv]

theorem filterMap_occurrence?_cons (path : List Nat) :
    (i :: path).filterMap a.occurrence? =
      (a.occurrence? i).toList ++ path.filterMap a.occurrence? := by
  rw [List.filterMap_cons]
  cases a.occurrence? i <;> rfl

theorem Trace.exists_path (h : a.Trace n i u j) :
    ∃ path, (i :: path).IsChain a.Edge ∧ (i :: path).getLast? = some j ∧
      (i :: path).filterMap a.occurrence? = u ++ (a.occurrence? j).toList := by
  induction h with
  | refl i => exact ⟨[], .singleton i, rfl, by simp [filterMap_occurrence?_cons]⟩
  | step he ht ih =>
    obtain ⟨path, hpath, hlast, hread⟩ := ih
    refine ⟨_ :: path, .cons_cons he hpath, by simpa using hlast, ?_⟩
    rw [filterMap_occurrence?_cons, hread, List.append_assoc]

theorem exists_trace_of_path {path : List Nat} (h : (i :: path).IsChain a.Edge)
    (hj : (i :: path).getLast? = some j) :
    ∃ n u, a.Trace n i u j ∧
      (i :: path).filterMap a.occurrence? = u ++ (a.occurrence? j).toList := by
  induction path generalizing i with
  | nil =>
    obtain rfl : i = j := by simpa using hj
    exact ⟨0, [], .refl i, by simp [filterMap_occurrence?_cons]⟩
  | cons m path ih =>
    obtain ⟨he, h⟩ := List.isChain_cons_cons.mp h
    obtain ⟨n, u, ht, hread⟩ := ih h (by simpa using hj)
    exact ⟨n + 1, _, .step he ht, by rw [filterMap_occurrence?_cons, hread, List.append_assoc]⟩

end Automaton

namespace Tree

variable {l : Precedence} {k : Nat} {exit : List Nat} {i : Inlet} {q : Option Quantifier} {n : Node}

theorem piece_of_mem_forkNodes (t : Tree l) (hn : n ∈ t.forkNodes k i) :
    ∃ p, n.kind = .piece p := by
  cases t with
  | alternation e t ht g =>
    obtain rfl := List.mem_singleton.mp hn
    exact ⟨_, rfl⟩
  | _ => simp [forkNodes] at hn

theorem piece_of_mem_branchNodes (t : Tree l) (hn : n ∈ t.branchNodes k exit i q) :
    ∃ p, n.kind = .piece p := by
  induction t generalizing k exit i q with
  | value t v hv =>
    obtain rfl := List.mem_singleton.mp hn
    exact ⟨_, rfl⟩
  | group opening closing ho hc body ih =>
    simp only [branchNodes, List.mem_append, List.mem_cons, List.not_mem_nil, or_false] at hn
    rcases hn with (rfl | hn | hn) | rfl
    · exact ⟨_, rfl⟩
    · exact body.piece_of_mem_forkNodes hn
    · exact ih hn
    · exact ⟨_, rfl⟩
  | quantified b t q' hq hl ih =>
    cases q' with
    | plus =>
      rcases List.mem_append.mp hn with hn | hn
      · exact ih hn
      · obtain rfl := List.mem_singleton.mp hn
        exact ⟨_, rfl⟩
    | _ =>
      rcases List.mem_cons.mp hn with rfl | hn
      · exact ⟨_, rfl⟩
      · exact ih hn
  | concat f g hl ihf ihg => exact (List.mem_append.mp hn).elim (fun h => ihf h) fun h => ihg h
  | alternation e t ht g ihe ihg =>
    exact (List.mem_append.mp hn).elim (fun h => ihe h) fun h => ihg h

theorem piece_of_mem_nodes (t : Tree l) (hn : n ∈ t.nodes k exit i q) : ∃ p, n.kind = .piece p :=
  (List.mem_append.mp hn).elim t.piece_of_mem_forkNodes t.piece_of_mem_branchNodes

end Tree

namespace Expression

open Automaton

/-- Where the `last` node of the automaton is. -/
def lastAt : Expression → Nat
  | none => 1
  | some e => 1 + e.size

theorem lastAt_pos (A : Expression) : 0 < A.lastAt := by
  cases A with
  | none => exact Nat.one_pos
  | some e => exact Nat.add_pos_left Nat.one_pos e.size

theorem first_node (A : Expression) :
    A.automaton.nodes[0]? = some { kind := .first, next := [some 1] } := by
  have h := A.holds_nodes
  cases A with
  | none => exact h.1
  | some e => exact ((eachFrom_some _ e).mp h).1

theorem last_node (A : Expression) :
    ∃ n, A.automaton.nodes[A.lastAt]? = some n ∧ n.kind = .last ∧ n.next = [] := by
  have h := A.holds_nodes
  cases A with
  | none => exact ⟨_, h.2.1, rfl, rfl⟩
  | some e => exact ⟨_, ((eachFrom_some _ e).mp h).2.2, rfl, rfl⟩

theorem ends_unique (A : Expression) {i : Nat} {n : Node} (h : A.automaton.nodes[i]? = some n) :
    (n.kind = .first → i = 0) ∧ (n.kind = .last → i = A.lastAt) := by
  have hall : EachFrom (fun i n => (n.kind = .first → i = 0) ∧ (n.kind = .last → i = A.lastAt)) 0
      A.nodes := by
    cases A with
    | none => simp [nodes, EachFrom, lastAt]
    | some e =>
      refine (eachFrom_some _ e).mpr
        ⟨by simp, eachFrom_of_mem (fun n hn i => ?_) 1, by simp [lastAt]⟩
      obtain ⟨p, hp⟩ := e.piece_of_mem_nodes hn
      simp [hp]
  simpa using (eachFrom_iff _ 0 A.nodes).mp hall i n (by simpa [automaton] using h)

theorem occurrence?_last (A : Expression) : A.automaton.occurrence? A.lastAt = none := by
  obtain ⟨n, hn, hkind, -⟩ := A.last_node
  exact occurrence?_of_control hn (by simp [Node.value?, hkind])

theorem exists_trace_iff (A : Expression) (u : List Occurrence) :
    (∃ n, A.automaton.Trace n 0 u A.lastAt) ↔ u ∈ A.words := by
  obtain ⟨node, hlast, -, hnext⟩ := A.last_node
  have hstop {n : Nat} {w : List Occurrence} (h : A.automaton.Trace n A.lastAt w A.lastAt) :
      w = [] := by
    cases h with
    | refl => rfl
    | step he ht => simp [edge_iff hlast, hnext] at he
  have hfirst {n : Nat} (h : A.automaton.Trace n 0 u A.lastAt) :
      ∃ m, A.automaton.Trace m 1 u A.lastAt := by
    obtain ⟨m, j, -, hj, ht⟩ := h.exists_edge_of_control A.lastAt_pos.ne A.first_node rfl
    obtain rfl : j = 1 := by simpa using hj
    exact ⟨m, ht⟩
  cases A with
  | none =>
    constructor
    · intro h'
      obtain ⟨n, h⟩ := h'
      obtain ⟨m, h⟩ := hfirst h
      exact hstop h
    · rintro rfl
      exact ⟨1, (Trace.refl 1).step_of_control (first_node none) rfl (by simp)⟩
  | some e =>
    have htree := ((eachFrom_some _ e).mp (holds_nodes (some e))).2.1
    constructor
    · intro h'
      obtain ⟨n, h⟩ := h'
      obtain ⟨m, h⟩ := hfirst h
      obtain ⟨_, v, w, -, rfl, hv, ht⟩ := e.passes_nodes_of
        (fun _ _ _ _ h hz he ht => e.passes_branchNodes h hz he ht) htree (.inr (Nat.le_refl _)) h
      rw [hstop ht, List.append_nil]
      exact hv
    · intro hu
      obtain ⟨n, h⟩ := e.exists_trace_nodes_of (fun _ _ h => e.exists_trace_branchNodes h hu) htree
      exact ⟨n + 1, h.step_of_control (first_node (some e)) rfl (by simp)⟩

/-- The paths of the automaton read the words of the regex. -/
theorem exists_path_iff (A : Expression) (u : List Occurrence) :
    (∃ path, A.automaton.Path path ∧ path.filterMap A.automaton.occurrence? = u) ↔ u ∈ A.words := by
  rw [← A.exists_trace_iff]
  constructor
  · intro h
    obtain ⟨path, ⟨hedges, ⟨i, n, hi, hn, hfirst⟩, ⟨j, m, hj, hm, hlast⟩⟩, rfl⟩ := h
    obtain rfl := (A.ends_unique hn).1 hfirst
    obtain rfl := (A.ends_unique hm).2 hlast
    obtain ⟨path, rfl⟩ : ∃ tail, path = 0 :: tail := List.head?_eq_some_iff.mp hi
    obtain ⟨n, u, ht, hread⟩ := exists_trace_of_path hedges hj
    rw [hread, A.occurrence?_last, Option.toList_none, List.append_nil]
    exact ⟨n, ht⟩
  · intro h
    obtain ⟨n, ht⟩ := h
    obtain ⟨path, hedges, hj, hread⟩ := ht.exists_path
    obtain ⟨m, hm, hlast, -⟩ := A.last_node
    refine ⟨0 :: path, ⟨hedges, ⟨0, _, rfl, A.first_node, rfl⟩, ⟨_, m, hj, hm, hlast⟩⟩, ?_⟩
    rw [hread, A.occurrence?_last, Option.toList_none, List.append_nil]

end Expression

/-- The paths from `first` to `last` spell the language of the syntax tree. -/
theorem paths_spell_language (source : List Char) :
    ∃ c a, compile source = .ok c ∧ (Analysis.ofSource source).validate = some a ∧
      c.analysis.valid = a.valid ∧ (∃ A : Expression, A.tokens = a.valid) ∧
      ∀ A : Expression, A.tokens = a.valid → ∀ w : List Char,
        (∃ path, c.automaton.Path path ∧
          List.Forall₂ (fun v x => v.accepts x = true) (c.automaton.values path) w) ↔
            w ∈ A.language := by
  obtain ⟨c, a, A, hc, ha, hvalid, h⟩ := exists_compile_validated source
  refine ⟨c, a, hc, ha, hvalid, ⟨A, h.tokens.trans hvalid⟩, fun A hA w => ?_⟩
  rw [(h.of_tokens (hA.trans hvalid.symm)).automaton, ← A.image_words, mem_image]
  simp only [Automaton.values_eq, List.forall₂_map_left_iff, ← A.exists_path_iff]
  constructor
  · intro h'
    obtain ⟨path, hpath, hread⟩ := h'
    exact ⟨_, ⟨path, hpath, rfl⟩, hread⟩
  · intro h'
    obtain ⟨u, ⟨path, hpath, rfl⟩, hread⟩ := h'
    exact ⟨path, hpath, hread⟩

end RegexDiagram
