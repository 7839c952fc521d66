import RegexDiagram.Proofs.Paths
import RegexDiagram.Proofs.Runs

/-!
The nodes of an automaton as those of a tree. Every edge leads to a node, from every node of a tree
there is a way to its exit, so that no node is a dead end, and every occurrence of a value in the
regex has a node of its own.
-/
namespace RegexDiagram

open Relation

/-- The occurrence that a value token stands for. -/
def Token.occurrence? (t : Token) : Option Occurrence :=
  match t.piece with
  | .value v => some ⟨some t.index, v⟩
  | _ => none

namespace Automaton

variable {a : Automaton} {i j : Nat}

/-- Along the edges there is a way from one node to the other. -/
def Reaches (a : Automaton) : Nat → Nat → Prop := ReflTransGen a.Edge

theorem Reaches.exists_trace (h : a.Reaches i j) : ∃ n u, a.Trace n i u j := by
  induction h using ReflTransGen.head_induction_on with
  | refl => exact ⟨0, [], .refl j⟩
  | head he _ ih =>
    obtain ⟨n, u, ht⟩ := ih
    exact ⟨n + 1, _, .step he ht⟩

end Automaton

namespace Tree

open Automaton

variable {l : Precedence} {a : Automaton} {j k x : Nat} {i : Inlet} {q : Option Quantifier}

theorem exists_mem_entries (t : Tree l) (k : Nat) : ∃ e, e ∈ t.entries k := by
  cases t with
  | alternation e t ht g => exact ⟨_, List.mem_append_right _ (List.mem_singleton_self _)⟩
  | _ => exact ⟨k, List.mem_singleton_self k⟩

theorem reaches_nodes_of (t : Tree l)
    (ht : ∀ k i j, a.Holds k (t.branchNodes k [x] i q) → k ≤ j → j < k + t.branchSize →
      a.Reaches j x)
    (h : a.Holds k (t.nodes k [x] i q)) (hk : k ≤ j) (hj : j < k + t.size) : a.Reaches j x := by
  obtain ⟨hfork, hbranches⟩ := (eachFrom_nodes ..).mp h
  rw [size] at hj
  by_cases hbranch : k + t.forkSize ≤ j
  · exact ht _ _ j hbranches hbranch (by omega)
  · have hc : t.isChoice = true := by
      cases hc : t.isChoice with
      | true => rfl
      | false =>
        have := t.forkSize_of_not_isChoice hc
        omega
    have hsize : t.forkSize = 1 := by rw [forkSize, hc]; rfl
    obtain rfl : j = k := by omega
    obtain ⟨node, hnode, -, -, hnext⟩ := t.exists_fork hc hfork
    obtain ⟨e, he⟩ := t.exists_mem_entries (j + 1)
    have hbound := t.mem_entries he
    rw [hsize] at hbranches
    refine .head ((edge_iff hnode).mpr (hnext ▸ List.mem_map_of_mem he)) ?_
    exact ht _ _ e hbranches hbound.1 hbound.2

theorem reaches_branchNodes (t : Tree l) (h : a.Holds k (t.branchNodes k [x] i q)) (hk : k ≤ j)
    (hj : j < k + t.branchSize) : a.Reaches j x := by
  induction t generalizing j k x i q with
  | value t v hv =>
    simp only [branchSize] at hj
    obtain rfl : j = k := by omega
    exact .single ((edge_iff h.1).mpr (by simp))
  | group opening closing ho hc body ih =>
    obtain ⟨hopen, hbody, hclose⟩ := (eachFrom_group ..).mp h
    simp only [branchSize] at hj
    have hexit : a.Reaches (k + 1 + body.size) x :=
      .single ((edge_iff hclose).mpr (by simp [closer]))
    have hwithin {j : Nat} (hk : k + 1 ≤ j) (hj : j < k + 1 + body.size) : a.Reaches j x :=
      (body.reaches_nodes_of (fun _ _ _ h hk hj => ih h hk hj) hbody hk hj).trans hexit
    rcases Nat.lt_or_ge j (k + 1) with hlt | hge
    · obtain rfl : j = k := by omega
      have hpos := body.branchSize_pos
      refine .head ((edge_iff hopen).mpr (by simp [opener])) (hwithin (Nat.le_refl _) ?_)
      simp only [size]
      omega
    · by_cases hclosing : j = k + 1 + body.size
      · exact hclosing ▸ hexit
      · exact hwithin hge (by simp only [size] at hclosing ⊢; omega)
  | quantified b t q' hq hl ih =>
    simp only [branchSize] at hj
    cases q' with
    | optional =>
      rcases Nat.lt_or_ge j (k + 1) with hlt | hge
      · obtain rfl : j = k := by omega
        exact .single ((edge_iff h.1).mpr (by simp))
      · exact ih h.2 hge (by omega)
    | star =>
      have hexit : a.Reaches k x := .single ((edge_iff h.1).mpr (by simp))
      rcases Nat.lt_or_ge j (k + 1) with hlt | hge
      · obtain rfl : j = k := by omega
        exact hexit
      · exact (ih h.2 hge (by omega)).trans hexit
    | plus =>
      rw [branchNodes, holds_append, length_branchNodes] at h
      have hexit : a.Reaches (k + b.branchSize) x := .single ((edge_iff h.2.1).mpr (by simp))
      rcases Nat.lt_or_ge j (k + b.branchSize) with hlt | hge
      · exact (ih h.1 hk hlt).trans hexit
      · obtain rfl : j = k + b.branchSize := by omega
        exact hexit
  | concat f g hl ihf ihg =>
    rw [branchNodes, holds_append, length_branchNodes] at h
    simp only [branchSize] at hj
    have hpos := g.branchSize_pos
    rcases Nat.lt_or_ge j (k + f.branchSize) with hlt | hge
    · exact (ihf h.1 hk hlt).trans (ihg h.2 (Nat.le_refl _) (by omega))
    · exact ihg h.2 hge (by omega)
  | alternation e t htok g ihe ihg =>
    rw [branchNodes, holds_append, length_branchNodes] at h
    simp only [branchSize] at hj
    rcases Nat.lt_or_ge j (k + e.branchSize) with hlt | hge
    · exact ihe h.1 hk hlt
    · exact ihg h.2 hge (by omega)

theorem occurrence?_of_not_value {t : Token} (ht : ∀ v, t.piece ≠ .value v) :
    t.occurrence? = none := by
  unfold Token.occurrence?
  split
  · next v h => exact absurd h (ht v)
  · rfl

theorem filterMap_forkNodes (t : Tree l) (k : Nat) (i : Inlet) :
    (t.forkNodes k i).filterMap Node.occurrence? = [] := by
  cases t with
  | alternation e t ht g => simp [forkNodes, Node.occurrence?, Node.value?, Node.ofToken, ht]
  | _ => rfl

theorem filterMap_branchNodes (t : Tree l) (k : Nat) (exit : List Nat) (i : Inlet)
    (q : Option Quantifier) :
    (t.branchNodes k exit i q).filterMap Node.occurrence? =
      t.tokens.filterMap Token.occurrence? := by
  induction t generalizing k exit i q with
  | value t v hv =>
    simp [branchNodes, tokens, Node.occurrence?, Node.value?, Node.ofToken, Token.occurrence?, hv]
  | group opening closing ho hc body ih =>
    have hopen : (opener opening k body.size i q).occurrence? = none := by
      simp [Node.occurrence?, Node.value?, opener, Node.ofToken, ho]
    simp only [branchNodes, tokens, List.filterMap_append, List.filterMap_cons, hopen, ih,
      filterMap_forkNodes, occurrence?_of_not_value (t := opening) (by simp [ho]),
      occurrence?_of_not_value (t := closing) (by simp [hc]), List.filterMap_nil, List.nil_append]
    rfl
  | quantified a t q' hq hl ih =>
    have hnode (next : List (Option Nat)) :
        ({ Node.ofToken t with next := next } : Node).occurrence? = none := by
      simp [Node.occurrence?, Node.value?, Node.ofToken, hq]
    cases q' <;>
      simp only [branchNodes, tokens, List.filterMap_append, List.filterMap_cons,
        List.filterMap_nil, hnode, ih, occurrence?_of_not_value (t := t) (by simp [hq]), List.append_nil]
  | concat f g hl ihf ihg => simp only [branchNodes, tokens, List.filterMap_append, ihf, ihg]
  | alternation e t ht g ihe ihg =>
    simp only [branchNodes, tokens, List.filterMap_append, List.filterMap_cons, ihe, ihg,
      occurrence?_of_not_value (t := t) (by simp [ht])]

end Tree

namespace Expression

open Automaton

theorem filterMap_nodes (A : Expression) :
    A.nodes.filterMap Node.occurrence? = A.tokens.filterMap Token.occurrence? := by
  cases A with
  | none => rfl
  | some e =>
    have hfirst : Node.occurrence? { kind := .first, next := [some 1] } = none := rfl
    have hlast (sources : List Nat) :
        Node.occurrence? { kind := .last, sources := sources } = none := rfl
    simp only [nodes, tokens, Tree.nodes, List.filterMap_append, List.filterMap_cons, hfirst, hlast,
      List.filterMap_nil, List.append_nil, e.filterMap_forkNodes, e.filterMap_branchNodes,
      List.nil_append]

theorem inRange (A : Expression) : A.automaton.InRange := by
  intro i j h
  obtain ⟨n, hn, hj⟩ := h
  have hall : EachFrom (fun _ n => ∀ j, some j ∈ n.next → j < A.nodes.length) 0 A.nodes := by
    cases A with
    | none => simp [nodes, EachFrom]
    | some e =>
      have hlength : (nodes (some e)).length = 1 + e.size + 1 := by
        simp only [nodes, List.length_append, List.length_cons, List.length_nil, Tree.length_nodes]
        omega
      have hpos := e.branchSize_pos
      have hfirst (j : Nat) (hj : some j ∈ [some 1]) : j < 1 + e.size + 1 := by
        obtain rfl : j = 1 := by simpa using hj
        simp only [Tree.size]
        omega
      rw [hlength]
      refine (eachFrom_some _ e).mpr ⟨hfirst, eachFrom_of_mem ?_ 1, by simp⟩
      intro n hn _ j hj
      rcases List.mem_append.mp hn with hn | hn
      · have := e.mem_next_forkNodes hn hj
        omega
      · have := e.mem_next_branchNodes hn hj
        simp only [List.mem_singleton, Tree.size] at this ⊢
        omega
  have hi := (eachFrom_iff _ 0 A.nodes).mp hall i n (by simpa [automaton] using hn) j hj
  simpa [automaton] using hi

theorem reaches_last (A : Expression) {i : Nat} (hi : i < A.automaton.nodes.size) :
    A.automaton.Reaches i A.lastAt := by
  have hsize : A.automaton.nodes.size = A.nodes.length := rfl
  have hfirst : A.automaton.Edge 0 1 := (edge_iff A.first_node).mpr (by simp)
  rw [hsize] at hi
  cases A with
  | none =>
    simp only [nodes, List.length_cons, List.length_nil] at hi
    obtain rfl | rfl : i = 0 ∨ i = 1 := by omega
    · exact .single hfirst
    · exact .refl
  | some e =>
    have htree := ((eachFrom_some _ e).mp (holds_nodes (some e))).2.1
    have hwithin {i : Nat} (hk : 1 ≤ i) (hi : i < 1 + e.size) :
        (automaton (some e)).Reaches i (lastAt (some e)) :=
      e.reaches_nodes_of (fun _ _ _ h hk hj => e.reaches_branchNodes h hk hj) htree hk hi
    have hpos := e.branchSize_pos
    simp only [nodes, List.length_append, List.length_cons, List.length_nil,
      Tree.length_nodes] at hi
    rcases Nat.lt_or_ge i 1 with hlt | hge
    · obtain rfl : i = 0 := by omega
      exact .head hfirst (hwithin (Nat.le_refl _) (by simp only [Tree.size]; omega))
    · rcases Nat.lt_or_ge i (1 + e.size) with hlt | hge'
      · exact hwithin hge hlt
      · obtain rfl : i = lastAt (some e) := by simp only [lastAt]; omega
        exact .refl

theorem lt_size_of_isValue {a : Automaton} {i : Nat} (h : a.IsValue i) : i < a.nodes.size := by
  obtain ⟨n, hn, -⟩ := h
  exact (Array.getElem?_eq_some_iff.mp hn).1

theorem isLast_iff (A : Expression) (i : Nat) : A.automaton.IsLast i ↔ i = A.lastAt := by
  constructor
  · intro h
    obtain ⟨n, hn, hkind⟩ := h
    exact (A.ends_unique hn).2 hkind
  · rintro rfl
    obtain ⟨n, hn, hkind, -⟩ := A.last_node
    exact ⟨n, hn, hkind⟩

theorem live (A : Expression) : A.automaton.Live where
  inRange := A.inRange
  leads i hi := by
    rcases (A.reaches_last (lt_size_of_isValue hi)).cases_head with rfl | ⟨j, he, -⟩
    · obtain ⟨n, v, -, -, ho⟩ := hi.exists_occurrence
      simp [A.occurrence?_last] at ho
    · exact ⟨j, j, he, .refl⟩

end Expression

/-- No two nodes stand for the same occurrence. -/
def Automaton.Distinct (a : Automaton) : Prop :=
  ∀ i j o, a.occurrence? i = some o → a.occurrence? j = some o → i = j

theorem Token.map_index_occurrences (ts : List Token) :
    (ts.filterMap Token.occurrence?).map (·.index) = (Analysis.valueIndexes ts).map some := by
  induction ts with
  | nil => rfl
  | cons t ts ih =>
    rw [Analysis.valueIndexes_cons, List.map_append, ← ih, List.filterMap_cons]
    cases h : t.piece <;> simp [Token.occurrence?, Token.isValue, Piece.isValue, h]

theorem Expression.distinct (A : Expression)
    (h : (Analysis.valueIndexes A.tokens).Pairwise (· < ·)) : A.automaton.Distinct := by
  have hindexes : ((A.nodes.filterMap Node.occurrence?).map (·.index)).Nodup := by
    rw [A.filterMap_nodes, Token.map_index_occurrences]
    exact (h.imp Nat.ne_of_lt).map some fun _ _ hne heq => hne (Option.some.inj heq)
  have hpairs := List.pairwise_filterMap.mp hindexes.of_map
  have hnode {i : Nat} {o : Occurrence} (hi : A.automaton.occurrence? i = some o) :
      ∃ h : i < A.nodes.length, A.nodes[i].occurrence? = some o := by
    obtain ⟨n, hn, ho⟩ := Option.bind_eq_some_iff.mp hi
    obtain ⟨hlt, rfl⟩ := List.getElem?_eq_some_iff.mp (show A.nodes[i]? = some n by
      simpa [Expression.automaton] using hn)
    exact ⟨hlt, ho⟩
  intro i j o hi hj
  obtain ⟨hi, hoi⟩ := hnode hi
  obtain ⟨hj, hoj⟩ := hnode hj
  rcases Nat.lt_trichotomy i j with hlt | heq | hlt
  · exact absurd rfl (List.pairwise_iff_getElem.mp hpairs i j hi hj hlt o hoi o hoj)
  · exact heq
  · exact absurd rfl (List.pairwise_iff_getElem.mp hpairs j i hj hi hlt o hoj o hoi)

theorem Compiled.Realizes.distinct {c : Compiled} {A : Expression} (h : c.Realizes A) :
    A.automaton.Distinct := by
  refine A.distinct ?_
  rw [h.tokens]
  exact h.consistent.ordered.sublist ((List.filter_sublist.filter _).map _)

end RegexDiagram
