import RegexDiagram.Document
import RegexDiagram.Proofs.Regions

/-!
How the nodes of an automaton are wired. Every edge leads to a node, no node leads to the same node
twice, every node lies on a way from `first` to `last`, and parentheses come in pairs. Nodes are
handed out under the positions by which edges refer to them.
-/
namespace RegexDiagram

namespace Automaton

variable {a : Automaton} {i j : Nat}

/-- The wiring at one node: no edge is without a target, no target comes twice, and an opening
parenthesis has its closing one further on. -/
structure Wired (a : Automaton) (i : Nat) (n : Node) : Prop where
  edges : ∃ targets : List Nat, n.next = targets.map some ∧ targets.Nodup
  closing : n.kind = .piece .groupOpen →
    ∃ (j : Nat) (m : Node), n.close = some j ∧ i < j ∧ a.nodes[j]? = some m ∧
      m.kind = .piece .groupClose

theorem wired_of_ne {n : Node} (targets : List Nat) (hnext : n.next = targets.map some)
    (hnodup : targets.Nodup) (hkind : n.kind ≠ .piece .groupOpen) : a.Wired i n :=
  ⟨⟨targets, hnext, hnodup⟩, fun h => absurd h hkind⟩

end Automaton

namespace Tree

open Automaton

variable {l : Precedence} {a : Automaton} {j k x : Nat} {i : Inlet} {q : Option Quantifier}

theorem pairwise_entries (t : Tree l) (k : Nat) : (t.entries k).Pairwise (· < ·) := by
  induction t generalizing k with
  | alternation e t ht g ihe _ =>
    rw [entries, List.pairwise_append]
    refine ⟨ihe k, List.pairwise_singleton .., fun x hx y hy => ?_⟩
    obtain rfl := List.mem_singleton.mp hy
    exact (e.mem_entries hx).2
  | _ => exact List.pairwise_singleton ..

theorem wired_forkNodes (t : Tree l) (k : Nat) (i : Inlet) :
    EachFrom a.Wired k (t.forkNodes k i) := by
  cases t with
  | alternation e t ht g =>
    have hnodup := ((alternation e t ht g).pairwise_entries (k + 1)).imp Nat.ne_of_lt
    exact ⟨wired_of_ne _ rfl hnodup (by simp [Node.ofToken, ht]), trivial⟩
  | _ => trivial

/-- An exit is no node of the tree that it is the exit of. -/
def Outside (k size : Nat) (exit : List Nat) : Prop := ∀ x ∈ exit, x < k ∨ k + size ≤ x

theorem wired_branchNodes (t : Tree l) {exit : List Nat} (h : a.Holds k (t.branchNodes k exit i q))
    (hexit : exit.Nodup) (hout : Outside k t.branchSize exit) :
    EachFrom a.Wired k (t.branchNodes k exit i q) := by
  induction t generalizing k exit i q with
  | value t v hv => exact ⟨wired_of_ne _ rfl hexit (by simp [Node.ofToken, hv]), trivial⟩
  | group opening closing ho hc body ih =>
    obtain ⟨hopen, hbody, hclose⟩ := (eachFrom_group ..).mp h
    have hbranches := ((eachFrom_nodes ..).mp hbody).2
    refine (eachFrom_group ..).mpr ⟨⟨⟨[k + 1], rfl, List.nodup_singleton _⟩, fun _ => ?_⟩, ?_,
      wired_of_ne _ rfl hexit (by simp [closer])⟩
    · exact ⟨k + 1 + body.size, _, rfl, by omega, hclose, rfl⟩
    · refine (eachFrom_nodes ..).mpr ⟨body.wired_forkNodes .., ?_⟩
      refine ih hbranches (List.nodup_singleton _) ?_
      intro x hx
      obtain rfl := List.mem_singleton.mp hx
      simp only [size]
      omega
  | quantified b t q' hq hl ih =>
    have hkind : (Node.ofToken t).kind ≠ .piece .groupOpen := by simp [Node.ofToken, hq]
    simp only [Outside, branchSize] at hout
    have hfresh (y : Nat) (hk : k ≤ y) (hy : y < k + (b.branchSize + 1)) : (y :: exit).Nodup := by
      refine List.nodup_cons.mpr ⟨fun hmem => ?_, hexit⟩
      have := hout y hmem
      omega
    have hpos := b.branchSize_pos
    cases q' with
    | optional =>
      refine ⟨wired_of_ne ((k + 1) :: exit) rfl (hfresh _ (by omega) (by omega)) hkind,
        ih h.2 hexit fun x hx => ?_⟩
      have := hout x hx
      omega
    | star =>
      refine ⟨wired_of_ne ((k + 1) :: exit) rfl (hfresh _ (by omega) (by omega)) hkind,
        ih h.2 (List.nodup_singleton k) fun x hx => ?_⟩
      obtain rfl := List.mem_singleton.mp hx
      omega
    | plus =>
      refine (eachFrom_append ..).mpr
        ⟨ih (holds_append.mp h).1 (List.nodup_singleton _) fun x hx => ?_,
          wired_of_ne (k :: exit) rfl (hfresh _ (by omega) (by omega)) hkind, trivial⟩
      obtain rfl := List.mem_singleton.mp hx
      omega
  | concat f g hl ihf ihg =>
    rw [branchNodes, holds_append, length_branchNodes] at h
    rw [branchNodes, eachFrom_append, length_branchNodes]
    refine ⟨ihf h.1 (List.nodup_singleton _) fun x hx => ?_, ihg h.2 hexit fun x hx => ?_⟩
    · obtain rfl := List.mem_singleton.mp hx
      omega
    · have := hout x hx
      simp only [branchSize] at this
      omega
  | alternation e t ht g ihe ihg =>
    rw [branchNodes, holds_append, length_branchNodes] at h
    rw [branchNodes, eachFrom_append, length_branchNodes]
    simp only [Outside, branchSize] at hout
    refine ⟨ihe h.1 hexit fun x hx => ?_, ihg h.2 hexit fun x hx => ?_⟩
    · have := hout x hx
      omega
    · have := hout x hx
      omega

theorem reached_nodes_of (t : Tree l)
    (ht : ∀ k i, a.Holds k (t.branchNodes k [x] i q) → k ≤ j → j < k + t.branchSize →
      ∃ e ∈ t.entries k, a.Reaches e j)
    (h : a.Holds k (t.nodes k [x] i q)) (hk : k ≤ j) (hj : j < k + t.size) : a.Reaches k j := by
  obtain ⟨hfork, hbranches⟩ := (eachFrom_nodes ..).mp h
  simp only [size] at hj
  cases hc : t.isChoice with
  | false =>
    have hsize := t.forkSize_of_not_isChoice hc
    rw [hsize] at hbranches hj
    obtain ⟨e, he, hreach⟩ := ht k _ hbranches hk (by omega)
    rw [(t.single_branch hc k).1, List.mem_singleton] at he
    exact he ▸ hreach
  | true =>
    have hsize : t.forkSize = 1 := by rw [forkSize, hc]; rfl
    obtain ⟨node, hnode, -, -, hnext⟩ := t.exists_fork hc hfork
    rw [hsize] at hbranches hj
    rcases Nat.lt_or_ge j (k + 1) with hlt | hge
    · obtain rfl : j = k := by omega
      exact .refl
    · obtain ⟨e, he, hreach⟩ := ht (k + 1) _ hbranches hge (by omega)
      exact .head ((edge_iff hnode).mpr (hnext ▸ List.mem_map_of_mem he)) hreach

/-- There is a way to every node of a tree from where one of its branches starts. -/
theorem reached_branchNodes (t : Tree l) (h : a.Holds k (t.branchNodes k [x] i q)) (hk : k ≤ j)
    (hj : j < k + t.branchSize) : ∃ e ∈ t.entries k, a.Reaches e j := by
  induction t generalizing j k x i q with
  | value t v hv =>
    simp only [branchSize] at hj
    obtain rfl : j = k := by omega
    exact ⟨j, List.mem_singleton_self j, .refl⟩
  | group opening closing ho hc body ih =>
    obtain ⟨hopen, hbody, hclose⟩ := (eachFrom_group ..).mp h
    simp only [branchSize] at hj
    have hpos := body.branchSize_pos
    have hwithin {j : Nat} (hk : k + 1 ≤ j) (hj : j < k + 1 + body.size) : a.Reaches k j :=
      .head ((edge_iff hopen).mpr (by simp [opener]))
        (body.reached_nodes_of (fun _ _ h hk hj => ih h hk hj) hbody hk hj)
    refine ⟨k, List.mem_singleton_self k, ?_⟩
    rcases Nat.lt_or_ge j (k + 1) with hlt | hge
    · obtain rfl : j = k := by omega
      exact .refl
    · by_cases hclosing : j = k + 1 + body.size
      · have hout : a.Reaches (k + 1) (k + 1 + body.size) :=
          body.reaches_nodes_of (fun _ _ _ h hk hj => body.reaches_branchNodes h hk hj) hbody
            (Nat.le_refl _) (by simp only [size]; omega)
        exact hclosing ▸ (hwithin (Nat.le_refl _) (by simp only [size]; omega)).trans hout
      · exact hwithin hge (by simp only [size] at hclosing ⊢; omega)
  | quantified b t q' hq hl ih =>
    simp only [branchSize] at hj
    have hentries (k : Nat) : b.entries k = [k] :=
      (b.single_branch (b.isChoice_of_ne (by simp)) k).1
    simp only [hentries, List.mem_singleton, exists_eq_left] at ih
    have hpos := b.branchSize_pos
    refine ⟨k, List.mem_singleton_self k, ?_⟩
    cases q' with
    | plus =>
      rw [branchNodes, holds_append, length_branchNodes] at h
      rcases Nat.lt_or_ge j (k + b.branchSize) with hlt | hge
      · exact ih h.1 hk hlt
      · obtain rfl : j = k + b.branchSize := by omega
        exact b.reaches_branchNodes h.1 (Nat.le_refl k) (by omega)
    | _ =>
      rcases Nat.lt_or_ge j (k + 1) with hlt | hge
      · obtain rfl : j = k := by omega
        exact .refl
      · exact .head ((edge_iff h.1).mpr (by simp)) (ih h.2 hge (by omega))
  | concat f g hl ihf ihg =>
    rw [branchNodes, holds_append, length_branchNodes] at h
    simp only [branchSize] at hj
    have hpos := f.branchSize_pos
    have hf := (f.single_branch (f.isChoice_of_ne (by simp)) k).1
    have hg := (g.single_branch (g.isChoice_of_ne (by simp)) (k + f.branchSize)).1
    refine ⟨k, List.mem_singleton_self k, ?_⟩
    rcases Nat.lt_or_ge j (k + f.branchSize) with hlt | hge
    · obtain ⟨e, he, hreach⟩ := ihf h.1 hk hlt
      rw [hf, List.mem_singleton] at he
      exact he ▸ hreach
    · obtain ⟨e, he, hreach⟩ := ihg h.2 hge (by omega)
      rw [hg, List.mem_singleton] at he
      exact (f.reaches_branchNodes h.1 (Nat.le_refl k) (by omega)).trans (he ▸ hreach)
  | alternation e t ht g ihe ihg =>
    rw [branchNodes, holds_append, length_branchNodes] at h
    simp only [branchSize] at hj
    have hg := (g.single_branch (g.isChoice_of_ne (by simp)) (k + e.branchSize)).1
    rcases Nat.lt_or_ge j (k + e.branchSize) with hlt | hge
    · obtain ⟨y, hy, hreach⟩ := ihe h.1 hk hlt
      exact ⟨y, List.mem_append_left _ hy, hreach⟩
    · obtain ⟨y, hy, hreach⟩ := ihg h.2 hge (by omega)
      rw [hg] at hy
      exact ⟨y, List.mem_append_right _ hy, hreach⟩

end Tree

namespace Expression

open Automaton

theorem size_automaton (A : Expression) : A.automaton.nodes.size = A.lastAt + 1 := by
  cases A with
  | none => rfl
  | some e =>
    simp only [automaton, nodes, lastAt, List.size_toArray, List.length_append, List.length_cons,
      List.length_nil, Tree.length_nodes]
    omega

theorem wired_nodes (A : Expression) : EachFrom A.automaton.Wired 0 A.nodes := by
  have h := A.holds_nodes
  cases A with
  | none =>
    exact ⟨wired_of_ne [1] rfl (List.nodup_singleton 1) (by simp),
      wired_of_ne [] rfl .nil (by simp), trivial⟩
  | some e =>
    obtain ⟨-, htree, -⟩ := (eachFrom_some _ e).mp h
    refine (eachFrom_some _ e).mpr
      ⟨wired_of_ne [1] rfl (List.nodup_singleton 1) (by simp), ?_,
        wired_of_ne [] rfl .nil (by simp)⟩
    refine (eachFrom_nodes ..).mpr ⟨e.wired_forkNodes .., ?_⟩
    refine e.wired_branchNodes ((eachFrom_nodes ..).mp htree).2 (List.nodup_singleton _) ?_
    intro x hx
    obtain rfl := List.mem_singleton.mp hx
    simp only [Tree.size]
    omega

/-- To every node there is a way from `first`. -/
theorem reached_from_first (A : Expression) {i : Nat} (hi : i < A.automaton.nodes.size) :
    A.automaton.Reaches 0 i := by
  have hfirst : A.automaton.Edge 0 1 := (edge_iff A.first_node).mpr (by simp)
  rw [A.size_automaton] at hi
  cases A with
  | none =>
    simp only [lastAt] at hi
    obtain rfl | rfl : i = 0 ∨ i = 1 := by omega
    · exact .refl
    · exact .single hfirst
  | some e =>
    have htree := ((eachFrom_some _ e).mp (holds_nodes (some e))).2.1
    have hpos := e.branchSize_pos
    have hlast : (automaton (some e)).Reaches 1 (1 + e.size) :=
      e.reaches_nodes_of (fun _ _ _ h hk hj => e.reaches_branchNodes h hk hj) htree
        (Nat.le_refl 1) (by simp only [Tree.size]; omega)
    simp only [lastAt] at hi
    by_cases hzero : i = 0
    · exact hzero ▸ .refl
    · refine .head hfirst ?_
      by_cases hend : i = 1 + e.size
      · exact hend ▸ hlast
      · exact e.reached_nodes_of (fun _ _ h hk hj => e.reached_branchNodes h hk hj) htree
          (by omega) (by omega)

end Expression

theorem Automaton.length_drawnPlaces (place : Nat) (ns : List Node) :
    (drawnPlaces place ns).length = ns.length := by
  induction ns generalizing place with
  | nil => rfl
  | cons n ns ih =>
    rw [drawnPlaces]
    split <;> simp [ih]

namespace Automaton

/-- The nodes of an automaton, in the positions that edges refer to. -/
structure WellFormed (a : Automaton) : Prop where
  numbered : ∃ entries, Document.automaton a = .array entries ∧ entries.length = a.nodes.size ∧
    ∀ (i : Nat) (n : Node), a.nodes[i]? = some n →
      ∃ place, entries[i]? = some (Document.node n i place)
  two : 1 < a.nodes.size
  first : ∀ (i : Nat) (n : Node), a.nodes[i]? = some n → (n.kind = .first ↔ i = 0)
  last : ∀ (i : Nat) (n : Node), a.nodes[i]? = some n → (n.kind = .last ↔ i + 1 = a.nodes.size)
  targets : ∀ (i : Nat) (n : Node), a.nodes[i]? = some n →
    ∀ e ∈ n.next, ∃ j < a.nodes.size, e = some j
  distinct : ∀ (i : Nat) (n : Node), a.nodes[i]? = some n → n.next.Nodup
  ending : ∀ (i : Nat) (n : Node), a.nodes[i]? = some n → (n.next = [] ↔ n.kind = .last)
  reached : ∀ i < a.nodes.size, a.Reaches 0 i
  live : ∀ i < a.nodes.size, a.Reaches i (a.nodes.size - 1)
  closing : ∀ (i : Nat) (n : Node), a.nodes[i]? = some n → n.kind = .piece .groupOpen →
    ∃ (j : Nat) (m : Node), n.close = some j ∧ i < j ∧ a.nodes[j]? = some m ∧
      m.kind = .piece .groupClose

end Automaton

theorem Expression.automaton_wellFormed (A : Expression) : A.automaton.WellFormed := by
  have hsize := A.size_automaton
  have hpos := A.lastAt_pos
  have hwired {i : Nat} {n : Node} (h : A.automaton.nodes[i]? = some n) :
      A.automaton.Wired i n := by
    simpa using (eachFrom_iff _ 0 A.nodes).mp A.wired_nodes i n (by simpa [automaton] using h)
  obtain ⟨last, hlast, hkind, hnext⟩ := A.last_node
  have hlastAt {i : Nat} {n : Node} (h : A.automaton.nodes[i]? = some n) :
      n.kind = .last ↔ i = A.lastAt := by
    refine ⟨(A.ends_unique h).2, ?_⟩
    rintro rfl
    obtain rfl := Option.some.inj (h.symm.trans hlast)
    exact hkind
  refine
    { numbered := ?_
      two := by omega
      first := fun i n h => ⟨(A.ends_unique h).1, ?_⟩
      last := fun i n h => by rw [hlastAt h, hsize, Nat.add_right_cancel_iff]
      targets := fun i n h e he => ?_
      distinct := fun i n h => ?_
      ending := fun i n h => ?_
      reached := fun i hi => A.reached_from_first hi
      live := fun i hi => by
        rw [hsize, Nat.add_sub_cancel]
        exact A.reaches_last hi
      closing := fun i n h => (hwired h).closing }
  · refine ⟨_, rfl, ?_, fun i n h => ?_⟩
    · simp [Automaton.places, Automaton.length_drawnPlaces]
    · obtain ⟨hi, rfl⟩ := Array.getElem?_eq_some_iff.mp h
      exact ⟨_, by simp [Automaton.places, Automaton.length_drawnPlaces, hi]; rfl⟩
  · rintro rfl
    obtain rfl := Option.some.inj (h.symm.trans A.first_node)
    rfl
  · obtain ⟨targets, hedges, -⟩ := (hwired h).edges
    rw [hedges] at he
    obtain ⟨j, hj, rfl⟩ := List.mem_map.mp he
    exact ⟨j, A.inRange i j ⟨n, h, hedges ▸ List.mem_map_of_mem hj⟩, rfl⟩
  · obtain ⟨targets, hedges, hnodup⟩ := (hwired h).edges
    rw [hedges]
    exact hnodup.map (Option.some_injective _)
  · rw [hlastAt h]
    constructor
    · intro hnil
      rcases (A.reaches_last (Array.getElem?_eq_some_iff.mp h).1).cases_head with heq | hstep
      · exact heq
      · obtain ⟨j, he, -⟩ := hstep
        simp [Automaton.edge_iff h, hnil] at he
    · rintro rfl
      obtain rfl := Option.some.inj (h.symm.trans hlast)
      exact hnext

/-- Every source is compiled to a well-formed automaton. -/
theorem compile_wires_nodes (source : List Char) :
    ∃ c, compile source = .ok c ∧ c.automaton.WellFormed := by
  obtain ⟨c, A, hc, hA⟩ := exists_compile source
  exact ⟨c, hc, hA.automaton ▸ A.automaton_wellFormed⟩

end RegexDiagram
