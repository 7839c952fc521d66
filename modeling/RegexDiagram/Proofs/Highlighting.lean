import RegexDiagram.Session
import RegexDiagram.Proofs.Display
import RegexDiagram.Proofs.Protocol

/-!
Highlighting in a session. The nodes that accept a character are different nodes of the graph, none
of them the last one, which shows the state of the run. Highlighting sets the classes of all nodes,
so that nothing is left of what was highlighted before, and sets nothing else.
-/
namespace RegexDiagram

open List (Forall₂)

/-! ## What is highlighted -/

def GraphNode.unlit (n : GraphNode) : GraphNode := { n with runClasses := "" }

/-- The graph without highlights. -/
def Graph.unlit (g : Graph) : Graph := { g with nodes := g.nodes.map GraphNode.unlit }

namespace Graph

theorem unlit_highlight (places : List (Option Nat)) (r : RunStep) (g : Graph) :
    (g.highlight places r).unlit = g.unlit := by
  have hnodes : (g.highlight places r).nodes.map GraphNode.unlit = g.nodes.map GraphNode.unlit := by
    apply List.ext_getElem?
    intro k
    simp only [highlight, List.getElem?_map, List.getElem?_mapIdx, Option.map_map]
    rfl
  simp only [unlit, hnodes]
  rfl

theorem unlit_draw (a : Automaton) (p : Layout.Places) : (draw a p).unlit = draw a p := by
  have hnodes : (draw a p).nodes.map GraphNode.unlit = (draw a p).nodes := by
    rw [nodes_draw, List.map_map]
    rfl
  rw [unlit, hnodes]

end Graph

namespace Compiled

/-- The node `k` of the graph is the one that shows the node `i` of the automaton. -/
def Counterpart (c : Compiled) (i k : Nat) : Prop :=
  ∃ n g, c.automaton.nodes[i]? = some n ∧ c.automaton.places[i]? = some (some k) ∧
    c.graph.nodes[k]? = some g ∧ g.label = n.label ∧ g.classes = n.classes

/-- The graph highlights the step, and nothing else. -/
structure Highlights (c : Compiled) (r : RunStep) (g : Graph) : Prop where
  active : ∃ ks : List Nat, Forall₂ c.Counterpart r.accepting ks ∧ ks.Nodup ∧
    ∀ k n, g.nodes[k]? = some n → (n.runClasses = "active" ↔ k ∈ ks)
  state : ∃ n, g.nodes.getLast? = some n ∧ n.runClasses = " " ++ r.state.name
  others : ∀ k n, g.nodes[k]? = some n → k + 1 < g.nodes.length → n.runClasses ≠ "active" →
    n.runClasses = ""

end Compiled

namespace Automaton

variable {a : Automaton} {current : List Nat} {visited : NodeSet} {c : Char} {r : RunStep}
  {i j : Nat} {n : Node}

/-- What a session relies on at a step. -/
structure Usable (a : Automaton) (r : RunStep) : Prop where
  proper : a.Proper r
  accepting : r.accepting.Nodup
  shown : ∀ i ∈ r.accepting, ∃ n, (n, i) ∈ Graph.drawnNodes a ∧ n.kind ≠ .last

theorem accepting_toStep_spread (accepting next : List Nat) (isLast : Bool) :
    ((Advance.spread accepting next).toStep isLast).accepting = accepting := by
  cases accepting <;> rfl

theorem sublist_advance {s : Advance} (h : a.advance c visited current = .ok s) (isLast : Bool) :
    (s.toStep isLast).accepting.Sublist current := by
  induction current generalizing visited s with
  | nil =>
    obtain rfl := Except.ok.inj h
    exact List.Sublist.refl _
  | cons i rest ih =>
    unfold advance at h
    split at h
    · cases h
    split at h
    · cases h
    rename_i n hn _ v hv
    by_cases hc : v.accepts c = true
    · by_cases hw : (a.walk visited n.targets).reached = true
      · simp only [hc, hw, if_true] at h
        obtain rfl := Except.ok.inj h
        exact List.singleton_sublist.mpr List.mem_cons_self
      · simp only [hc, hw, if_true, Bool.false_eq_true, if_false] at h
        cases hr : a.advance c (a.walk visited n.targets).visited rest with
        | error e => simp [hr, Except.map] at h
        | ok s' =>
          rw [hr] at h
          obtain rfl := Except.ok.inj h
          have hrest := ih hr
          cases s' with
          | complete node => exact hrest.cons i
          | spread accepting next =>
            rw [accepting_toStep_spread] at hrest
            rw [Advance.cons, accepting_toStep_spread]
            exact hrest.cons_cons i
    · rw [if_neg hc] at h
      exact (ih h).cons i

theorem mem_drawnNodes_of_isValue (hi : a.IsValue i) :
    ∃ n, (n, i) ∈ Graph.drawnNodes a ∧ n.kind ≠ .last := by
  obtain ⟨n, hn, hvalue⟩ := hi
  have hkind : n.isDrawn = true ∧ n.kind ≠ .last := by
    unfold Node.value? at hvalue
    split at hvalue
    · rename_i v hv
      simp [Node.isDrawn, hv]
    · simp at hvalue
  exact ⟨n, Graph.mem_drawnNodes.mpr ⟨hn, hkind.1⟩, hkind.2⟩

theorem Usable.exists_step (h : a.Usable r) (ha : a.Progressing) (input : List Char) (pos : Nat) :
    ∃ r', a.step r.next input pos = .ok r' ∧ a.Usable r' := by
  have hstep := step_of_values h.proper.values input pos
  cases hc : input[pos]? with
  | none =>
    rw [hc] at hstep
    refine ⟨_, hstep, ?_, List.nodup_nil, by simp⟩
    constructor <;> simp
  | some c =>
    obtain ⟨s, hadvance, hproper⟩ := exists_advance ha h.proper.values c
    rw [hc] at hstep
    simp only [consume, hadvance, Except.map] at hstep
    have haccepting := sublist_advance hadvance (decide (pos + 1 = input.length))
    refine ⟨_, hstep, hproper _, haccepting.nodup h.proper.distinct, ?_⟩
    intro i hi
    exact mem_drawnNodes_of_isValue (h.proper.values i (haccepting.subset hi))

theorem rank_inj {m : Node} (hi : (n, i) ∈ Graph.drawnNodes a) (hj : (m, j) ∈ Graph.drawnNodes a)
    (hrank : a.rank i = a.rank j) : i = j := by
  have hplace := Graph.getElem?_rank hi
  rw [hrank, Graph.getElem?_rank hj] at hplace
  exact (congrArg Prod.snd (Option.some.inj hplace)).symm

theorem rank_lt {m : Node} (hi : (n, i) ∈ Graph.drawnNodes a) (hj : (m, j) ∈ Graph.drawnNodes a)
    (hlt : i < j) : a.rank i < a.rank j := by
  rcases Nat.lt_trichotomy (a.rank i) (a.rank j) with hrank | hrank | hrank
  · exact hrank
  · exact absurd (rank_inj hi hj hrank) (Nat.ne_of_lt hlt)
  · obtain ⟨hx, hfirst⟩ := List.getElem?_eq_some_iff.mp (Graph.getElem?_rank hj)
    obtain ⟨hy, hsecond⟩ := List.getElem?_eq_some_iff.mp (Graph.getElem?_rank hi)
    have hback := List.pairwise_iff_getElem.mp (pairwise_drawnNodes a) _ _ hx hy hrank
    rw [hfirst, hsecond] at hback
    omega

theorem places_rank (hn : (n, i) ∈ Graph.drawnNodes a) : a.places[i]? = some (some (a.rank i)) :=
  places_eq_some_iff.mpr ⟨⟨n, Graph.mem_drawnNodes.mp hn⟩, rfl⟩

namespace Usable

variable (h : a.Usable r)
include h

theorem filterMap_places :
    r.accepting.filterMap (fun i => a.places[i]?.join) = r.accepting.map a.rank := by
  have hplace (i : Nat) (hi : i ∈ r.accepting) : a.places[i]?.join = some (a.rank i) := by
    obtain ⟨n, hn, -⟩ := h.shown i hi
    rw [places_rank hn]
    rfl
  rw [List.filterMap_congr hplace]
  exact congrFun List.filterMap_eq_map r.accepting

theorem nodup_ranks : (r.accepting.map a.rank).Nodup := by
  apply List.Nodup.map_on _ h.accepting
  intro i hi j hj hrank
  obtain ⟨n, hn, -⟩ := h.shown i hi
  obtain ⟨m, hm, -⟩ := h.shown j hj
  exact rank_inj hn hm hrank

theorem runClasses_highlight {g : Graph} {k : Nat} {x : GraphNode}
    (hx : (g.highlight a.places r).nodes[k]? = some x) :
    x.runClasses = (if k ∈ r.accepting.map a.rank then "active" else "") ++
      (if k + 1 = g.nodes.length then Graph.stateClass r.state else "") := by
  simp only [Graph.highlight, h.filterMap_places, List.contains_iff_mem] at hx
  rw [List.getElem?_mapIdx] at hx
  obtain ⟨y, -, rfl⟩ := Option.map_eq_some_iff.mp hx
  rfl

end Usable
end Automaton

namespace Expression

open Automaton

variable {A : Expression}

theorem usable_start (A : Expression) : A.automaton.Usable A.automaton.start where
  proper := A.initial.proper
  accepting := List.nodup_singleton 0
  shown i hi := by
    obtain rfl := List.mem_singleton.mp hi
    exact ⟨_, Graph.mem_drawnNodes.mpr ⟨A.first_node, rfl⟩, by simp⟩

theorem rank_succ_lt {n : Node} {i : Nat} (hn : (n, i) ∈ Graph.drawnNodes A.automaton)
    (hkind : n.kind ≠ .last) : A.automaton.rank i + 1 < (Graph.drawnNodes A.automaton).length := by
  obtain ⟨m, hm, hlast, -⟩ := A.last_node
  have hdrawn : (m, A.lastAt) ∈ Graph.drawnNodes A.automaton :=
    Graph.mem_drawnNodes.mpr ⟨hm, by rw [Node.isDrawn, hlast]⟩
  have hat := (Graph.mem_drawnNodes.mp hn).1
  have hne : i ≠ A.lastAt := by
    rintro rfl
    obtain rfl := Option.some.inj (hat.symm.trans hm)
    exact hkind hlast
  have hsize := (Array.getElem?_eq_some_iff.mp hat).1
  rw [A.size_automaton] at hsize
  have hrank := rank_lt hn hdrawn (by omega)
  have hlength := (List.getElem?_eq_some_iff.mp (Graph.getElem?_rank hdrawn)).1
  omega

theorem rank_succ_lt_of_usable {r : RunStep} (h : A.automaton.Usable r) {k : Nat}
    (hk : k ∈ r.accepting.map A.automaton.rank) :
    k + 1 < (Graph.drawnNodes A.automaton).length := by
  obtain ⟨i, hi, rfl⟩ := List.mem_map.mp hk
  obtain ⟨n, hn, hkind⟩ := h.shown i hi
  exact rank_succ_lt hn hkind

theorem drawnNodes_pos (A : Expression) : 0 < (Graph.drawnNodes A.automaton).length :=
  List.length_pos_of_mem (Graph.mem_drawnNodes.mpr ⟨A.first_node, rfl⟩)

end Expression

/-! ## Sessions -/

/-- What a session of a compiled regex can come to, with the steps that it has made on the way. It
starts a run, goes on from any of the steps, and highlights whenever it likes. -/
inductive Session.Reached (c : Compiled) : List RunStep → Session → Prop
  | start : Reached c [c.automaton.start] (Session.start { compiled := c }).1
  | restart {steps : List RunStep} {s : Session} (h : Reached c steps s) :
      Reached c (s.start.2 :: steps) s.start.1
  | resume {steps : List RunStep} {s : Session} {r : RunStep} (h : Reached c steps s)
      (hr : r ∈ steps) : Reached c steps (s.record r)
  | step {steps : List RunStep} {s s' : Session} {r : RunStep} {input : List Char} {pos : Nat}
      (h : Reached c steps s) (hs : s.step input pos none = .ok (s', r)) :
      Reached c (r :: steps) s'
  | highlight {steps : List RunStep} {s : Session} (h : Reached c steps s) :
      Reached c steps s.highlight

/-- A session that has changed nothing but the highlights, and highlights what it is asked to. -/
structure Session.Keeps (s : Session) (c : Compiled) (steps : List RunStep) : Prop where
  compiled : s.compiled = c
  graph : s.graph.unlit = c.graph
  last : ∃ r ∈ steps, s.last = some r ∧ s.current = r.next
  steps : ∀ input pos, ∃ s' r, s.step input pos none = .ok (s', r)
  highlights : ∀ r, s.last = some r → c.Highlights r s.highlight.graph

namespace Session

variable {c : Compiled} {A : Expression} {steps : List RunStep} {s : Session} {r : RunStep}

/-- What the operations of a session preserve. -/
structure Sound (s : Session) (c : Compiled) (steps : List RunStep) : Prop where
  compiled : s.compiled = c
  graph : s.graph.unlit = c.graph
  last : ∃ r ∈ steps, s.last = some r ∧ s.current = r.next
  usable : ∀ r ∈ steps, c.automaton.Usable r

theorem Sound.record (h : s.Sound c steps) (hr : r ∈ steps) : (s.record r).Sound c steps where
  compiled := h.compiled
  graph := h.graph
  last := ⟨r, hr, rfl, rfl⟩
  usable := h.usable

theorem Sound.push (h : s.Sound c steps) (hr : c.automaton.Usable r) :
    (s.record r).Sound c (r :: steps) where
  compiled := h.compiled
  graph := h.graph
  last := ⟨r, List.mem_cons_self, rfl, rfl⟩
  usable := List.forall_mem_cons.mpr ⟨hr, h.usable⟩

theorem Sound.highlight (h : s.Sound c steps) : s.highlight.Sound c steps := by
  obtain ⟨r, hr, hlast, hcurrent⟩ := h.last
  have heq : s.highlight = { s with graph := s.compiled.highlight r s.graph } := by
    rw [Session.highlight, hlast]
  rw [heq]
  exact
    { compiled := h.compiled
      graph := (Graph.unlit_highlight ..).trans h.graph
      last := ⟨r, hr, hlast, hcurrent⟩
      usable := h.usable }

theorem Sound.exists_step (h : s.Sound c steps) (ha : c.automaton.Progressing)
    (input : List Char) (pos : Nat) :
    ∃ r, s.step input pos none = .ok (s.record r, r) ∧ c.automaton.Usable r := by
  obtain ⟨r, hr, -, hcurrent⟩ := h.last
  obtain ⟨r', hstep, husable⟩ := (h.usable r hr).exists_step ha input pos
  refine ⟨r', ?_, husable⟩
  rw [Session.step, Option.getD_none, h.compiled, hcurrent, hstep]
  rfl

theorem Reached.sound (h : Reached c steps s) (hA : c.automaton = A.automaton)
    (hgraph : c.graph.unlit = c.graph) : s.Sound c steps := by
  have hstart : c.automaton.Usable c.automaton.start := hA ▸ A.usable_start
  have ha : c.automaton.Progressing := hA ▸ A.progressing
  induction h with
  | start =>
    exact
      { compiled := rfl
        graph := hgraph
        last := ⟨_, List.mem_singleton_self _, rfl, rfl⟩
        usable := by simpa using hstart }
  | @restart _ s _ ih =>
    have heq : s.start = (s.record c.automaton.start, c.automaton.start) := by
      rw [Session.start, ih.compiled]
    rw [heq]
    exact ih.push hstart
  | resume h hr ih => exact ih.record hr
  | @step _ _ _ _ input pos _ hs ih =>
    obtain ⟨r', hstep, husable⟩ := ih.exists_step ha input pos
    obtain ⟨rfl, rfl⟩ := Prod.mk.inj (Except.ok.inj (hstep.symm.trans hs))
    exact ih.push husable
  | highlight h ih => exact ih.highlight

end Session

theorem Graph.stateClass_ne (s : RunState) : stateClass s ≠ "active" := by
  cases s <;> decide

namespace Compiled

variable {c : Compiled} {A : Expression} {p : Layout.Places} {r : RunStep} {g : Graph}

theorem counterpart_rank (hgraph : c.graph = Graph.draw c.automaton p) {n : Node} {i : Nat}
    (hn : (n, i) ∈ Graph.drawnNodes c.automaton) : c.Counterpart i (c.automaton.rank i) := by
  refine ⟨n, Graph.nodeAt p (n, i), (Graph.mem_drawnNodes.mp hn).1, Automaton.places_rank hn, ?_,
    rfl, rfl⟩
  rw [hgraph, Graph.nodes_draw, List.getElem?_map, Graph.getElem?_rank hn]
  rfl

theorem length_nodes_of_unlit (hA : c.automaton = A.automaton)
    (hgraph : c.graph = Graph.draw c.automaton p) (hg : g.unlit = c.graph) :
    g.nodes.length = (Graph.drawnNodes A.automaton).length := by
  have hnodes := congrArg (fun g => g.nodes.length) hg
  simpa only [hgraph, hA, Graph.unlit, Graph.nodes_draw, List.length_map] using hnodes

theorem highlights_of_usable (hA : c.automaton = A.automaton)
    (hgraph : c.graph = Graph.draw c.automaton p) (h : c.automaton.Usable r)
    (hg : g.unlit = c.graph) : c.Highlights r (g.highlight c.automaton.places r) := by
  have hsize := length_nodes_of_unlit hA hgraph hg
  have hpos := A.drawnNodes_pos
  have hlength : (g.highlight c.automaton.places r).nodes.length = g.nodes.length :=
    List.length_mapIdx
  have hfront (k : Nat) (hk : k ∈ r.accepting.map c.automaton.rank) : k + 1 < g.nodes.length := by
    rw [hA] at h hk
    rw [hsize]
    exact Expression.rank_succ_lt_of_usable h hk
  constructor
  · refine ⟨r.accepting.map c.automaton.rank, ?_, h.nodup_ranks, ?_⟩
    · rw [List.forall₂_map_right_iff, List.forall₂_same]
      intro i hi
      obtain ⟨n, hn, -⟩ := h.shown i hi
      exact counterpart_rank hgraph hn
    · intro k x hx
      rw [h.runClasses_highlight hx]
      by_cases hk : k ∈ r.accepting.map c.automaton.rank
      · have hne : k + 1 ≠ g.nodes.length := Nat.ne_of_lt (hfront k hk)
        rw [if_pos hk, if_neg hne, String.append_empty]
        exact iff_of_true rfl hk
      · rw [if_neg hk, String.empty_append]
        apply iff_of_false _ hk
        split
        · exact Graph.stateClass_ne r.state
        · decide
  · have hlast : g.nodes.length - 1 < (g.highlight c.automaton.places r).nodes.length := by omega
    have hget := List.getElem?_eq_getElem hlast
    have hend : g.nodes.length - 1 + 1 = g.nodes.length := by omega
    have hnot : g.nodes.length - 1 ∉ r.accepting.map c.automaton.rank := by
      intro hk
      have := hfront _ hk
      omega
    refine ⟨_, by rw [List.getLast?_eq_getElem?, hlength]; exact hget, ?_⟩
    rw [h.runClasses_highlight hget, if_neg hnot, if_pos hend, String.empty_append]
    rfl
  · intro k x hx hlt hne
    have hend : k + 1 ≠ g.nodes.length := by omega
    rw [h.runClasses_highlight hx, if_neg hend, String.append_empty] at hne ⊢
    exact if_neg fun hk => hne (if_pos hk)

end Compiled

/-- Whatever is done in a session, highlighting a step shows that step and no other one, and nothing
else about the compiled regex changes. -/
theorem highlighting_leaves_nothing (source : List Char) :
    ∃ c, compile source = .ok c ∧
      ∀ steps s, Session.Reached c steps s → s.Keeps c steps := by
  obtain ⟨c, A, hc, hA⟩ := exists_compile source
  obtain ⟨p, -, hgraph⟩ := hA.drawing
  refine ⟨c, hc, ?_⟩
  intro steps s hreached
  have hunlit : c.graph.unlit = c.graph := by rw [hgraph, Graph.unlit_draw]
  have hsound := hreached.sound hA.automaton hunlit
  have ha : c.automaton.Progressing := hA.automaton ▸ A.progressing
  refine ⟨hsound.compiled, hsound.graph, hsound.last, ?_, ?_⟩
  · intro input pos
    obtain ⟨r, hstep, -⟩ := hsound.exists_step ha input pos
    exact ⟨_, r, hstep⟩
  · intro r hlast
    obtain ⟨r', hr', hlast', -⟩ := hsound.last
    obtain rfl := Option.some.inj (hlast.symm.trans hlast')
    have hlit := Compiled.highlights_of_usable hA.automaton hgraph (hsound.usable r hr') hsound.graph
    rw [Session.highlight, hlast, hsound.compiled]
    exact hlit

end RegexDiagram
