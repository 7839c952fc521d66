import RegexDiagram.Proofs.Invisible
import RegexDiagram.Proofs.Wiring

/-!
The nodes of a graph. Quantifiers apart, each node of an automaton is shown as one node of the
graph, and the graph has no others. They are in the same order, so the number of a node in the
drawing is where the graph has it.
-/
namespace RegexDiagram

theorem getElem?_select {p : Node → Bool} {ns : List Node} {i : Nat} {n : Node}
    (hn : ns[i]? = some n) (hp : p n = true) (k : Nat) :
    (select p k ns)[(ns.take i).countP p]? = some (n, k + i) := by
  induction ns generalizing i k with
  | nil => simp at hn
  | cons m ns ih =>
    rw [select_cons]
    cases i with
    | zero =>
      obtain rfl : m = n := by simpa using hn
      simp [hp]
    | succ i =>
      have hrest := ih (by simpa using hn) (k + 1)
      rw [Nat.add_assoc, Nat.add_comm 1] at hrest
      by_cases hm : p m = true
      · simpa [hm] using hrest
      · simpa [hm] using hrest

theorem exists_getElem?_right {α β : Type} {r : α → β → Prop} {xs : List α} {ys : List β}
    (h : List.Forall₂ r xs ys) {k : Nat} {x : α} (hx : xs[k]? = some x) :
    ∃ y, ys[k]? = some y ∧ r x y := by
  obtain ⟨hk, rfl⟩ := List.getElem?_eq_some_iff.mp hx
  have hk' : k < ys.length := h.length_eq ▸ hk
  exact ⟨ys[k], List.getElem?_eq_getElem hk', h.get hk hk'⟩

theorem exists_getElem?_left {α β : Type} {r : α → β → Prop} {xs : List α} {ys : List β}
    (h : List.Forall₂ r xs ys) {k : Nat} {y : β} (hy : ys[k]? = some y) :
    ∃ x, xs[k]? = some x ∧ r x y :=
  exists_getElem?_right (r := fun y x => r x y) (List.Forall₂.flip h) hy

theorem pairwise_drawnNodes (a : Automaton) :
    (Graph.drawnNodes a).Pairwise fun x y => x.2 < y.2 := by
  apply List.pairwise_map.mp
  apply List.Pairwise.sublist (List.filter_sublist.map Prod.snd)
  rw [List.zipIdx_map_snd]
  exact List.pairwise_lt_range'

theorem nodup_drawnNodes (a : Automaton) : ((Graph.drawnNodes a).map (·.2)).Nodup :=
  List.pairwise_map.mpr ((pairwise_drawnNodes a).imp Nat.ne_of_lt)

theorem pairwise_filterMap_drawnNodes {α : Type} {f : Node × Nat → Option α} {key : α → Nat}
    (a : Automaton) (hf : ∀ x y, f x = some y → key y = x.2) :
    (((Graph.drawnNodes a).filterMap f).map key).Pairwise (· < ·) := by
  rw [List.pairwise_map, List.pairwise_filterMap]
  apply (pairwise_drawnNodes a).imp
  intro x x' hlt y hy y' hy'
  rw [hf x y hy, hf x' y' hy']
  exact hlt

namespace Graph

variable {a : Automaton} {p : Layout.Places} {i : Nat} {n : Node} {g : GraphNode}

/-- The node of the graph for a node of the automaton. -/
def nodeAt (p : Layout.Places) (x : Node × Nat) : GraphNode :=
  { label := x.1.label, coord := coordAt p x.2, classes := x.1.classes,
    quantifier := x.1.quantifier }

theorem getElem?_rank (h : (n, i) ∈ drawnNodes a) : (drawnNodes a)[a.rank i]? = some (n, i) := by
  obtain ⟨hn, hd⟩ := mem_drawnNodes.mp h
  have hlist : a.nodes.toList[i]? = some n := by simpa using hn
  have hselect := getElem?_select hlist hd 0
  rw [Nat.zero_add] at hselect
  exact hselect

theorem nodes_draw (a : Automaton) (p : Layout.Places) :
    (draw a p).nodes = (drawnNodes a).map (nodeAt p) := rfl

end Graph

namespace Compiled

variable {c : Compiled} {p : Layout.Places} {i : Nat} {g : GraphNode}

/-- The node `g` of the graph shows the node `i` of the automaton. -/
def Displays (c : Compiled) (i : Nat) (g : GraphNode) : Prop :=
  ∃ k : Nat, c.automaton.places[i]? = some (some k) ∧ c.graph.nodes[k]? = some g

theorem displays_iff (h : c.graph = Graph.draw c.automaton p) :
    c.Displays i g ↔ ∃ n, (n, i) ∈ Graph.drawnNodes c.automaton ∧ g = Graph.nodeAt p (n, i) := by
  have hshown {n : Node} (hn : (n, i) ∈ Graph.drawnNodes c.automaton) :
      c.graph.nodes[c.automaton.rank i]? = some (Graph.nodeAt p (n, i)) := by
    rw [h, Graph.nodes_draw, List.getElem?_map, Graph.getElem?_rank hn]
    rfl
  constructor
  · intro hg
    obtain ⟨k, hk, hg⟩ := hg
    obtain ⟨⟨n, hn, hd⟩, rfl⟩ := Automaton.places_eq_some_iff.mp hk
    have hmem := Graph.mem_drawnNodes.mpr ⟨hn, hd⟩
    exact ⟨n, hmem, Option.some.inj (hg.symm.trans (hshown hmem))⟩
  · intro hg
    obtain ⟨n, hmem, rfl⟩ := hg
    exact ⟨_, Automaton.places_eq_some_iff.mpr ⟨⟨n, Graph.mem_drawnNodes.mp hmem⟩, rfl⟩,
      hshown hmem⟩

/-- The node `i` of the automaton is drawn at `z`. -/
def LiesAt (c : Compiled) (i : Nat) (z : Coord) : Prop := ∃ g, c.Displays i g ∧ g.coord = z

theorem liesAt_coordAt (h : c.graph = Graph.draw c.automaton p) (hi : c.automaton.DrawnAt i) :
    c.LiesAt i (Graph.coordAt p i) := by
  obtain ⟨n, hn, hd⟩ := hi
  exact ⟨_, (displays_iff h).mpr ⟨n, Graph.mem_drawnNodes.mpr ⟨hn, hd⟩, rfl⟩, rfl⟩

end Compiled
end RegexDiagram
