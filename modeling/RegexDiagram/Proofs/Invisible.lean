import RegexDiagram.Proofs.Traces
import RegexDiagram.Proofs.Unquantified

/-!
Quantifiers are invisible in the drawing. A regex that nothing is reported of is drawn in the same
way without its quantifiers, but for the marks at its nodes and parentheses, and the lines of its
drawing are the edges of the automaton that it has without its quantifiers.
-/
namespace RegexDiagram

open List (Forall₂)

/-! ## Numbers in the drawing -/

namespace Automaton

variable {a : Automaton}

/-- The number of drawn nodes in front of a position. -/
def rank (a : Automaton) (i : Nat) : Nat := (a.nodes.toList.take i).countP Node.isDrawn

theorem ranked_rank (a : Automaton) : Ranked a.rank 0 a.nodes.toList := by
  refine (eachFrom_iff ..).mpr fun i n hn => ?_
  simp only [rank, Nat.zero_add, List.take_add_one, hn, List.countP_append]
  cases hd : n.isDrawn <;> simp [hd]

theorem getElem?_drawnPlaces (ns : List Node) (place i : Nat) :
    (drawnPlaces place ns)[i]? = ns[i]?.map fun n =>
      if n.isDrawn then some (place + (ns.take i).countP Node.isDrawn) else none := by
  induction ns generalizing place i with
  | nil => simp [drawnPlaces]
  | cons n ns ih =>
    rw [drawnPlaces]
    cases i with
    | zero => cases hd : n.isDrawn <;> simp [hd]
    | succ i => cases hd : n.isDrawn <;> simp [hd, ih, Nat.add_assoc, Nat.add_comm 1]

theorem places_eq_some_iff {i x : Nat} :
    a.places[i]? = some (some x) ↔ a.DrawnAt i ∧ x = a.rank i := by
  rw [places, getElem?_drawnPlaces]
  simp only [Option.map_eq_some_iff, Array.getElem?_toList, DrawnAt, rank, Nat.zero_add]
  grind

/-- A line is drawn from the node with one number to the node with the other. -/
def Line (a : Automaton) (x y : Nat) : Prop :=
  ∃ (i j : Nat) (n : Node), a.places[i]? = some (some x) ∧ a.places[j]? = some (some y) ∧
    a.nodes[j]? = some n ∧ i ∈ n.sources

theorem edge_iff_mem_edges {i j : Nat} : a.Edge i j ↔ (i, j) ∈ edges 0 a.nodes.toList := by
  simp [Edge, mem_edges_iff, Node.targets]

end Automaton

theorem map_select_isDrawn {ρ : Nat → Nat} {k : Nat} {ns : List Node} (h : Ranked ρ k ns) :
    (select Node.isDrawn k ns).map (fun x => (x.1.sketch ρ, ρ x.2)) =
      (sketches ρ ns).zipIdx (ρ k) := by
  induction ns generalizing k with
  | nil => rfl
  | cons n ns ih =>
    obtain ⟨hn, hns⟩ := h
    rw [select_cons, List.map_append, ih hns, hn]
    cases hd : n.isDrawn <;> simp [sketches, hd]

namespace Graph

/-- The sketches of the drawn nodes with their numbers. -/
def outline (ρ : Nat → Nat) (a : Automaton) : List (Node × Nat) :=
  (drawnNodes a).map fun x => (x.1.sketch ρ, ρ x.2)

theorem outline_eq {ρ : Nat → Nat} {a : Automaton} (h0 : ρ 0 = 0)
    (h : Ranked ρ 0 a.nodes.toList) : outline ρ a = (sketches ρ a.nodes.toList).zipIdx := by
  have hselect := map_select_isDrawn h
  rw [h0] at hselect
  exact hselect

end Graph

theorem Automaton.line_iff {a : Automaton} {x y : Nat}
    (ha : ∀ i n, a.nodes[i]? = some n → a.Linked i n) :
    a.Line x y ↔ (x, y) ∈ lines 0 (sketches a.rank a.nodes.toList) := by
  rw [lines, pairs, ← Graph.outline_eq (by simp [rank]) a.ranked_rank, List.mem_flatMap]
  constructor
  · intro h
    obtain ⟨i, j, n, hi, hj, hn, hmem⟩ := h
    obtain ⟨-, rfl⟩ := places_eq_some_iff.mp hi
    obtain ⟨⟨m, hm, hd⟩, rfl⟩ := places_eq_some_iff.mp hj
    obtain rfl := Option.some.inj (hn.symm.trans hm)
    exact ⟨_, List.mem_map_of_mem (Graph.mem_drawnNodes.mpr ⟨hn, hd⟩),
      List.mem_map_of_mem (List.mem_map_of_mem hmem)⟩
  · intro h
    obtain ⟨z, hz, hmem⟩ := h
    obtain ⟨⟨n, j⟩, hdrawn, rfl⟩ := List.mem_map.mp hz
    obtain ⟨x', hx', heq⟩ := List.mem_map.mp hmem
    obtain ⟨i, hi, rfl⟩ := List.mem_map.mp hx'
    obtain ⟨rfl, rfl⟩ := Prod.mk.inj heq
    obtain ⟨hn, hd⟩ := Graph.mem_drawnNodes.mp hdrawn
    exact ⟨i, j, n, places_eq_some_iff.mpr ⟨((ha j n hn).earlier i hi).2, rfl⟩,
      places_eq_some_iff.mpr ⟨⟨n, hn, hd⟩, rfl⟩, hn, hi⟩

/-! ## Drawings from sketches -/

namespace Node

variable (ρ : Nat → Nat) (n : Node)

theorem linkSource?_sketch : (n.sketch ρ).linkSource? = n.linkSource?.map ρ := by
  simp only [linkSource?, sketch, Option.isSome_map]
  split
  · rfl
  · rcases n.sources with - | ⟨s, - | ⟨s', rest⟩⟩ <;> rfl

theorem mergeSources?_sketch :
    (n.sketch ρ).mergeSources? = n.mergeSources?.map (List.map ρ) := by
  simp only [mergeSources?, sketch, Option.isNone_map, List.length_map]
  split <;> rfl

variable {n}

theorem mem_sources_of_linkSource? {s : Nat} (h : n.linkSource? = some s) : s ∈ n.sources := by
  unfold linkSource? at h
  split at h
  · cases h
  · split at h
    · rename_i hs
      simp_all
    · cases h

theorem mergeSources?_eq {ss : List Nat} (h : n.mergeSources? = some ss) : ss = n.sources := by
  unfold mergeSources? at h
  split at h
  · exact (Option.some.inj h).symm
  · cases h

end Node

namespace Graph

variable {a : Automaton} {p p' : Layout.Places} {ρ : Nat → Nat}

/-- The node is in the place that it has by its number. -/
def Renumbered (a : Automaton) (p p' : Layout.Places) (ρ : Nat → Nat) : Prop :=
  ∀ i, a.DrawnAt i → coordAt p' (ρ i) = coordAt p i

theorem links_draw (hp : Renumbered a p p' ρ) (ha : ∀ i n, a.nodes[i]? = some n → a.Linked i n) :
    (draw a p).links = (outline ρ a).filterMap fun x =>
      x.1.linkSource?.map fun s => (coordAt p' s, coordAt p' x.2) := by
  rw [outline, List.filterMap_map]
  refine List.filterMap_congr fun x hx => ?_
  obtain ⟨hn, hd⟩ := mem_drawnNodes.mp hx
  cases hs : x.1.linkSource? with
  | none => simp [Node.linkSource?_sketch, hs]
  | some s =>
    have hsource := ((ha _ _ hn).earlier s (Node.mem_sources_of_linkSource? hs)).2
    simp [Node.linkSource?_sketch, hs, hp s hsource, hp x.2 ⟨_, hn, hd⟩]

theorem map_coordAt_renumbered (hp : Renumbered a p p' ρ) {is : List Nat}
    (his : ∀ i ∈ is, a.DrawnAt i) : (is.map ρ).map (coordAt p') = is.map (coordAt p) := by
  rw [List.map_map]
  exact List.map_congr_left fun i hi => hp i (his i hi)

theorem forks_draw (hp : Renumbered a p p' ρ) (ha : ∀ i n, a.nodes[i]? = some n → a.Linked i n) :
    (draw a p).forks = (outline ρ a).filterMap fun x =>
      x.1.fork.map fun f => coordAt p' x.2 :: f.branches.map (coordAt p') := by
  rw [outline, List.filterMap_map]
  refine List.filterMap_congr fun x hx => ?_
  obtain ⟨hn, hd⟩ := mem_drawnNodes.mp hx
  cases hf : x.1.fork with
  | none => simp [Node.sketch, hf]
  | some f =>
    have hbranches := map_coordAt_renumbered hp ((ha _ _ hn).branches f hf)
    simp [Node.sketch, hf, ← hbranches, hp x.2 ⟨_, hn, hd⟩]

theorem merges_draw (hp : Renumbered a p p' ρ) (ha : ∀ i n, a.nodes[i]? = some n → a.Linked i n) :
    (draw a p).merges = (outline ρ a).filterMap fun x =>
      x.1.mergeSources?.map fun ss => coordAt p' x.2 :: ss.map (coordAt p') := by
  rw [outline, List.filterMap_map]
  refine List.filterMap_congr fun x hx => ?_
  obtain ⟨hn, hd⟩ := mem_drawnNodes.mp hx
  cases hm : x.1.mergeSources? with
  | none => simp [Node.mergeSources?_sketch, hm]
  | some ss =>
    obtain rfl := Node.mergeSources?_eq hm
    have hsources := map_coordAt_renumbered hp fun i hi => ((ha _ _ hn).earlier i hi).2
    simp [Node.mergeSources?_sketch, hm, ← hsources, hp x.2 ⟨_, hn, hd⟩]

end Graph

/-- The same node, but for a quantifier that is marked at it. -/
structure GraphNode.Marks (n m : GraphNode) : Prop where
  label : n.label = m.label
  coord : n.coord = m.coord
  classes : n.classes = if n.quantifier.isSome then m.classes ++ " quantifier" else m.classes
  quantifier : m.quantifier = none
  runClasses : n.runClasses = m.runClasses

namespace Graph

variable {a : Automaton} {p p' : Layout.Places} {ρ : Nat → Nat}

/-- A node without a mark. -/
def unmarked (p : Layout.Places) (x : Node × Nat) : GraphNode :=
  { label := x.1.label, coord := coordAt p x.2, classes := x.1.kindClass, quantifier := none }

theorem marks_draw (hp : Renumbered a p p' ρ) :
    Forall₂ GraphNode.Marks (draw a p).nodes ((outline ρ a).map (unmarked p')) := by
  rw [outline, List.map_map, draw, List.forall₂_map_left_iff, List.forall₂_map_right_iff,
    List.forall₂_same]
  intro x hx
  obtain ⟨hn, hd⟩ := mem_drawnNodes.mp hx
  exact
    { label := rfl
      coord := (hp x.2 ⟨_, hn, hd⟩).symm
      classes := rfl
      quantifier := rfl
      runClasses := rfl }

end Graph

/-- The second graph shows what the first one does without any marks of quantifiers. -/
structure Graph.Bares (g g' : Graph) : Prop where
  nodes : Forall₂ GraphNode.Marks g.nodes g'.nodes
  links : g.links = g'.links
  forks : g.forks = g'.forks
  merges : g.merges = g'.merges
  parentheses : g'.parentheses = []

namespace Expression

open RegexDiagram.Graph

variable {p p' : Layout.Places}

theorem ranked_id_bare (A : Expression) : Ranked id 0 A.bare.nodes :=
  eachFrom_of_mem (fun n hn i => by simp [(A.drawn_nodes_bare n hn).1]) 0

theorem linked_automaton (A : Expression) :
    ∀ i n, A.automaton.nodes[i]? = some n → A.automaton.Linked i n := by
  intro i n hn
  simpa using (eachFrom_iff ..).mp A.linked_nodes i n (by simpa [automaton] using hn)

theorem sketches_rank (A : Expression) :
    sketches A.automaton.rank A.automaton.nodes.toList = sketches id A.bare.nodes :=
  A.sketches_nodes (by simp [Automaton.rank]) A.automaton.ranked_rank

theorem outline_bare (A : Expression) :
    outline A.automaton.rank A.automaton = outline id A.bare.automaton := by
  rw [outline_eq (by simp [Automaton.rank]) A.automaton.ranked_rank, sketches_rank,
    outline_eq rfl A.ranked_id_bare]
  rfl

theorem renumbered_bare (A : Expression) (hp : Layout.Settled A.automaton p)
    (hp' : Layout.Settled A.bare.automaton p') :
    Renumbered A.automaton p p' A.automaton.rank := by
  have hplaces : (drawnNodes A.automaton).map (fun x => coordAt p x.2) = A.diagram.map (·.2) :=
    map_coordAt (A.shows_nodes hp).1
  have hplaces' : (drawnNodes A.bare.automaton).map (fun x => coordAt p' x.2) =
      A.bare.diagram.map (·.2) := map_coordAt (A.bare.shows_nodes hp').1
  have hnumbers := congrArg (List.map fun x => coordAt p' x.2) A.outline_bare
  simp only [outline, List.map_map, Function.comp_def, id_eq] at hnumbers
  rw [hplaces', A.diagram_bare, ← hplaces, List.map_inj_left] at hnumbers
  intro i hi
  obtain ⟨n, hn, hd⟩ := hi
  exact hnumbers (n, i) (mem_drawnNodes.mpr ⟨hn, hd⟩)

theorem draw_bare (A : Expression) (hp : Layout.Settled A.automaton p)
    (hp' : Layout.Settled A.bare.automaton p') :
    (draw A.automaton p).Bares (draw A.bare.automaton p') := by
  have hnumbers := A.renumbered_bare hp hp'
  have hsame : Renumbered A.bare.automaton p' p' id := fun _ _ => rfl
  have hmarks := marks_draw hnumbers
  have hdrawn (x : Node × Nat) (hx : x ∈ drawnNodes A.bare.automaton) :
      x.1.quantifier = none := by
    obtain ⟨hn, -⟩ := mem_drawnNodes.mp hx
    refine (A.drawn_nodes_bare x.1 (List.mem_of_getElem? (i := x.2) ?_)).2
    simpa [automaton] using hn
  rw [A.outline_bare] at hmarks
  refine ⟨?_, ?_, ?_, ?_, ?_⟩
  · have hnodes : (draw A.bare.automaton p').nodes =
        (outline id A.bare.automaton).map (unmarked p') := by
      rw [outline, List.map_map]
      refine List.map_congr_left fun x hx => ?_
      simp only [Node.classes, hdrawn x hx]
      rfl
    rwa [hnodes]
  · rw [links_draw hnumbers A.linked_automaton, links_draw hsame A.bare.linked_automaton,
      A.outline_bare]
  · rw [forks_draw hnumbers A.linked_automaton, forks_draw hsame A.bare.linked_automaton,
      A.outline_bare]
  · rw [merges_draw hnumbers A.linked_automaton, merges_draw hsame A.bare.linked_automaton,
      A.outline_bare]
  · rw [draw, List.filterMap_eq_nil_iff]
    intro x hx
    simp [Node.quantifiedClose?, hdrawn x hx]

theorem bares_bare (A : Expression) {g g' : Graph} (hg : Graph.ofAutomaton A.automaton = .ok g)
    (hg' : Graph.ofAutomaton A.bare.automaton = .ok g') : g.Bares g' := by
  obtain ⟨p, hp, -, -⟩ := Layout.ofAutomaton_automaton A
  obtain ⟨p', hp', -, -⟩ := Layout.ofAutomaton_automaton A.bare
  rw [draw_of_ofAutomaton hp hg, draw_of_ofAutomaton hp' hg']
  exact A.draw_bare (Layout.settled_automaton hp) (Layout.settled_automaton hp')

/-- The lines of a regex are the edges that it has without its quantifiers. -/
theorem line_iff_edge_bare (A : Expression) (x y : Nat) :
    A.automaton.Line x y ↔ A.bare.automaton.Edge x y := by
  have hsketches : lines 0 (sketches id A.bare.nodes) = lines 0 A.bare.nodes := by
    have hdrawn : A.bare.nodes.filter Node.isDrawn = A.bare.nodes :=
      List.filter_eq_self.mpr fun n hn => (A.drawn_nodes_bare n hn).1
    rw [sketches, hdrawn]
    simp [lines, pairs, List.zipIdx_map, List.flatMap_map, Node.sketch]
  rw [Automaton.line_iff A.linked_automaton, sketches_rank, hsketches, ← A.mem_edges_bare_iff,
    Automaton.edge_iff_mem_edges]
  rfl

end Expression

/-! ## Sources -/

theorem Piece.complete_of_finished {p : Piece} (h : p.isUnfinished = false) : p.complete = p := by
  cases p with
  | value v =>
    cases v with
    | bracket b =>
      have hclosed : b.closed = true := by simpa [isUnfinished] using h
      rw [complete, Value.complete, Bracket.complete, ← hclosed]
    | _ => rfl
  | _ => rfl

theorem Piece.legible_of_finished {cs : List Char} {p : Piece} (hp : p ∈ readAll cs)
    (h : p.isUnfinished = false) : p.Legible := by
  have hlegible := legible_complete hp (by rintro rfl; simp [isUnfinished] at h)
    (Bool.eq_false_iff.mpr fun hhollow => by simp [isUnfinished_of_isHollow hhollow] at h)
  rwa [complete_of_finished h] at hlegible

/-- A source without its quantifiers. -/
def unquantified (source : List Char) : List Char :=
  ((Piece.readAll source).filter (!·.isQuantifier)).flatMap Piece.text

theorem readAll_unquantified {source : List Char}
    (h : ∀ p ∈ Piece.readAll source, p.isUnfinished = false) :
    Piece.readAll (unquantified source) =
      (Piece.readAll source).filter (!·.isQuantifier) := by
  have hlegible : ∀ p ∈ (Piece.readAll source).filter (!·.isQuantifier), p.Legible := by
    intro p hp
    have hmem := (List.mem_filter.mp hp).1
    exact Piece.legible_of_finished hmem (h p hmem)
  simpa [unquantified, Piece.readAll] using Piece.readAll_flatMap_append hlegible []

theorem Automaton.edge_of_plain_eq {a b : Automaton} (h : a.plain = b.plain) (i j : Nat) :
    a.Edge i j ↔ b.Edge i j := by
  have hplain (a : Automaton) : a.plain.Edge i j ↔ a.Edge i j := by
    simp [Edge, plain, Node.plain]
  rw [← hplain a, h, hplain b]

theorem Token.map_plain_of_map_piece {ts us : List Token}
    (h : ts.map Token.piece = us.map Token.piece) : ts.map Token.plain = us.map Token.plain := by
  have hmap := congrArg (List.map fun p : Piece => Token.mk p.complete 0 0 none false false) h
  simp only [List.map_map] at hmap
  exact hmap

open Analysis in
theorem pieces_unquantified {source : List Char} {A : Expression}
    (h : ∀ p ∈ Piece.readAll source, p.isUnfinished = false)
    (hA : A.tokens = (ofSource source).tokens) :
    (ofSource (unquantified source)).tokens.map Token.piece = A.bare.tokens.map Token.piece := by
  calc (ofSource (unquantified source)).tokens.map Token.piece
    _ = (Piece.readAll source).filter (!·.isQuantifier) := by
      rw [pieces_ofSource, readAll_unquantified h]
    _ = (A.tokens.filter (!·.isQuantifier)).map Token.piece := by
      rw [← pieces_ofSource, ← hA, List.filter_map]
      rfl
    _ = A.bare.tokens.map Token.piece := by rw [A.tokens_bare]

open Analysis in
theorem validate_unquantified {source : List Char} {A : Expression}
    (h : ∀ p ∈ Piece.readAll source, p.isUnfinished = false)
    (hA : A.tokens = (ofSource source).tokens) :
    let b := ofSource (unquantified source)
    b.validate = some b ∧ b.findings = [] ∧ b.valid = b.tokens := by
  intro b
  have hpieces := pieces_unquantified h hA
  have hfindings : b.findings = [] := by
    rw [findings_ofSource_eq_nil_iff, readAll_unquantified h]
    exact fun p hp => h p (List.mem_filter.mp hp).1
  have hvalid := valid_ofSource hfindings
  have hderives : b.tokens = [] ∨ Derives .expr (b.tokens.map Token.piece) := by
    rw [← List.map_eq_nil_iff, hpieces]
    cases A.bare with
    | none => exact .inl rfl
    | some e => exact .inr e.derives
  exact ⟨validate_of_derives hderives hvalid fun t ht => (flags_of_mem_ofSource ht).1, hfindings,
    valid_eq_tokens hvalid⟩

/--
Quantifiers are invisible in the drawing of a regex that nothing is reported of. Without them it is
drawn in the same way, and the lines of its drawing are the edges of the automaton that it has then.
-/
theorem quantifiers_invisible (source : List Char) :
    ∃ c, compile source = .ok c ∧ (c.report = [] →
      ∃ d, compile (unquantified source) = .ok d ∧ d.report = [] ∧ c.graph.Bares d.graph ∧
        ∀ x y, c.automaton.Line x y ↔ d.automaton.Edge x y) := by
  obtain ⟨c, a, A, hc, ha, hthrough, hA, htokens, -⟩ := exists_stages source
  refine ⟨c, hc, fun hreport => ?_⟩
  rw [Compiled.report_eq_nil_iff, hthrough.findings] at hreport
  obtain ⟨hfindings, hsame⟩ := Analysis.tokens_of_silent ha hreport
  have hfinished := (Analysis.findings_ofSource_eq_nil_iff source).mp hfindings
  have hread : A.tokens = (Analysis.ofSource source).tokens := by
    rw [htokens, Analysis.valid_eq_tokens (hsame ▸ Analysis.valid_ofSource hfindings), hsame]
  obtain ⟨hvalidate, hsilent, hvalid⟩ := validate_unquantified hfinished hread
  obtain ⟨d, b, B, hd, hb, hthrough', hB, htokens', -⟩ := exists_stages (unquantified source)
  obtain rfl := Option.some.inj (hvalidate.symm.trans hb)
  have hplain : B.tokens.map Token.plain = A.bare.tokens.map Token.plain := by
    rw [htokens', hvalid]
    exact Token.map_plain_of_map_piece (pieces_unquantified hfinished hread)
  have heq := Expression.plain_automaton_eq hplain
  have hgraph := hthrough.graph
  have hgraph' := hthrough'.graph
  rw [hA.automaton] at hgraph
  rw [hB.automaton, ← Automaton.drawing_of_plain_eq heq] at hgraph'
  refine ⟨d, hd, ?_, A.bares_bare hgraph hgraph', fun x y => ?_⟩
  · rw [Compiled.report_eq_nil_iff, hthrough'.findings, hsilent]
  · rw [hA.automaton, hB.automaton, A.line_iff_edge_bare, Automaton.edge_of_plain_eq heq]

end RegexDiagram
