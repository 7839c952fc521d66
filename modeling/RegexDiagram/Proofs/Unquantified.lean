import RegexDiagram.Proofs.Bare
import RegexDiagram.Proofs.Resemblance

/-!
Quantifiers are invisible in the drawing. Without its quantifiers a regex is drawn in the same way,
up to the marks of quantifiers, and its automaton has an edge wherever a line is drawn: the lines of
a regex are the edges of the regex without its quantifiers.
-/
namespace RegexDiagram

/-! ## Lines and edges -/

/-- The pairs that nodes give rise to, if the first one is at `k`. -/
def pairs (f : Node → Nat → List (Nat × Nat)) (k : Nat) (ns : List Node) : List (Nat × Nat) :=
  (ns.zipIdx k).flatMap fun x => f x.1 x.2

/-- Where lines are drawn from and to. -/
def lines : Nat → List Node → List (Nat × Nat) := pairs fun n k => n.sources.map (·, k)

/-- Where edges lead from and to. -/
def edges : Nat → List Node → List (Nat × Nat) := pairs fun n k => n.targets.map (k, ·)

theorem pairs_append (f : Node → Nat → List (Nat × Nat)) (k : Nat) (xs ys : List Node) :
    pairs f k (xs ++ ys) = pairs f k xs ++ pairs f (k + xs.length) ys := by
  rw [pairs, List.zipIdx_append, List.flatMap_append]
  rfl

theorem lines_append (k : Nat) (xs ys : List Node) :
    lines k (xs ++ ys) = lines k xs ++ lines (k + xs.length) ys := pairs_append _ k xs ys

theorem edges_append (k : Nat) (xs ys : List Node) :
    edges k (xs ++ ys) = edges k xs ++ edges (k + xs.length) ys := pairs_append _ k xs ys

theorem mem_pairs_iff {f : Node → Nat → List (Nat × Nat)} {k : Nat} {ns : List Node}
    {z : Nat × Nat} : z ∈ pairs f k ns ↔ ∃ i n, ns[i]? = some n ∧ z ∈ f n (k + i) := by
  rw [pairs, List.mem_flatMap]
  constructor
  · intro h
    obtain ⟨⟨n, j⟩, hn, hz⟩ := h
    obtain ⟨hj, hn⟩ := List.mk_mem_zipIdx_iff_le_and_getElem?_sub.mp hn
    exact ⟨j - k, n, hn, by rwa [Nat.add_sub_cancel' hj]⟩
  · intro h
    obtain ⟨i, n, hn, hz⟩ := h
    exact ⟨(n, k + i), List.mk_add_mem_zipIdx_iff_getElem?.mpr hn, hz⟩

theorem mem_edges_iff {k x y : Nat} {ns : List Node} :
    (x, y) ∈ edges k ns ↔ ∃ i n, ns[i]? = some n ∧ x = k + i ∧ y ∈ n.targets := by
  simp [edges, mem_pairs_iff, eq_comm, and_comm]

/-- The edges among nodes and to their entries are the lines among them and behind their exits. -/
def Transposed (k : Nat) (ns : List Node) (sources entries exits targets : List Nat) : Prop :=
  ∀ x y, (x, y) ∈ edges k ns ∨ x ∈ sources ∧ y ∈ entries ↔
    (x, y) ∈ lines k ns ∨ x ∈ exits ∧ y ∈ targets

namespace Transposed

variable {k : Nat} {ns ms : List Node} {sources entries exits targets : List Nat}

theorem single {n : Node} (k : Nat) (targets : List Nat) (h : n.next = targets.map some) :
    Transposed k [n] n.sources [k] [k] targets := by
  intro x y
  have htargets : n.targets = targets := by
    rw [Node.targets, h, List.filterMap_map]
    simp
  simp only [edges, lines, pairs, htargets, List.zipIdx_singleton, List.flatMap_singleton,
    List.mem_map, Prod.mk.injEq, List.mem_singleton]
  grind

theorem append {middle joints : List Nat} (hn : Transposed k ns sources entries middle joints)
    (hm : Transposed (k + ns.length) ms middle joints exits targets) :
    Transposed k (ns ++ ms) sources entries exits targets := by
  intro x y
  have hn := hn x y
  have hm := hm x y
  rw [edges_append, lines_append, List.mem_append, List.mem_append]
  grind

theorem beside {entries' exits' : List Nat} (hn : Transposed k ns sources entries exits targets)
    (hm : Transposed (k + ns.length) ms sources entries' exits' targets) :
    Transposed k (ns ++ ms) sources (entries ++ entries') (exits ++ exits') targets := by
  intro x y
  have hn := hn x y
  have hm := hm x y
  rw [edges_append, lines_append, List.mem_append, List.mem_append, List.mem_append,
    List.mem_append]
  grind

end Transposed

namespace Tree

variable {l : Precedence} {k : Nat} {exit : List Nat} {i : Inlet} {q : Option Quantifier}

def Unquantified (t : Tree l) : Prop := ∀ u ∈ t.tokens, u.isQuantifier = false

theorem not_unquantified (a : Tree .atom) (t : Token) (q' : Quantifier)
    (ht : t.piece = .quantifier q') (hl : l ≠ .atom) :
    ¬(quantified a t q' ht hl : Tree l).Unquantified := by
  intro h
  have hq := h t (by simp [tokens])
  simp [isQuantifier_of_piece ht, Piece.isQuantifier] at hq

theorem unquantified_group {opening closing : Token} {ho : opening.piece = .groupOpen}
    {hc : closing.piece = .groupClose} {body : Tree .expr}
    (h : (group opening closing ho hc body : Tree l).Unquantified) : body.Unquantified :=
  fun u hu => h u (by simp [tokens, hu])

theorem unquantified_concat {f : Tree .term} {g : Tree .factor} {hl : l = .term ∨ l = .expr}
    (h : (concat f g hl).Unquantified) : f.Unquantified ∧ g.Unquantified :=
  ⟨fun u hu => h u (by simp [tokens, hu]), fun u hu => h u (by simp [tokens, hu])⟩

theorem unquantified_alternation {e : Tree .expr} {t : Token} {ht : t.piece = .alternation}
    {g : Tree .term} (h : (alternation e t ht g).Unquantified) :
    e.Unquantified ∧ g.Unquantified :=
  ⟨fun u hu => h u (by simp [tokens, hu]), fun u hu => h u (by simp [tokens, hu])⟩

theorem unquantified_bare (t : Tree l) : t.bare.Unquantified := by
  intro u hu
  rw [tokens_bare] at hu
  simpa using (List.mem_filter.mp hu).2

theorem terminals_eq_drawnExits (t : Tree l) (ht : t.Unquantified) (k : Nat) :
    t.terminals k = t.drawnExits k := by
  induction t generalizing k with
  | value => rfl
  | group => rfl
  | quantified a t q' hq hl _ => exact absurd ht (not_unquantified a t q' hq hl)
  | concat f g hl _ ihg => exact ihg (unquantified_concat ht).2 _
  | alternation e t _ g ihe ihg =>
    obtain ⟨he, hg⟩ := unquantified_alternation ht
    rw [terminals, drawnExits, ihe he, ihg hg]

theorem transposed_nodes_of (t : Tree l)
    (h : ∀ k i, Transposed k (t.branchNodes k exit i q) i.sources (t.entries k) (t.terminals k)
      exit) :
    Transposed k (t.nodes k exit i q) i.sources [k] (t.terminals (k + t.forkSize)) exit := by
  cases hc : t.isChoice with
  | false =>
    rw [t.nodes_of_not_isChoice hc, t.forkSize_of_not_isChoice hc, ← (t.single_branch hc k).1]
    exact h k i
  | true =>
    cases t with
    | alternation e t ht g => exact .append (.single k _ rfl) (h _ _)
    | _ => simp [isChoice] at hc

/-- Without quantifiers there is an edge for each line. -/
theorem transposed_branchNodes (t : Tree l) (ht : t.Unquantified) :
    Transposed k (t.branchNodes k exit i q) i.sources (t.entries k) (t.terminals k) exit := by
  induction t generalizing k exit i q with
  | value t v hv => exact .single k exit rfl
  | group opening closing ho hc body ih =>
    have hbody := unquantified_group ht
    have hlevel : Transposed (k + 1) (body.nodes (k + 1) [k + 1 + body.size] ⟨[k], none⟩ none) [k]
        [k + 1] (body.drawnExits (k + 1 + body.forkSize)) [k + 1 + body.size] := by
      rw [← body.terminals_eq_drawnExits hbody]
      exact body.transposed_nodes_of fun _ _ => ih hbody
    have hopening : Transposed k [opener opening k body.size i q] i.sources [k] [k] [k + 1] :=
      .single k _ rfl
    rw [branchNodes_group]
    refine hopening.append (hlevel.append ?_)
    rw [length_nodes]
    exact .single _ exit rfl
  | quantified a t q' hq hl _ => exact absurd ht (not_unquantified a t q' hq hl)
  | concat f g hl ihf ihg =>
    obtain ⟨hf, hg⟩ := unquantified_concat ht
    have hleft : Transposed k (f.branchNodes k [k + f.branchSize] i none) i.sources [k]
        (f.drawnExits k) [k + f.branchSize] := by
      rw [← (f.single_branch (f.isChoice_of_ne (by simp)) k).1, ← f.terminals_eq_drawnExits hf]
      exact ihf hf
    have hright := @ihg (k + f.branchSize) exit ⟨f.drawnExits k, none⟩ none hg
    rw [(g.single_branch (g.isChoice_of_ne (by simp)) _).1] at hright
    refine hleft.append ?_
    rw [length_branchNodes]
    exact hright
  | alternation e t _ g ihe ihg =>
    obtain ⟨he, hg⟩ := unquantified_alternation ht
    have hright := @ihg (k + e.branchSize) exit { i with branch := some e.branchCount } none hg
    rw [(g.single_branch (g.isChoice_of_ne (by simp)) _).1] at hright
    refine (ihe he).beside ?_
    rw [length_branchNodes]
    exact hright

theorem drawn_nodes_of (t : Tree l)
    (h : ∀ k i, ∀ n ∈ t.branchNodes k exit i none, n.isDrawn = true ∧ n.quantifier = none) :
    ∀ n ∈ t.nodes k exit i none, n.isDrawn = true ∧ n.quantifier = none := by
  rw [nodes, List.forall_mem_append]
  refine ⟨?_, h _ _⟩
  cases t with
  | alternation e t ht g => exact List.forall_mem_singleton.mpr ⟨isDrawn_of_piece ht rfl, rfl⟩
  | _ => simp [forkNodes]

theorem drawn_branchNodes (t : Tree l) (ht : t.Unquantified) :
    ∀ n ∈ t.branchNodes k exit i none, n.isDrawn = true ∧ n.quantifier = none := by
  induction t generalizing k exit i with
  | value t v hv => exact List.forall_mem_singleton.mpr ⟨isDrawn_of_piece hv rfl, rfl⟩
  | group opening closing ho hc body ih =>
    rw [branchNodes_group, List.forall_mem_cons, List.forall_mem_append, List.forall_mem_singleton]
    exact ⟨⟨isDrawn_of_piece ho rfl, rfl⟩,
      body.drawn_nodes_of fun _ _ => ih (unquantified_group ht), rfl, rfl⟩
  | quantified a t q' hq hl _ => exact absurd ht (not_unquantified a t q' hq hl)
  | concat f g hl ihf ihg =>
    obtain ⟨hf, hg⟩ := unquantified_concat ht
    exact List.forall_mem_append.mpr ⟨ihf hf, ihg hg⟩
  | alternation e t _ g ihe ihg =>
    obtain ⟨he, hg⟩ := unquantified_alternation ht
    exact List.forall_mem_append.mpr ⟨ihe he, ihg hg⟩

end Tree

namespace Expression

/-- The regex without its quantifiers. -/
def bare (A : Expression) : Expression := A.map Tree.bare

theorem tokens_bare (A : Expression) : A.bare.tokens = A.tokens.filter (!·.isQuantifier) := by
  cases A with
  | none => rfl
  | some e => exact e.tokens_bare

theorem diagram_bare (A : Expression) : A.bare.diagram = A.diagram := by
  cases A with
  | none => rfl
  | some e =>
    simp only [bare, Option.map_some, diagram, e.diagram_bare, e.exitColumn_bare]

theorem drawn_nodes_bare (A : Expression) :
    ∀ n ∈ A.bare.nodes, n.isDrawn = true ∧ n.quantifier = none := by
  cases A with
  | none =>
    show ∀ n ∈ nodes none, n.isDrawn = true ∧ n.quantifier = none
    simp [nodes, Node.isDrawn]
  | some e =>
    show ∀ n ∈ nodes (some e.bare), n.isDrawn = true ∧ n.quantifier = none
    rw [nodes, List.forall_mem_append, List.forall_mem_cons, List.forall_mem_singleton]
    refine ⟨⟨⟨rfl, rfl⟩, ?_⟩, rfl, rfl⟩
    exact e.bare.drawn_nodes_of fun _ _ => e.bare.drawn_branchNodes e.unquantified_bare

theorem transposed_nodes_bare (A : Expression) :
    ∃ m, Transposed 0 A.bare.nodes [] [0] [m] [] := by
  have hfirst : Transposed 0 [{ kind := .first, next := [some 1] }] [] [0] [0] [1] :=
    .single 0 [1] rfl
  cases A with
  | none =>
    refine ⟨1, hfirst.append ?_⟩
    exact .single 1 [] rfl
  | some e =>
    have htree : Transposed 1 (e.bare.nodes 1 [1 + e.bare.size] ⟨[0], none⟩ none) [0] [1]
        (e.bare.drawnExits (1 + e.bare.forkSize)) [1 + e.bare.size] := by
      rw [← e.bare.terminals_eq_drawnExits e.unquantified_bare]
      exact e.bare.transposed_nodes_of fun _ _ => e.bare.transposed_branchNodes e.unquantified_bare
    refine ⟨1 + e.bare.size, (hfirst.append htree).append ?_⟩
    rw [List.length_append, List.length_singleton, Tree.length_nodes, Nat.zero_add]
    exact .single _ [] rfl

theorem mem_edges_bare_iff (A : Expression) (x y : Nat) :
    (x, y) ∈ edges 0 A.bare.nodes ↔ (x, y) ∈ lines 0 A.bare.nodes := by
  obtain ⟨m, h⟩ := A.transposed_nodes_bare
  simpa using h x y

/-- The drawn nodes have the sketches of the nodes that there are without quantifiers. -/
theorem sketches_nodes (A : Expression) {ρ : Nat → Nat} (h0 : ρ 0 = 0)
    (h : Ranked ρ 0 A.nodes) : sketches ρ A.nodes = sketches id A.bare.nodes := by
  cases A with
  | none => exact sketches_cons rfl rfl rfl (sketches_cons rfl rfl (by simp [Node.sketch, h0]) rfl)
  | some e =>
    obtain ⟨hfirst, htree, -⟩ := (eachFrom_some _ e).mp h
    obtain ⟨hfork, hbranches⟩ := (eachFrom_nodes ..).mp htree
    have hone : ρ 1 = 1 := by simpa [h0, Node.isDrawn] using hfirst
    have hexits := e.map_drawnExits_bare hbranches
    rw [e.rank_forkNodes hfork, hone] at hexits
    have hlevel : sketches ρ (e.nodes 1 [1 + e.size] ⟨[0], none⟩ none) =
        sketches id (e.bare.nodes 1 [1 + e.bare.size] ⟨[0], none⟩ none) := by
      rw [e.sketches_nodes_of (fun h => e.sketches_branchNodes h) htree, hone, Inlet.rename,
        List.map_singleton, h0]
    have hlast : sketches ρ [{ kind := .last, sources := e.drawnExits (1 + e.forkSize) }] =
        sketches id [{ kind := .last, sources := e.bare.drawnExits (1 + e.bare.forkSize) }] := by
      refine sketches_cons rfl rfl ?_ rfl
      simp only [Node.sketch, hexits, List.map_id, Tree.forkSize_bare]
      rfl
    rw [bare, Option.map_some, nodes, nodes, sketches_append, sketches_append, hlast]
    exact congrArg (· ++ _) (sketches_cons rfl rfl rfl hlevel)

end Expression
end RegexDiagram
