import RegexDiagram.Proofs.Drawing

/-!
Trees without their quantifiers. Quantifier nodes are not drawn, so that in the automaton of a bare
tree nodes are numbered as the drawn nodes of the tree are. What is drawn at a node, and which nodes
lines come from, is the same in both.
-/
namespace RegexDiagram

namespace Tree

variable {l : Precedence}

theorem atom_cases {motive : Tree .atom → Prop} (a : Tree .atom)
    (value : ∀ t v ht, motive (.value t v ht))
    (group : ∀ opening closing ho hc body, motive (.group opening closing ho hc body)) :
    motive a := by
  cases a with
  | value t v ht => exact value t v ht
  | group opening closing ho hc body => exact group opening closing ho hc body
  | quantified a t q ht hl => exact absurd rfl hl
  | concat f g hl => simp at hl

theorem atom_not_concat : ¬(Precedence.atom = .term ∨ Precedence.atom = .expr) := by
  simp

/-- An atom as a tree of any precedence. -/
def raise : Tree .atom → Tree l
  | value t v ht => value t v ht
  | group opening closing ho hc body => group opening closing ho hc body
  | quantified _ _ _ _ hl => absurd rfl hl
  | concat _ _ hl => absurd hl atom_not_concat

/-- The tree without its quantifiers. -/
def bare : {l : Precedence} → Tree l → Tree l
  | _, value t v ht => value t v ht
  | _, group opening closing ho hc body => group opening closing ho hc body.bare
  | _, quantified a _ _ _ _ => a.bare.raise
  | _, concat f g hl => concat f.bare g.bare hl
  | _, alternation e t ht g => alternation e.bare t ht g.bare

section Equations

variable {opening closing t : Token} {q : Quantifier}

@[simp] theorem bare_value {v : Value} (ht : t.piece = .value v) :
    (value t v ht : Tree l).bare = value t v ht := rfl

@[simp] theorem bare_group (ho : opening.piece = .groupOpen) (hc : closing.piece = .groupClose)
    (body : Tree .expr) :
    (group opening closing ho hc body : Tree l).bare = group opening closing ho hc body.bare := rfl

@[simp] theorem bare_quantified (a : Tree .atom) (ht : t.piece = .quantifier q) (hl : l ≠ .atom) :
    (quantified a t q ht hl).bare = a.bare.raise := rfl

@[simp] theorem bare_concat (f : Tree .term) (g : Tree .factor) (hl : l = .term ∨ l = .expr) :
    (concat f g hl).bare = concat f.bare g.bare hl := rfl

@[simp] theorem bare_alternation (e : Tree .expr) (ht : t.piece = .alternation) (g : Tree .term) :
    (alternation e t ht g).bare = alternation e.bare t ht g.bare := rfl

end Equations

@[simp] theorem tokens_raise (a : Tree .atom) : (a.raise : Tree l).tokens = a.tokens := by
  cases a using atom_cases <;> rfl

@[simp] theorem isChoice_raise (a : Tree .atom) : (a.raise : Tree l).isChoice = false := by
  cases a using atom_cases <;> rfl

@[simp] theorem branchSize_raise (a : Tree .atom) :
    (a.raise : Tree l).branchSize = a.branchSize := by
  cases a using atom_cases <;> rfl

@[simp] theorem lead_raise (a : Tree .atom) : (a.raise : Tree l).lead = 0 := by
  cases a using atom_cases <;> rfl

@[simp] theorem branchCount_raise (a : Tree .atom) : (a.raise : Tree l).branchCount = 1 := by
  cases a using atom_cases <;> rfl

@[simp] theorem drawnExits_raise (a : Tree .atom) (k : Nat) :
    (a.raise : Tree l).drawnExits k = a.drawnExits k := by
  cases a using atom_cases <;> rfl

@[simp] theorem height_raise (a : Tree .atom) : (a.raise : Tree l).height = a.height := by
  cases a using atom_cases <;> rfl

@[simp] theorem exitColumn_raise (a : Tree .atom) (x : Int) :
    (a.raise : Tree l).exitColumn x = a.exitColumn x := by
  cases a using atom_cases <;> rfl

@[simp] theorem marks_raise (a : Tree .atom) (x : Int) (row : Nat → Rat) :
    (a.raise : Tree l).marks x row = a.marks x row := by
  cases a using atom_cases <;> rfl

@[simp] theorem branchNodes_raise (a : Tree .atom) (k : Nat) (exit : List Nat) (i : Inlet)
    (q : Option Quantifier) :
    (a.raise : Tree l).branchNodes k exit i q = a.branchNodes k exit i q := by
  cases a using atom_cases <;> rfl

/-! ## Bare trees -/

theorem isQuantifier_of_piece {t : Token} {p : Piece} (h : t.piece = p) :
    t.isQuantifier = p.isQuantifier := by
  rw [Token.isQuantifier, h]

theorem tokens_bare (t : Tree l) : t.bare.tokens = t.tokens.filter (!·.isQuantifier) := by
  induction t with
  | value t v ht => simp [tokens, isQuantifier_of_piece ht, Piece.isQuantifier]
  | group opening closing ho hc body ih =>
    simp [tokens, ih, isQuantifier_of_piece ho, isQuantifier_of_piece hc, Piece.isQuantifier]
  | quantified a t q ht hl ih =>
    simp [tokens, ih, isQuantifier_of_piece ht, Piece.isQuantifier]
  | concat f g hl ihf ihg => simp [tokens, ihf, ihg]
  | alternation e t ht g ihe ihg =>
    simp [tokens, ihe, ihg, isQuantifier_of_piece ht, Piece.isQuantifier]

@[simp] theorem isChoice_bare (t : Tree l) : t.bare.isChoice = t.isChoice := by
  cases t with
  | quantified => exact isChoice_raise _
  | _ => rfl

@[simp] theorem forkSize_bare (t : Tree l) : t.bare.forkSize = t.forkSize := by
  rw [forkSize, isChoice_bare, forkSize]

@[simp] theorem branchCount_bare (t : Tree l) : t.bare.branchCount = t.branchCount := by
  induction t with
  | quantified => exact branchCount_raise _
  | alternation e t ht g ihe _ => simp [branchCount, ihe]
  | _ => rfl

@[simp] theorem lead_bare (t : Tree l) : t.bare.lead = 0 := by
  induction t with
  | quantified => exact lead_raise _
  | concat f g hl ihf _ => exact ihf
  | _ => rfl

@[simp] theorem height_bare (t : Tree l) : t.bare.height = t.height := by
  induction t with
  | value => rfl
  | _ => simp_all [height]

@[simp] theorem heights_bare (t : Tree l) : t.bare.heights = t.heights := by
  induction t with
  | alternation e t ht g ihe _ => simp [heights, ihe]
  | _ =>
    rw [(single_branch _ (by rw [isChoice_bare]; rfl) 0).2.2.1, height_bare]
    rfl

/-! ## The diagram -/

@[simp] theorem exitColumn_bare (t : Tree l) (x : Int) : t.bare.exitColumn x = t.exitColumn x := by
  induction t generalizing x with
  | value => rfl
  | _ => simp_all [exitColumn]

theorem forkMark_bare (t : Tree l) (x : Int) (y : Rat) : t.bare.forkMark x y = t.forkMark x y := by
  cases t with
  | quantified => exact forkMark_of_not_isChoice _ (isChoice_raise _) x y
  | _ => rfl

theorem rows_bare (t : Tree l) (y : Rat) : t.bare.rows y = t.rows y := by
  funext b
  simp only [rows, isChoice_bare, heights_bare]

theorem marks_bare (t : Tree l) (x : Int) (row : Nat → Rat) :
    t.bare.marks x row = t.marks x row := by
  induction t generalizing x row with
  | value => rfl
  | group opening closing ho hc body ih => simp [bare, marks, ih, forkMark_bare, rows_bare]
  | _ => simp_all [marks]

theorem diagram_bare (t : Tree l) (x : Int) (y : Rat) : t.bare.diagram x y = t.diagram x y := by
  rw [diagram_eq_levelMarks, diagram_eq_levelMarks, levelMarks, forkMark_bare, marks_bare,
    rows_bare, levelMarks]

end Tree

/-! ## Numbers of drawn nodes -/

/-- `ρ` numbers the drawn nodes on the way through `ns`, the first of which is at `k`. -/
def Ranked (ρ : Nat → Nat) (k : Nat) (ns : List Node) : Prop :=
  EachFrom (fun j n => ρ (j + 1) = if n.isDrawn then ρ j + 1 else ρ j) k ns

/-- What the drawing takes from a node, with the nodes that it refers to numbered anew. -/
def Node.sketch (ρ : Nat → Nat) (n : Node) : Node where
  kind := n.kind
  sources := n.sources.map ρ
  fork := n.fork.map fun f => { f with branches := f.branches.map ρ }
  branch := n.branch

/-- The sketches of the drawn nodes. -/
def sketches (ρ : Nat → Nat) (ns : List Node) : List Node :=
  (ns.filter Node.isDrawn).map (Node.sketch ρ)

theorem ranked_append {ρ : Nat → Nat} {k : Nat} {xs ys : List Node} :
    Ranked ρ k (xs ++ ys) ↔ Ranked ρ k xs ∧ Ranked ρ (k + xs.length) ys :=
  eachFrom_append _ k xs ys

theorem sketches_append (ρ : Nat → Nat) (xs ys : List Node) :
    sketches ρ (xs ++ ys) = sketches ρ xs ++ sketches ρ ys := by
  simp only [sketches, List.filter_append, List.map_append]

theorem sketches_cons {ρ : Nat → Nat} {n m : Node} {ns ms : List Node} (hn : n.isDrawn = true)
    (hm : m.isDrawn = true) (h : n.sketch ρ = m.sketch id)
    (hs : sketches ρ ns = sketches id ms) : sketches ρ (n :: ns) = sketches id (m :: ms) := by
  simp only [sketches, List.filter_cons, hn, hm, if_true, List.map_cons, h] at hs ⊢
  rw [hs]

theorem rank_of_not_isDrawn {ρ : Nat → Nat} {k : Nat} {ns : List Node} (h : Ranked ρ k ns)
    (hns : ∀ n ∈ ns, n.isDrawn = false) : ρ (k + ns.length) = ρ k := by
  induction ns generalizing k with
  | nil => rfl
  | cons n ns ih =>
    obtain ⟨hn, hns⟩ := List.forall_mem_cons.mp hns
    obtain ⟨hk, h⟩ := h
    rw [hn] at hk
    rw [List.length_cons, Nat.add_comm ns.length, ← Nat.add_assoc, ih h hns]
    exact hk

theorem sketches_of_not_isDrawn (ρ : Nat → Nat) {ns : List Node}
    (hns : ∀ n ∈ ns, n.isDrawn = false) : sketches ρ ns = [] := by
  rw [sketches, List.map_eq_nil_iff, List.filter_eq_nil_iff]
  intro n hn
  simp [hns n hn]

namespace Tree

variable {l : Precedence} {ρ : Nat → Nat} {k : Nat} {exit : List Nat} {i : Inlet}
  {q : Option Quantifier}

theorem isDrawn_of_piece {t : Token} {n : Node} {p : Piece} (ht : t.piece = p)
    (hn : n.kind = (Node.ofToken t).kind) : n.isDrawn = !p.isQuantifier := by
  cases p <;> simp [Node.isDrawn, hn, Node.ofToken, ht, Piece.isQuantifier]

/-- A quantifier puts a node in front of an atom or behind it that is not drawn. -/
theorem branchNodes_quantified (a : Tree .atom) (t : Token) (q' : Quantifier)
    (ht : t.piece = .quantifier q') (hl : l ≠ .atom) (k : Nat) (exit : List Nat) (i : Inlet)
    (q : Option Quantifier) :
    ∃ before exit' behind, (quantified a t q' ht hl : Tree l).branchNodes k exit i q =
        before ++ (a.branchNodes (k + before.length) exit' i (some q') ++ behind) ∧
      (∀ n ∈ before, n.isDrawn = false) ∧ (∀ n ∈ behind, n.isDrawn = false) ∧
      (quantified a t q' ht hl : Tree l).lead = before.length ∧
      (quantified a t q' ht hl : Tree l).branchSize =
        before.length + (a.branchSize + behind.length) ∧
      (quantified a t q' ht hl : Tree l).drawnExits k = a.drawnExits (k + before.length) := by
  have hskip (next : List (Option Nat)) :
      ({ Node.ofToken t with next := next } : Node).isDrawn = false := isDrawn_of_piece ht rfl
  cases q' with
  | plus => exact ⟨[], _, [_], rfl, by simp, by simpa using hskip _, rfl, by simp [branchSize], rfl⟩
  | _ =>
    refine ⟨[_], _, [], (by rw [List.append_nil]; rfl), by simpa using hskip _, by simp, rfl, ?_,
      rfl⟩
    simp [branchSize, Nat.add_comm]

theorem rank_forkNodes (t : Tree l) (h : Ranked ρ k (t.forkNodes k i)) :
    ρ (k + t.forkSize) = ρ k + t.forkSize := by
  cases t with
  | alternation e t ht g => exact h.1.trans (if_pos (isDrawn_of_piece ht rfl))
  | _ => rfl

/-- Behind a tree as many drawn nodes have been numbered as its bare tree has nodes. -/
theorem rank_branchNodes (t : Tree l) (h : Ranked ρ k (t.branchNodes k exit i q)) :
    ρ (k + t.branchSize) = ρ k + t.bare.branchSize := by
  induction t generalizing k exit i q with
  | value t v ht => exact h.1.trans (if_pos (isDrawn_of_piece ht rfl))
  | group opening closing ho hc body ih =>
    obtain ⟨hopen, hbody, hclose⟩ := (eachFrom_group ..).mp h
    obtain ⟨hfork, hbranches⟩ := (eachFrom_nodes ..).mp hbody
    have hopen : ρ (k + 1) = ρ k + 1 := hopen.trans (if_pos (isDrawn_of_piece ho rfl))
    have hfork := body.rank_forkNodes hfork
    have hbranches := ih hbranches
    calc ρ (k + (1 + (body.forkSize + body.branchSize) + 1))
      _ = ρ (k + 1 + body.size) + 1 := by
        rw [← Nat.add_assoc, ← Nat.add_assoc]
        exact hclose
      _ = ρ k + (1 + (body.bare.forkSize + body.bare.branchSize) + 1) := by
        rw [size, ← Nat.add_assoc, hbranches, hfork, hopen, forkSize_bare]
        omega
  | quantified a t q' ht hl ih =>
    obtain ⟨before, exit', behind, hnodes, hbefore, hbehind, -, hsize, -⟩ :=
      branchNodes_quantified a t q' ht hl k exit i q
    rw [hnodes, ranked_append, ranked_append, length_branchNodes] at h
    obtain ⟨hfront, hatom, hback⟩ := h
    rw [hsize, ← Nat.add_assoc, ← Nat.add_assoc, rank_of_not_isDrawn hback hbehind,
      ih hatom, rank_of_not_isDrawn hfront hbefore, bare_quantified, branchSize_raise]
  | concat f g hl ihf ihg =>
    rw [branchNodes, ranked_append, length_branchNodes] at h
    rw [branchSize, ← Nat.add_assoc, ihg h.2, ihf h.1, bare_concat, branchSize, Nat.add_assoc]
  | alternation e t ht g ihe ihg =>
    rw [branchNodes, ranked_append, length_branchNodes] at h
    rw [branchSize, ← Nat.add_assoc, ihg h.2, ihe h.1, bare_alternation, branchSize, Nat.add_assoc]

/-- No drawn node stands in front of the start of a tree in the drawing. -/
theorem rank_lead (t : Tree l) (h : Ranked ρ k (t.branchNodes k exit i q)) :
    ρ (k + t.lead) = ρ k := by
  induction t generalizing k exit i q with
  | quantified a t q' ht hl _ =>
    obtain ⟨before, exit', behind, hnodes, hbefore, -, hlead, -, -⟩ :=
      branchNodes_quantified a t q' ht hl k exit i q
    rw [hnodes, ranked_append] at h
    rw [hlead, rank_of_not_isDrawn h.1 hbefore]
  | concat f g hl ihf _ =>
    rw [branchNodes, ranked_append] at h
    exact ihf h.1
  | _ => rfl

theorem rank_group {opening closing : Token} (ho : opening.piece = .groupOpen)
    (hc : closing.piece = .groupClose) (body : Tree .expr)
    (h : Ranked ρ k ((group opening closing ho hc body : Tree l).branchNodes k exit i q)) :
    ρ (k + 1) = ρ k + 1 ∧ ρ (k + 1 + body.forkSize) = ρ k + 1 + body.bare.forkSize ∧
      ρ (k + 1 + body.size) = ρ k + 1 + body.bare.size := by
  obtain ⟨hopen, hbody, -⟩ := (eachFrom_group ..).mp h
  obtain ⟨hfork, hbranches⟩ := (eachFrom_nodes ..).mp hbody
  have hopen : ρ (k + 1) = ρ k + 1 := hopen.trans (if_pos (isDrawn_of_piece ho rfl))
  have hfork : ρ (k + 1 + body.forkSize) = ρ k + 1 + body.bare.forkSize := by
    rw [body.rank_forkNodes hfork, hopen, forkSize_bare]
  refine ⟨hopen, hfork, ?_⟩
  rw [size, ← Nat.add_assoc, body.rank_branchNodes hbranches, hfork, size, Nat.add_assoc]

theorem map_drawnEntries_single (t : Tree l) (ht : t.isChoice = false)
    (h : Ranked ρ k (t.branchNodes k exit i q)) :
    (t.drawnEntries k).map ρ = t.bare.drawnEntries (ρ k) := by
  have hbare : t.bare.isChoice = false := by rw [isChoice_bare, ht]
  rw [(t.single_branch ht k).2.1, (t.bare.single_branch hbare (ρ k)).2.1, lead_bare,
    List.map_singleton, t.rank_lead h, Nat.add_zero]

theorem map_drawnEntries_bare (t : Tree l) (h : Ranked ρ k (t.branchNodes k exit i q)) :
    (t.drawnEntries k).map ρ = t.bare.drawnEntries (ρ k) := by
  induction t generalizing k exit i q with
  | alternation e t ht g ihe _ =>
    rw [branchNodes, ranked_append, length_branchNodes] at h
    rw [drawnEntries, List.map_append, ihe h.1, bare, drawnEntries, lead_bare, Nat.add_zero,
      List.map_singleton, g.rank_lead h.2, e.rank_branchNodes h.1]
  | _ => exact map_drawnEntries_single _ rfl h

theorem map_drawnExits_bare (t : Tree l) (h : Ranked ρ k (t.branchNodes k exit i q)) :
    (t.drawnExits k).map ρ = t.bare.drawnExits (ρ k) := by
  induction t generalizing k exit i q with
  | value => rfl
  | group opening closing ho hc body _ =>
    exact congrArg (fun x => [x]) (rank_group ho hc body h).2.2
  | quantified a t q' ht hl ih =>
    obtain ⟨before, exit', behind, hnodes, hbefore, -, -, -, hexits⟩ :=
      branchNodes_quantified a t q' ht hl k exit i q
    rw [hnodes, ranked_append, ranked_append] at h
    rw [hexits, ih h.2.1, rank_of_not_isDrawn h.1 hbefore, bare_quantified, drawnExits_raise]
  | concat f g hl ihf ihg =>
    rw [branchNodes, ranked_append, length_branchNodes] at h
    rw [drawnExits, ihg h.2, f.rank_branchNodes h.1, bare_concat, drawnExits]
  | alternation e t ht g ihe ihg =>
    rw [branchNodes, ranked_append, length_branchNodes] at h
    rw [drawnExits, List.map_append, ihe h.1, ihg h.2, e.rank_branchNodes h.1, bare_alternation,
      drawnExits]

end Tree

/-! ## Sketches -/

/-- The inlet with the nodes that it refers to numbered anew. -/
def Inlet.rename (ρ : Nat → Nat) (i : Inlet) : Inlet := { i with sources := i.sources.map ρ }

namespace Tree

variable {l : Precedence} {ρ : Nat → Nat} {k : Nat} {exit exit' : List Nat} {i : Inlet}
  {q q' : Option Quantifier}

theorem branchInlet_bare (t : Tree l) (k : Nat) (i : Inlet) :
    t.bare.branchInlet (ρ k) (i.rename ρ) = (t.branchInlet k i).rename ρ := by
  rw [branchInlet, branchInlet, isChoice_bare]
  split <;> rfl

theorem forkNodes_of_not_isChoice (t : Tree l) (ht : t.isChoice = false) (k : Nat) (i : Inlet) :
    t.forkNodes k i = [] := by
  cases t with
  | alternation => simp [isChoice] at ht
  | _ => rfl

theorem sketches_forkNodes (t : Tree l) (hfork : Ranked ρ k (t.forkNodes k i))
    (hbranches : Ranked ρ (k + t.forkSize)
      (t.branchNodes (k + t.forkSize) exit (t.branchInlet k i) q)) :
    sketches ρ (t.forkNodes k i) = sketches id (t.bare.forkNodes (ρ k) (i.rename ρ)) := by
  cases hc : t.isChoice with
  | false =>
    rw [t.forkNodes_of_not_isChoice hc,
      t.bare.forkNodes_of_not_isChoice (by rw [isChoice_bare, hc])]
    rfl
  | true =>
    have hentries := map_drawnEntries_bare _ hbranches
    have hheights := t.heights_bare
    rw [t.rank_forkNodes hfork, forkSize, hc, if_pos rfl] at hentries
    cases t with
    | alternation e t ht g =>
      have hd {n : Node} (hn : n.kind = (Node.ofToken t).kind) : n.isDrawn = true :=
        isDrawn_of_piece ht hn
      rw [bare_alternation] at hentries hheights ⊢
      refine sketches_cons (hd rfl) (hd rfl) ?_ rfl
      simp only [Node.sketch, Inlet.rename, List.map_id, Option.map_some, hheights, ← hentries]
    | _ => simp [isChoice] at hc

theorem sketches_nodes_of (t : Tree l)
    (ht : ∀ {k : Nat} {i : Inlet}, Ranked ρ k (t.branchNodes k exit i q) →
      sketches ρ (t.branchNodes k exit i q) =
        sketches id (t.bare.branchNodes (ρ k) exit' (i.rename ρ) q'))
    (h : Ranked ρ k (t.nodes k exit i q)) :
    sketches ρ (t.nodes k exit i q) = sketches id (t.bare.nodes (ρ k) exit' (i.rename ρ) q') := by
  obtain ⟨hfork, hbranches⟩ := (eachFrom_nodes ..).mp h
  rw [nodes, sketches_append, t.sketches_forkNodes hfork hbranches, ht hbranches,
    t.rank_forkNodes hfork, ← branchInlet_bare, nodes, sketches_append, forkSize_bare]

/-- The drawn nodes of a tree have the sketches of the nodes of its bare tree. -/
theorem sketches_branchNodes (t : Tree l) (h : Ranked ρ k (t.branchNodes k exit i q)) :
    sketches ρ (t.branchNodes k exit i q) =
      sketches id (t.bare.branchNodes (ρ k) exit' (i.rename ρ) q') := by
  induction t generalizing k exit exit' i q q' with
  | value t v ht =>
    have hd {n : Node} (hn : n.kind = (Node.ofToken t).kind) : n.isDrawn = true :=
      isDrawn_of_piece ht hn
    refine sketches_cons (hd rfl) (hd rfl) ?_ rfl
    simp only [Node.sketch, Inlet.rename, List.map_id]
    rfl
  | group opening closing ho hc body ih =>
    obtain ⟨-, hbody, -⟩ := (eachFrom_group ..).mp h
    obtain ⟨hopen, hfork, hsize⟩ := rank_group ho hc body h
    have hbranches := ((eachFrom_nodes ..).mp hbody).2
    have hexits := body.map_drawnExits_bare hbranches
    have hlevel : sketches ρ (body.nodes (k + 1) [k + 1 + body.size] ⟨[k], none⟩ none) =
        sketches id (body.bare.nodes (ρ k + 1) [ρ k + 1 + body.bare.size] ⟨[ρ k], none⟩ none) := by
      rw [body.sketches_nodes_of (fun h => ih h) hbody, hopen]
      rfl
    have hd {n : Node} (hn : n.kind = (Node.ofToken opening).kind) : n.isDrawn = true :=
      isDrawn_of_piece ho hn
    rw [bare_group, branchNodes_group, branchNodes_group]
    refine sketches_cons (hd rfl) (hd rfl) ?_ ?_
    · simp only [Node.sketch, opener, Inlet.rename, List.map_id]
      rfl
    · rw [sketches_append, sketches_append, hlevel]
      refine congrArg _ (sketches_cons rfl rfl ?_ rfl)
      simp only [Node.sketch, closer, hexits, hfork, List.map_id]
      rfl
  | quantified a t r ht hl ih =>
    obtain ⟨before, exit'', behind, hnodes, hbefore, hbehind, -, -, -⟩ :=
      branchNodes_quantified a t r ht hl k exit i q
    rw [hnodes, ranked_append, ranked_append] at h
    have hatom : sketches ρ (a.branchNodes (k + before.length) exit'' i (some r)) =
        sketches id (a.bare.branchNodes (ρ (k + before.length)) exit' (i.rename ρ) q') := ih h.2.1
    rw [hnodes, sketches_append, sketches_append, sketches_of_not_isDrawn ρ hbefore,
      sketches_of_not_isDrawn ρ hbehind, List.nil_append, List.append_nil, hatom,
      rank_of_not_isDrawn h.1 hbefore, bare_quantified, branchNodes_raise]
  | concat f g hl ihf ihg =>
    rw [branchNodes, ranked_append, length_branchNodes] at h
    rw [branchNodes, sketches_append, ihf h.1, ihg h.2, f.rank_branchNodes h.1, bare_concat,
      branchNodes, sketches_append, ← f.map_drawnExits_bare h.1]
    rfl
  | alternation e t ht g ihe ihg =>
    rw [branchNodes, ranked_append, length_branchNodes] at h
    rw [branchNodes, sketches_append, ihe h.1, ihg h.2, e.rank_branchNodes h.1, bare_alternation,
      branchNodes, sketches_append, branchCount_bare]
    rfl

end Tree
end RegexDiagram
