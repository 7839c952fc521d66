import Mathlib.Data.List.Induction
import RegexDiagram.Proofs.Bands

/-!
Where the drawing of a regex may run over itself. Columns only go up along a row of factors and into
groups. That leaves two ways for two nodes to be in the same place: one is a fork, which is drawn
over the node in front of it, or they belong to two alternatives of one level that drift towards
each other, by a whole row more than what is stacked between them.
-/
namespace RegexDiagram

/-! ## Marks in one place -/

section

variable {α β : Type} {F : α → Prop} {X : α → α → Prop} {xs ys : List (α × Coord)}

/-- Of two marks in one place the second is a fork and right behind the first, or they may meet. -/
def Spread (F : α → Prop) (X : α → α → Prop) (ms : List (α × Coord)) : Prop :=
  ∀ i j m m', i < j → ms[i]? = some m → ms[j]? = some m' → m.2 = m'.2 →
    j = i + 1 ∧ F m'.1 ∨ X m.1 m'.1

namespace Spread

theorem nil : Spread F X [] := by
  intro i j m m' _ hi
  simp at hi

theorem single (m : α × Coord) : Spread F X [m] := by
  intro i j m m' hij hi hj
  have := (List.getElem?_eq_some_iff.mp hj).1
  simp only [List.length_singleton] at this
  omega

theorem append (hx : Spread F X xs) (hy : Spread F X ys)
    (h : ∀ m ∈ xs, ∀ m' ∈ ys, m.2 = m'.2 → X m.1 m'.1) : Spread F X (xs ++ ys) := by
  intro i j m m' hij hi hj hm
  by_cases hjx : j < xs.length
  · rw [List.getElem?_append_left (by omega)] at hi hj
    exact hx i j m m' hij hi hj hm
  rw [List.getElem?_append_right (by omega)] at hj
  by_cases hix : i < xs.length
  · rw [List.getElem?_append_left hix] at hi
    exact .inr (h m (List.mem_of_getElem? hi) m' (List.mem_of_getElem? hj) hm)
  rw [List.getElem?_append_right (by omega)] at hi
  apply (hy _ _ m m' (by omega) hi hj hm).imp_left
  intro hfork
  exact ⟨by omega, hfork.2⟩

theorem append_of_lt (hx : Spread F X xs) (hy : Spread F X ys)
    (h : ∀ m ∈ xs, ∀ m' ∈ ys, m.2.x < m'.2.x) : Spread F X (xs ++ ys) := by
  apply hx.append hy
  intro m hm m' hm' heq
  have hlt := h m hm m' hm'
  rw [heq] at hlt
  omega

theorem mono {X' : α → α → Prop} (h : Spread F X xs) (hX : ∀ a b, X a b → X' a b) :
    Spread F X' xs := by
  intro i j m m' hij hi hj hm
  exact (h i j m m' hij hi hj hm).imp_right (hX _ _)

theorem map {G : β → Prop} {Y : β → β → Prop} (f : α → β) (h : Spread F X xs)
    (hF : ∀ a, F a → G (f a)) (hX : ∀ a b, X a b → Y (f a) (f b)) :
    Spread G Y (xs.map fun m => (f m.1, m.2)) := by
  intro i j m m' hij hi hj hm
  rw [List.getElem?_map, Option.map_eq_some_iff] at hi hj
  obtain ⟨n, hn, rfl⟩ := hi
  obtain ⟨n', hn', rfl⟩ := hj
  exact (h i j n n' hij hn hn' hm).imp (fun hfork => ⟨hfork.1, hF _ hfork.2⟩) (hX _ _)

/-- Parts are spread if each of them is and marks of two parts are in one place only if they may
meet. -/
theorem flatMap {γ : Type} {cs : List γ} {f : γ → Nat → List (α × Coord)}
    (h : ∀ b c, cs[b]? = some c → Spread F X (f c b))
    (hX : ∀ b b' c c', b < b' → cs[b]? = some c → cs[b']? = some c' → ∀ m ∈ f c b,
      ∀ m' ∈ f c' b', m.2 = m'.2 → X m.1 m'.1) :
    Spread F X (cs.zipIdx.flatMap fun c => f c.1 c.2) := by
  induction cs using List.reverseRecOn with
  | nil => exact nil
  | append_singleton cs c ih =>
    have hinit {b : Nat} {d : γ} (hd : cs[b]? = some d) : (cs ++ [c])[b]? = some d := by
      rw [List.getElem?_append_left (List.getElem?_eq_some_iff.mp hd).1, hd]
    have hlast : (cs ++ [c])[cs.length]? = some c := List.getElem?_concat_length
    rw [List.zipIdx_append, List.flatMap_append]
    refine append (ih (fun b d hd => h b d (hinit hd)) ?_) ?_ ?_
    · intro b b' d d' hlt hd hd'
      exact hX b b' d d' hlt (hinit hd) (hinit hd')
    · simpa using h _ c hlast
    · intro m hm m' hm'
      obtain ⟨⟨d, b⟩, hd, hm⟩ := List.mem_flatMap.mp hm
      have hd := List.mem_zipIdx_iff_getElem?.mp hd
      refine hX b cs.length d c (List.getElem?_eq_some_iff.mp hd).1 (hinit hd) hlast m hm m' ?_
      simpa using hm'

/-- A fork may be over the mark in front of it. All else is in columns of its own. -/
theorem enclose {front back : α × Coord} {forks : List (α × Coord)} (hforks : forks.length ≤ 1)
    (hF : ∀ m ∈ forks, F m.1) (hxs : Spread F X xs)
    (hfront : ∀ m ∈ front :: forks, ∀ m' ∈ xs, m.2.x < m'.2.x)
    (hback : ∀ m ∈ front :: (forks ++ xs), m.2.x < back.2.x) :
    Spread F X (front :: (forks ++ xs) ++ [back]) := by
  have hstart : Spread F X (front :: forks) := by
    intro i j m m' hij _ hj _
    have hlt := (List.getElem?_eq_some_iff.mp hj).1
    rw [List.length_cons] at hlt
    obtain ⟨rfl, rfl⟩ : i = 0 ∧ j = 1 := by omega
    exact .inl ⟨rfl, hF m' (List.mem_of_getElem? hj)⟩
  apply append_of_lt (hstart.append_of_lt hxs hfront) (single back)
  intro m hm m' hm'
  obtain rfl := List.mem_singleton.mp hm'
  exact hback m hm

end Spread
end

/-! ## Where alternatives may meet -/

namespace Tree

variable {l : Precedence}

/-- Two alternatives of a level may meet: they drift towards each other by at least a row more than
what is stacked between them. -/
structure Meeting (e : Tree l) (b b' : Nat) (g g' : Sigma Tree) : Prop where
  order : b < b'
  upper : e.alternatives[b]? = some g
  lower : e.alternatives[b']? = some g'
  drift : 4 * (1 + Fork.between e.heights b b' : Int) ≤ g.2.drift .below + g'.2.drift .above

/-- The tokens are in two alternatives of the level that may meet. -/
def Crosses (e : Tree l) (t t' : Token) : Prop :=
  ∃ b b' g g', e.Meeting b b' g g' ∧ t ∈ g.2.tokens ∧ t' ∈ g'.2.tokens

theorem contents_of_mem_alternatives (t : Tree l) :
    ∀ g ∈ t.alternatives, g.2.contents ⊆ t.contents := by
  induction t with
  | alternation e t ht g ihe _ =>
    intro f hf
    rcases List.mem_append.mp hf with hf | hf
    · exact List.subset_append_of_subset_left _ (ihe f hf)
    · obtain rfl := List.mem_singleton.mp hf
      exact List.subset_append_right ..
  | _ =>
    intro f hf
    obtain rfl := List.mem_singleton.mp hf
    exact List.Subset.refl _

theorem tokens_diagram (t : Tree l) (x : Int) (y : Rat) : ∀ m ∈ t.diagram x y, m.1 ∈ t.tokens := by
  intro m hm
  rw [diagram_eq_levelMarks] at hm
  rcases List.mem_append.mp hm with hm | hm
  · exact (mem_forkMark hm).2.2
  · exact t.tokens_marks _ _ m hm

theorem meeting_of_eq {e : Tree l} {b b' : Nat} {g g' : Sigma Tree} (hlt : b < b')
    (hg : e.alternatives[b]? = some g) (hg' : e.alternatives[b']? = some g') {y : Rat} {c : Coord}
    (hc : g.2.Within .below (e.rows y b) c) (hc' : g'.2.Within .above (e.rows y b') c) :
    e.Meeting b b' g g' := by
  refine ⟨hlt, hg, hg', ?_⟩
  obtain ⟨dy, hdy, hrow⟩ := exists_rows hg y
  obtain ⟨dy', hdy', hrow'⟩ := exists_rows hg' y
  have hsub := Fork.four_mul_offset_sub (heights_getElem? hg) (heights_getElem? hg') hlt hdy hdy'
  rw [Within, hrow, Side.sign] at hc
  rw [Within, hrow', Side.sign] at hc'
  have hdrift : (4 * (1 + Fork.between e.heights b b' : Int) : Rat) ≤
      g.2.drift .below + g'.2.drift .above := by
    push_cast at hc hc' ⊢
    linarith
  exact_mod_cast hdrift

/-- The tokens are in two alternatives of one of the levels that may meet. -/
def CrossesIn (es : List (Tree .expr)) (t t' : Token) : Prop := ∃ e ∈ es, e.Crosses t t'

theorem CrossesIn.mono {es es' : List (Tree .expr)} {t t' : Token} (h : CrossesIn es t t')
    (hes : es ⊆ es') : CrossesIn es' t t' := by
  obtain ⟨e, he, hcross⟩ := h
  exact ⟨e, hes he, hcross⟩

/-- What is drawn in one place for an alternative is a fork and what is in front of it, or it is in
alternatives further in that may meet. -/
def IsSpread (g : Tree l) : Prop :=
  ∀ x y, Spread (·.piece = .alternation) (CrossesIn g.contents) (g.diagram x y)

/-- What is drawn in one place behind the fork of a level is in two alternatives that may meet. -/
theorem spread_marks_of (e : Tree .expr) (h : ∀ g ∈ e.alternatives, g.2.IsSpread) (x : Int)
    (y : Rat) :
    Spread (·.piece = .alternation) (CrossesIn (e :: e.contents)) (e.marks x (e.rows y)) := by
  rw [marks_eq_flatMap]
  simp only [← diagram_eq_levelMarks]
  refine Spread.flatMap (f := fun (g : Sigma Tree) b => g.2.diagram x (e.rows y b)) ?_ ?_
  · intro b g hg
    have hmem := List.mem_of_getElem? hg
    refine (h g hmem x _).mono fun t t' hcross => hcross.mono ?_
    exact List.subset_cons_of_subset _ (e.contents_of_mem_alternatives g hmem)
  · intro b b' g g' hlt hg hg' m hm m' hm' heq
    have hbelow := e.within_diagram .below g (List.mem_of_getElem? hg) _ _ m hm
    have habove := e.within_diagram .above g' (List.mem_of_getElem? hg') _ _ m' hm'
    rw [← heq] at habove
    exact ⟨e, List.mem_cons_self, b, b', g, g', meeting_of_eq hlt hg hg' hbelow habove,
      g.2.tokens_diagram _ _ m hm, g'.2.tokens_diagram _ _ m' hm'⟩

theorem spread_enclosed_of {α : Type} {F : α → Prop} {X : α → α → Prop} (e : Tree .expr)
    (h : ∀ g ∈ e.alternatives, g.2.IsSpread) {f : Token → α}
    (hF : ∀ t, t.piece = .alternation → F (f t))
    (hX : ∀ t t', CrossesIn (e :: e.contents) t t' → X (f t) (f t')) {x : Int} {y : Rat}
    {front back : α × Coord} (hfront : front.2.x = x)
    (hback : back.2.x = e.exitColumn (x + 1) + 1) :
    Spread F X (front :: (e.diagram (x + 1) y).map (fun m => (f m.1, m.2)) ++ [back]) := by
  have hmarks := (e.spread_marks_of h (x + 1) y).map f hF hX
  have hexit := e.le_exitColumn (x + 1)
  have hfork : ∀ m ∈ (e.forkMark (x + 1) y).map fun m => (f m.1, m.2), F m.1 ∧ m.2.x = x := by
    intro m hm
    obtain ⟨n, hn, rfl⟩ := List.mem_map.mp hm
    obtain ⟨hplace, hpiece, -⟩ := mem_forkMark hn
    exact ⟨hF _ hpiece, by simp [hplace]⟩
  have hcolumn : ∀ m ∈ (e.marks (x + 1) (e.rows y)).map fun m => (f m.1, m.2),
      x + 1 ≤ m.2.x ∧ m.2.x ≤ e.exitColumn (x + 1) := by
    intro m hm
    obtain ⟨n, hn, rfl⟩ := List.mem_map.mp hm
    exact e.column_marks _ _ n hn
  rw [diagram_eq_levelMarks, levelMarks, List.map_append]
  refine Spread.enclose ?_ (fun m hm => (hfork m hm).1) hmarks ?_ ?_
  · rw [List.length_map]
    cases e <;> simp [forkMark]
  · intro m hm m' hm'
    have hx := hcolumn m' hm'
    rcases List.mem_cons.mp hm with rfl | hm
    · omega
    · have := (hfork m hm).2
      omega
  · intro m hm
    rcases List.mem_cons.mp hm with rfl | hm
    · omega
    rcases List.mem_append.mp hm with hm | hm
    · have := (hfork m hm).2
      omega
    · have := hcolumn m hm
      omega

/-- Columns go up along a row of factors, and from the parentheses into a group, so that marks of
one alternative are in one place only further in. -/
theorem isSpread_of_mem_alternatives (t : Tree l) : ∀ g ∈ t.alternatives, g.2.IsSpread := by
  refine forall_alternatives ?_ ?_ ?_ ?_ t
  · intro l t v ht x y
    rw [diagram]
    exact Spread.single _
  · intro l opening closing ho hc body h x y
    have hbody : Spread (·.piece = .alternation) (CrossesIn (body :: body.contents))
        ((opening, ⟨x, y⟩) :: (body.diagram (x + 1) y).map (fun m => (id m.1, m.2))
          ++ [(closing, ⟨body.exitColumn (x + 1) + 1, y⟩)]) :=
      body.spread_enclosed_of h (fun _ ht => ht) (fun _ _ hcross => hcross) rfl rfl
    rw [diagram]
    simpa [contents] using hbody
  · intro l a t q ht hl h x y
    rw [diagram]
    exact h x y
  · intro l f g hl hf hg x y
    have hchoicef : f.isChoice = false := f.isChoice_of_ne (by simp)
    have hchoiceg : g.isChoice = false := g.isChoice_of_ne (by simp)
    rw [diagram]
    apply Spread.append_of_lt ((hf x y).mono ?_) ((hg _ y).mono ?_)
    · intro m hm m' hm'
      rw [diagram_eq_levelMarks, levelMarks, forkMark_of_not_isChoice _ (by assumption)] at hm hm'
      have := f.column_marks x _ m hm
      have := g.column_marks _ _ m' hm'
      omega
    · intro t t' hcross
      exact hcross.mono (List.subset_append_left ..)
    · intro t t' hcross
      exact hcross.mono (List.subset_append_right ..)

end Tree

namespace Expression

/-- The tokens are in two alternatives of one of the levels that may meet. -/
def Crosses (A : Expression) (s s' : Symbol) : Prop :=
  ∃ t t', s = .token t ∧ s' = .token t' ∧ Tree.CrossesIn A.levels t t'

/-- What is drawn in one place is a fork and what is in front of it, or it is in two alternatives
that may meet. -/
theorem spread_diagram (A : Expression) :
    Spread (∃ t, · = .token t ∧ t.piece = .alternation) A.Crosses A.diagram := by
  cases A with
  | none =>
    have hcolumns : ∀ m ∈ [(Symbol.first, (⟨0, 0⟩ : Coord))],
        ∀ m' ∈ [(Symbol.last, (⟨1, 0⟩ : Coord))], m.2.x < m'.2.x := by simp
    exact (Spread.single _).append_of_lt (Spread.single _) hcolumns
  | some e =>
    refine e.spread_enclosed_of e.isSpread_of_mem_alternatives (f := Symbol.token) ?_ ?_ rfl rfl
    · exact fun t ht => ⟨t, rfl, ht⟩
    · exact fun t t' hcross => ⟨t, t', rfl, rfl, hcross⟩

end Expression

/-! ## Forks and the nodes in front of them -/

/-- A fork hangs on the node in front of it alone. -/
def Node.ForkHangsOn (x y : Node × Nat) : Prop :=
  y.1.isFork = true → y.1.fork.isSome = true ∧ y.1.sources = [x.2]

theorem isChain_select_cons {x : Node × Nat} {n : Node} {ns : List Node} {k : Nat}
    (hd : n.isDrawn = true) (hn : n.isFork = false)
    (h : List.IsChain Node.ForkHangsOn ((n, k) :: select Node.isDrawn (k + 1) ns)) :
    List.IsChain Node.ForkHangsOn (x :: select Node.isDrawn k (n :: ns)) := by
  rw [select_cons, if_pos hd]
  refine List.isChain_cons_cons.mpr ⟨fun hfork => ?_, h⟩
  rw [hn] at hfork
  contradiction

theorem isChain_cons_append {α : Type} {R : α → α → Prop} {a : α} {xs ys : List α}
    (hx : List.IsChain R (a :: xs)) (hy : ∀ b, List.IsChain R (b :: ys)) :
    List.IsChain R (a :: (xs ++ ys)) := by
  induction xs generalizing a with
  | nil => exact hy a
  | cons b xs ih =>
    obtain ⟨hab, hx⟩ := List.isChain_cons_cons.mp hx
    exact List.isChain_cons_cons.mpr ⟨hab, ih hx⟩

namespace Tree

variable {l : Precedence}

/-- The fork of a level hangs on the node in front of the level, and those behind it on the nodes in
front of them. -/
theorem isChain_nodes_of (e : Tree .expr)
    (h : ∀ y k exit i q, List.IsChain Node.ForkHangsOn
      (y :: select Node.isDrawn k (e.branchNodes k exit i q)))
    (x : Node × Nat) (k : Nat) (exit : List Nat) (q : Option Quantifier) :
    List.IsChain Node.ForkHangsOn
      (x :: select Node.isDrawn k (e.nodes k exit ⟨[x.2], none⟩ q)) := by
  rw [nodes, select_append, length_forkNodes]
  refine isChain_cons_append ?_ fun y => h y _ _ _ _
  cases e with
  | alternation e t ht g =>
    rw [forkNodes, select_cons]
    split
    · exact List.isChain_cons_cons.mpr ⟨fun _ => ⟨rfl, rfl⟩, .singleton _⟩
    · exact .singleton _
  | _ => exact .singleton _

theorem isChain_branchNodes (t : Tree l) (x : Node × Nat) (k : Nat) (exit : List Nat) (i : Inlet)
    (q : Option Quantifier) :
    List.IsChain Node.ForkHangsOn (x :: select Node.isDrawn k (t.branchNodes k exit i q)) := by
  induction t generalizing x k exit i q with
  | value t v hv =>
    have hfork {n : Node} (hn : n.kind = (Node.ofToken t).kind) : n.isFork = false := by
      simp [Node.isFork, hn, Node.ofToken, hv]
    have hd {n : Node} (hn : n.kind = (Node.ofToken t).kind) : n.isDrawn = true := by
      rw [Node.isDrawn, hn, Node.ofToken, hv]
    exact isChain_select_cons (hd rfl) (hfork rfl) (.singleton _)
  | group opening closing ho hc body ih =>
    have hd : (opener opening k body.size i q).isDrawn = true := by
      simp [opener, Node.isDrawn, Node.ofToken, ho]
    have hopen : (opener opening k body.size i q).isFork = false := by
      simp [opener, Node.isFork, Node.ofToken, ho]
    have hbody := body.isChain_nodes_of ih (opener opening k body.size i q, k) (k + 1)
      [k + 1 + body.size] none
    rw [branchNodes_group]
    refine isChain_select_cons hd hopen ?_
    rw [select_append]
    exact isChain_cons_append hbody fun y => isChain_select_cons rfl rfl (.singleton _)
  | quantified a t q' hq hl ih =>
    have hskip (next : List (Option Nat)) :
        ({ Node.ofToken t with next := next } : Node).isDrawn = false := by
      simp [Node.isDrawn, Node.ofToken, hq]
    cases q' with
    | plus => simpa [branchNodes, select_append, select_cons, hskip] using ih x k _ i _
    | _ => simpa [branchNodes, select_cons, hskip] using ih x (k + 1) _ i _
  | concat f g hl ihf ihg =>
    rw [branchNodes, select_append, length_branchNodes]
    exact isChain_cons_append (ihf ..) fun y => ihg y ..
  | alternation e t ht g ihe ihg =>
    rw [branchNodes, select_append, length_branchNodes]
    exact isChain_cons_append (ihe ..) fun y => ihg y ..

end Tree

namespace Expression

theorem isChain_drawnNodes (A : Expression) :
    List.IsChain Node.ForkHangsOn (Graph.drawnNodes A.automaton) := by
  have hselect : Graph.drawnNodes A.automaton = select Node.isDrawn 0 A.nodes := by
    simp [Graph.drawnNodes, select, automaton]
  have hfirst : ({ kind := .first, next := [some 1] } : Node).isDrawn = true := rfl
  rw [hselect]
  cases A with
  | none =>
    rw [nodes, select_cons, if_pos hfirst]
    exact isChain_select_cons rfl rfl (.singleton _)
  | some e =>
    rw [nodes, select_append, select_cons, if_pos hfirst]
    refine isChain_cons_append (e.isChain_nodes_of e.isChain_branchNodes ..) fun y => ?_
    exact isChain_select_cons rfl rfl (.singleton _)

/-- A node may be drawn over another one: it is a fork and hangs on the other one alone, or the two
are in alternatives that may meet. -/
def Overlays (A : Expression) (x y : Node × Nat) : Prop :=
  y.1.fork.isSome = true ∧ y.1.sources = [x.2] ∨
    ∃ t t', x.1.StandsFor t ∧ y.1.StandsFor t' ∧ Tree.CrossesIn A.levels t t'

end Expression

theorem Graph.exists_mark {a : Automaton} {p : Layout.Places} {ms : List (Symbol × Coord)}
    (h : List.Forall₂ (fun x m => x.1.Represents m.1 ∧ p.Has x.2 m.2) (drawnNodes a) ms) {i : Nat}
    {g : GraphNode} (hg : (draw a p).nodes[i]? = some g) :
    ∃ x m, (drawnNodes a)[i]? = some x ∧ ms[i]? = some m ∧ x.1.Represents m.1 ∧ g.coord = m.2 := by
  rw [draw, List.getElem?_map, Option.map_eq_some_iff] at hg
  obtain ⟨x, hx, rfl⟩ := hg
  obtain ⟨hi, rfl⟩ := List.getElem?_eq_some_iff.mp hx
  have hlt : i < ms.length := h.length_eq ▸ hi
  obtain ⟨hrepresents, hplace⟩ := h.get hi hlt
  exact ⟨_, _, hx, List.getElem?_eq_getElem hlt, hrepresents, coordAt_of_has hplace⟩

/--
Every source is compiled to a drawing in which two nodes are in the same place only if the second is
a fork that hangs on the first, or if they are in two alternatives of one level that drift towards
each other by at least a row more than what is between them.
-/
theorem nodes_apart_unless_drifting (source : List Char) :
    ∃ c a, compile source = .ok c ∧ (Analysis.ofSource source).validate = some a ∧
      c.analysis.valid = a.valid ∧ (∃ A : Expression, A.tokens = a.valid) ∧
      ∀ A : Expression, A.tokens = a.valid → ∀ (i j : Nat) (g g' : GraphNode), i < j →
        c.graph.nodes[i]? = some g → c.graph.nodes[j]? = some g' → g.coord = g'.coord →
          ∃ x y, (Graph.drawnNodes c.automaton)[i]? = some x ∧
            (Graph.drawnNodes c.automaton)[j]? = some y ∧ A.Overlays x y := by
  obtain ⟨c, a, A, hc, ha, hthrough, h, htokens, -⟩ := exists_stages source
  have hvalid := h.tokens.symm.trans htokens
  refine ⟨c, a, hc, ha, hvalid, ⟨A, htokens⟩, fun B hB i j g g' hij hg hg' heq => ?_⟩
  have hautomaton := (h.of_tokens (hB.trans hvalid.symm)).automaton
  obtain ⟨p, hp, -, -⟩ := Layout.ofAutomaton_automaton B
  obtain ⟨hshows, -⟩ := B.shows_nodes (Layout.settled_automaton hp)
  have hchain := List.isChain_iff_getElem.mp B.isChain_drawnNodes
  rw [hautomaton]
  rw [← hautomaton] at hp
  rw [Graph.draw_of_ofAutomaton hp hthrough.graph, hautomaton] at hg hg'
  obtain ⟨x, m, hx, hm, hrepresents, hcoord⟩ := Graph.exists_mark hshows hg
  obtain ⟨y, m', hy, hm', hrepresents', hcoord'⟩ := Graph.exists_mark hshows hg'
  refine ⟨x, y, hx, hy, ?_⟩
  rcases B.spread_diagram i j m m' hij hm hm' (by rw [← hcoord, ← hcoord', heq]) with hfork | hcross
  · left
    obtain ⟨rfl, t, ht, hpiece⟩ := hfork
    obtain ⟨hi, rfl⟩ := List.getElem?_eq_some_iff.mp hx
    obtain ⟨hj, rfl⟩ := List.getElem?_eq_some_iff.mp hy
    rw [ht] at hrepresents'
    have hkind := hrepresents'.kind
    exact hchain i hj (by simp [Node.isFork, hkind, hpiece])
  · right
    obtain ⟨t, t', ht, ht', hcross⟩ := hcross
    rw [ht] at hrepresents
    rw [ht'] at hrepresents'
    exact ⟨t, t', hrepresents, hrepresents', hcross⟩

/-- Alternatives that drift by no more than that do meet: in `(a|(b|c|d|e|f))|ghi` the group drifts
by four quarters, and `f` and `i` are drawn in the same place. -/
theorem nodes_overlap_of_uneven_group :
    ∃ c, compile "(a|(b|c|d|e|f))|ghi".toList = .ok c ∧ ∃ (g g' : GraphNode) (x y : Node × Nat),
      c.graph.nodes[11]? = some g ∧ c.graph.nodes[16]? = some g' ∧ g.coord = g'.coord ∧
        (Graph.drawnNodes c.automaton)[11]? = some x ∧
        (Graph.drawnNodes c.automaton)[16]? = some y ∧
        x.1.fork.isSome = false ∧ y.1.fork.isSome = false := by
  have h : (compile "(a|(b|c|d|e|f))|ghi".toList).toOption.map (fun c =>
      (c.graph.nodes[11]?.map (·.coord), c.graph.nodes[16]?.map (·.coord),
        (Graph.drawnNodes c.automaton)[11]?.map (·.1.fork.isSome),
        (Graph.drawnNodes c.automaton)[16]?.map (·.1.fork.isSome))) =
      some (some ⟨3, 7 / 4⟩, some ⟨3, 7 / 4⟩, some false, some false) := by
    decide +kernel
  obtain ⟨c, -, hc, -⟩ := exists_compile "(a|(b|c|d|e|f))|ghi".toList
  rw [hc] at h
  simp only [Except.toOption, Option.map_some, Option.some_inj, Prod.mk.injEq,
    Option.map_eq_some_iff] at h
  obtain ⟨⟨g, hg, hcoord⟩, ⟨g', hg', hcoord'⟩, ⟨x, hx, hfork⟩, ⟨y, hy, hfork'⟩⟩ := h
  exact ⟨c, hc, g, g', x, y, hg, hg', hcoord.trans hcoord'.symm, hx, hy, hfork, hfork'⟩

end RegexDiagram
