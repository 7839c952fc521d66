import RegexDiagram.Service
import RegexDiagram.Proofs.Bands
import RegexDiagram.Proofs.Shapes
import RegexDiagram.Proofs.Tags

/-!
The coordinates of a drawing. Columns are whole numbers. Rows are quarters: a fork sets its branches
off by quarters, and where they meet again the drawing is back in the row of the fork, so that no
denominator ever grows. The offsets of forks inside each other add up, but every fork has at least
one value more than each of its branches, so that they grow at most with the square of the number of
values. Numbers like these are held exactly by doubles.
-/
namespace RegexDiagram

/-- How far the rows for `n` values get from the middle, in quarters. -/
def spread (n : Nat) : Nat := n * (n - 1)

theorem spread_succ (n : Nat) : spread (n + 1) = spread n + 2 * n := by
  cases n with
  | zero => rfl
  | succ n =>
    simp only [spread, Nat.add_sub_cancel]
    ring

theorem spread_le_spread {m n : Nat} (h : m ≤ n) : spread m ≤ spread n :=
  Nat.mul_le_mul h (Nat.sub_le_sub_right h 1)

/-- The rows of a drawing are a quarter apart. -/
def OnGrid (y : Rat) : Prop := ∃ k : Int, 4 * y = k

theorem OnGrid.add {y y' : Rat} (h : OnGrid y) (h' : OnGrid y') : OnGrid (y + y') := by
  obtain ⟨k, hk⟩ := h
  obtain ⟨k', hk'⟩ := h'
  refine ⟨k + k', ?_⟩
  rw [mul_add, hk, hk', Int.cast_add]

theorem Fork.onGrid_offset {heights : List Nat} {b : Nat} {dy : Rat}
    (h : offset? heights b = some dy) : OnGrid dy := by
  obtain ⟨k, -, hk⟩ := Option.map_eq_some_iff.mp h
  refine ⟨k, ?_⟩
  rw [← hk, Rat.mkRat_eq_div]
  push_cast
  ring

namespace Tree

variable {l : Precedence}

/-! ## Values -/

/-- The number of values in a tree. -/
def breadth (t : Tree l) : Nat := t.tokens.countP Token.isValue

@[simp] theorem breadth_value (t : Token) (v : Value) (ht : t.piece = .value v) :
    (value t v ht : Tree l).breadth = 1 := by
  simp [breadth, tokens, Token.isValue, Piece.isValue, ht]

@[simp] theorem breadth_group (opening closing : Token) (ho : opening.piece = .groupOpen)
    (hc : closing.piece = .groupClose) (body : Tree .expr) :
    (group opening closing ho hc body : Tree l).breadth = body.breadth := by
  simp [breadth, tokens, Token.isValue, Piece.isValue, ho, hc]

@[simp] theorem breadth_quantified (a : Tree .atom) (t : Token) (q : Quantifier)
    (ht : t.piece = .quantifier q) (hl : l ≠ .atom) :
    (quantified a t q ht hl : Tree l).breadth = a.breadth := by
  simp [breadth, tokens, Token.isValue, Piece.isValue, ht]

@[simp] theorem breadth_concat (f : Tree .term) (g : Tree .factor) (hl : l = .term ∨ l = .expr) :
    (concat f g hl : Tree l).breadth = f.breadth + g.breadth := by
  simp [breadth, tokens]

@[simp] theorem breadth_alternation (e : Tree .expr) (t : Token) (ht : t.piece = .alternation)
    (g : Tree .term) : (alternation e t ht g).breadth = e.breadth + g.breadth := by
  simp [breadth, tokens, Token.isValue, Piece.isValue, ht]

theorem height_le_breadth (t : Tree l) : t.height ≤ t.breadth := by
  induction t with
  | value t v ht => simp [height]
  | group opening closing ho hc body ih => simpa [height] using ih
  | quantified a t q ht hl ih => simpa [height] using ih
  | concat f g hl ihf ihg =>
    rw [height, breadth_concat]
    omega
  | alternation e t ht g ihe ihg =>
    rw [height, breadth_alternation]
    omega

theorem breadth_pos (t : Tree l) : 1 ≤ t.breadth := Nat.le_trans t.height_pos t.height_le_breadth

theorem breadth_of_mem_alternatives (t : Tree l) {g : Sigma Tree} (hg : g ∈ t.alternatives) :
    g.2.breadth ≤ t.breadth ∧ (t.isChoice = true → g.2.breadth < t.breadth) := by
  induction t with
  | alternation e t ht f ihe _ =>
    have he := e.breadth_pos
    have hf := f.breadth_pos
    rw [breadth_alternation]
    rcases List.mem_append.mp hg with hg | hg
    · have := (ihe hg).1
      omega
    · obtain rfl := List.mem_singleton.mp hg
      simp only
      omega
  | _ =>
    obtain rfl := List.mem_singleton.mp hg
    exact ⟨Nat.le_refl _, by simp [isChoice]⟩

/-! ## Drift -/

theorem exists_branchDrift (t : Tree l) (s : Side) :
    ∃ g ∈ t.alternatives, t.branchDrift s = g.2.drift s := by
  induction t with
  | alternation e t ht g ihe _ =>
    obtain ⟨f, hf, hdrift⟩ := ihe
    have hg := g.drift_of_not_isChoice (g.isChoice_of_ne (by simp)) s
    rw [branchDrift, hdrift, ← hg]
    rcases le_total (f.2.drift s) (g.drift s) with hle | hle
    · exact ⟨⟨.term, g⟩, by simp [alternatives], max_eq_right hle⟩
    · exact ⟨f, List.mem_append_left _ hf, max_eq_left hle⟩
  | _ => exact ⟨_, List.mem_singleton_self _, (drift_of_not_isChoice _ rfl s).symm⟩

theorem tilt_heights_le (t : Tree l) (ht : t.isChoice = true) (s : Side) :
    Fork.tilt s t.heights + 2 ≤ t.breadth := by
  obtain ⟨f, hf, g, hg, hfirst, hlast⟩ := t.exists_end_alternatives
  have hltf := (t.breadth_of_mem_alternatives hf).2 ht
  have hltg := (t.breadth_of_mem_alternatives hg).2 ht
  have hlef := f.2.height_le_breadth
  have hleg := g.2.height_le_breadth
  have hposf := f.2.height_pos
  have hposg := g.2.height_pos
  rw [Fork.tilt, hfirst, hlast]
  cases s with
  | above =>
    simp only [Side.sign]
    omega
  | below =>
    simp only [Side.sign]
    omega

theorem drift_le_of (t : Tree l) (s : Side)
    (h : ∀ g ∈ t.alternatives, g.2.drift s ≤ spread (g.2.breadth - 1)) :
    t.drift s ≤ spread (t.breadth - 1) := by
  cases hc : t.isChoice with
  | false =>
    rw [t.alternatives_of_not_isChoice hc] at h
    exact h _ List.mem_cons_self
  | true =>
    obtain ⟨g, hg, hbranch⟩ := t.exists_branchDrift s
    have hdrift := h g hg
    have hlt := (t.breadth_of_mem_alternatives hg).2 hc
    have htilt := t.tilt_heights_le hc s
    have hpos := g.2.breadth_pos
    obtain ⟨n, hn⟩ : ∃ n, t.breadth = n + 2 := ⟨t.breadth - 2, by omega⟩
    have hle : spread (g.2.breadth - 1) ≤ spread n := spread_le_spread (by omega)
    have hsucc := spread_succ n
    rw [drift, hbranch, hn, Nat.add_sub_cancel_right (m := 1)]
    omega

theorem drift_le (t : Tree l) (s : Side) : t.drift s ≤ spread (t.breadth - 1) := by
  refine t.drift_le_of s (forall_alternatives ?_ ?_ ?_ ?_ t)
  · intro l t v ht
    simp
  · intro l opening closing ho hc body h
    simpa using body.drift_le_of s h
  · intro l a t q ht hl h
    simpa using h
  · intro l f g hl hf hg
    have hlef : spread (f.breadth - 1) ≤ spread (f.breadth + g.breadth - 1) :=
      spread_le_spread (by omega)
    have hleg : spread (g.breadth - 1) ≤ spread (f.breadth + g.breadth - 1) :=
      spread_le_spread (by omega)
    simp only [drift_concat, breadth_concat] at hf hg ⊢
    omega

/-! ## Rows -/

theorem Within.le_spread {t : Tree l} {s : Side} {c : Coord} (h : t.Within s 0 c) :
    s.sign * (4 * c.y) ≤ spread t.breadth := by
  have hdrift := t.drift_le s
  have hheight := t.height_le_breadth
  have hpos := t.breadth_pos
  obtain ⟨n, hn⟩ : ∃ n, t.breadth = n + 1 := ⟨t.breadth - 1, by omega⟩
  have hsucc := spread_succ n
  rw [hn, Nat.add_sub_cancel] at hdrift
  have hreach : 2 * (t.height : Int) - 2 + t.drift s ≤ spread t.breadth := by
    rw [hn] at hheight ⊢
    omega
  rw [Within, sub_zero] at h
  apply le_trans h
  exact_mod_cast hreach

theorem onGrid_rows {t : Tree l} {b : Nat} {g : Sigma Tree} (hg : t.alternatives[b]? = some g)
    {y : Rat} (hy : OnGrid y) : OnGrid (t.rows y b) := by
  obtain ⟨dy, hdy, hrow⟩ := exists_rows hg y
  rw [hrow]
  exact hy.add (Fork.onGrid_offset hdy)

theorem onGrid_diagram_of (t : Tree l)
    (h : ∀ g ∈ t.alternatives, ∀ x y, OnGrid y → ∀ m ∈ g.2.diagram x y, OnGrid m.2.y) (x : Int)
    {y : Rat} (hy : OnGrid y) : ∀ m ∈ t.diagram x y, OnGrid m.2.y := by
  intro m hm
  rw [diagram_eq_flatMap] at hm
  rcases List.mem_append.mp hm with hfork | hbranch
  · rw [(mem_forkMark hfork).1]
    exact hy
  · obtain ⟨⟨g, b⟩, hg, hm⟩ := List.mem_flatMap.mp hbranch
    have hg := List.mem_zipIdx_iff_getElem?.mp hg
    exact h g (List.mem_of_getElem? hg) x _ (onGrid_rows hg hy) m hm

theorem onGrid_diagram (t : Tree l) : ∀ g ∈ t.alternatives, ∀ x y, OnGrid y →
    ∀ m ∈ g.2.diagram x y, OnGrid m.2.y := by
  refine forall_alternatives ?_ ?_ ?_ ?_ t
  · intro l t v ht x y hy m hm
    rw [diagram] at hm
    obtain rfl := List.mem_singleton.mp hm
    exact hy
  · intro l opening closing ho hc body h x y hy m hm
    rw [diagram] at hm
    rcases List.mem_append.mp hm with hm | hm
    · rcases List.mem_cons.mp hm with rfl | hm
      · exact hy
      · exact body.onGrid_diagram_of h (x + 1) hy m hm
    · obtain rfl := List.mem_singleton.mp hm
      exact hy
  · intro l a t q ht hl h x y hy m hm
    rw [diagram] at hm
    exact h x y hy m hm
  · intro l f g hl hf hg x y hy m hm
    rw [diagram] at hm
    rcases List.mem_append.mp hm with hm | hm
    · exact hf x y hy m hm
    · exact hg _ y hy m hm

/-! ## Columns -/

theorem exitColumn_lt (t : Tree l) (x : Int) (row : Nat → Rat) :
    t.exitColumn x < x + (t.marks x row).length := by
  induction t generalizing x row with
  | value => simp [exitColumn, marks]
  | group opening closing ho hc body ih =>
    have hbody := ih (x + 1) (body.rows (row 0))
    simp only [exitColumn, marks, List.length_append, List.length_cons, List.length_nil]
    omega
  | quantified a t q hq hl ih => exact ih x row
  | concat f g hl ihf ihg =>
    have hf := ihf x row
    have hg := ihg (f.exitColumn x + 1) row
    simp only [exitColumn, marks, List.length_append]
    omega
  | alternation e t ht g ihe ihg =>
    have he := ihe x row
    have hg := ihg x fun _ => row e.branchCount
    simp only [exitColumn, marks, List.length_append]
    omega

theorem length_marks_le (t : Tree l) (x : Int) (y : Rat) (row : Nat → Rat) :
    (t.forkMark x y).length + (t.marks x row).length ≤ t.tokens.length := by
  induction t generalizing x y row with
  | value => exact Nat.le_refl 1
  | group opening closing ho hc body ih =>
    have hbody := ih (x + 1) (row 0) (body.rows (row 0))
    rw [forkMark_of_not_isChoice _ rfl]
    simp only [marks, tokens, List.length_append, List.length_cons, List.length_nil]
    omega
  | quantified a t q hq hl ih =>
    have ha := ih x y row
    simp only [forkMark, marks, tokens, List.length_append, List.length_cons, List.length_nil]
    omega
  | concat f g hl ihf ihg =>
    have hf := ihf x y row
    have hg := ihg (f.exitColumn x + 1) y row
    simp only [forkMark, marks, tokens, List.length_append, List.length_nil]
    omega
  | alternation e t ht g ihe ihg =>
    have he := ihe x y row
    have hg := ihg x y fun _ => row e.branchCount
    simp only [forkMark, marks, tokens, List.length_append, List.length_cons, List.length_nil]
    omega

theorem column_diagram (t : Tree l) (x : Int) (y : Rat) :
    ∀ m ∈ t.diagram x y, x - 1 ≤ m.2.x ∧ m.2.x ≤ t.exitColumn x := by
  intro m hm
  have hexit := t.le_exitColumn x
  rw [diagram_eq_levelMarks] at hm
  rcases List.mem_append.mp hm with hm | hm
  · rw [(mem_forkMark hm).1]
    simp only
    omega
  · have := t.column_marks x _ m hm
    omega

theorem exitColumn_lt_length (t : Tree l) (x : Int) (y : Rat) :
    t.exitColumn x < x + (t.diagram x y).length := by
  have hexit := t.exitColumn_lt x (t.rows y)
  rw [diagram_eq_levelMarks, levelMarks, List.length_append]
  omega

end Tree

/-! ## Bounds -/

/-- A place in a drawing of some nodes for some values. -/
structure Coord.Bounded (nodes values : Nat) (z : Coord) : Prop where
  left : 0 ≤ z.x
  right : z.x ≤ nodes - 1
  row : ∃ k : Int, z.y = mkRat k 4 ∧ k.natAbs ≤ values * (values - 1)

theorem Coord.bounded_of {nodes values : Nat} {z : Coord} (hleft : 0 ≤ z.x)
    (hright : z.x ≤ nodes - 1) (hgrid : OnGrid z.y)
    (hrow : ∀ s : Side, s.sign * (4 * z.y) ≤ spread values) : z.Bounded nodes values := by
  obtain ⟨k, hk⟩ := hgrid
  have habove : -1 * k ≤ spread values := by
    have h := hrow .above
    rw [hk] at h
    exact_mod_cast h
  have hbelow : 1 * k ≤ spread values := by
    have h := hrow .below
    rw [hk] at h
    exact_mod_cast h
  refine ⟨hleft, hright, k, ?_, ?_⟩
  · rw [Rat.mkRat_eq_div, ← hk]
    push_cast
    ring
  · rw [← spread]
    omega

theorem Coord.bounded_middle {x : Int} {nodes : Nat} (values : Nat) (hleft : 0 ≤ x)
    (hright : x ≤ nodes - 1) : (⟨x, 0⟩ : Coord).Bounded nodes values where
  left := hleft
  right := hright
  row := ⟨0, by simp, Nat.zero_le _⟩

/-- What is drawn for a level behind the first node, with the last node behind it. -/
theorem Tree.bounded_diagram {l : Precedence} (t : Tree l) : ∀ m ∈ t.diagram 1 0,
    m.2.Bounded ((t.diagram 1 0).length + 2) t.breadth := by
  intro m hm
  have hcolumn := t.column_diagram 1 0 m hm
  have hlast := t.exitColumn_lt_length 1 0
  apply Coord.bounded_of
  · omega
  · push_cast
    omega
  · exact t.onGrid_diagram_of t.onGrid_diagram 1 ⟨0, by simp⟩ m hm
  · intro s
    exact (t.within_diagram_of s (t.within_diagram s) 1 0 m hm).le_spread

namespace Expression

theorem bounded_diagram (A : Expression) :
    ∀ m ∈ A.diagram, m.2.Bounded A.diagram.length (max 1 (A.tokens.countP Token.isValue)) := by
  cases A with
  | none =>
    simp only [diagram, List.forall_mem_cons]
    exact ⟨Coord.bounded_middle _ (by simp) (by simp), Coord.bounded_middle _ (by simp) (by simp),
      by simp⟩
  | some e =>
    have hvalues : max 1 ((tokens (some e)).countP Token.isValue) = e.breadth :=
      Nat.max_eq_right e.breadth_pos
    have hlength : (diagram (some e)).length = (e.diagram 1 0).length + 2 := by
      simp [diagram]
    have hlast := e.exitColumn_lt_length 1 0
    have hstart := e.le_exitColumn 1
    rw [hvalues, hlength]
    intro m hm
    simp only [diagram, List.mem_append, List.mem_cons, List.mem_map, List.not_mem_nil,
      or_false] at hm
    rcases hm with (rfl | ⟨m, hm, rfl⟩) | rfl
    · apply Coord.bounded_middle
      · exact Int.le_refl 0
      · push_cast
        omega
    · exact e.bounded_diagram m hm
    · apply Coord.bounded_middle
      · omega
      · push_cast
        omega

theorem length_diagram_le (A : Expression) : A.diagram.length ≤ A.tokens.length + 2 := by
  cases A with
  | none => exact Nat.le_refl 2
  | some e =>
    have hlength := e.length_marks_le 1 0 (e.rows 0)
    have hdiagram : (e.diagram 1 0).length ≤ e.tokens.length := by
      rw [Tree.diagram_eq_levelMarks, Tree.levelMarks, List.length_append]
      exact hlength
    simp only [diagram, tokens, List.length_append, List.length_cons, List.length_map,
      List.length_nil]
    omega

end Expression

/-! ## Counts -/

theorem Balanced.countP_eq {ps : List Piece} (h : Balanced ps) :
    ps.countP (· = .groupClose) = ps.countP (· = .groupOpen) := by
  induction h with
  | nil => rfl
  | other ho hc _ ih => simpa [List.countP_cons, ho, hc] using ih
  | group _ _ ihp ihq =>
    simp only [List.countP_cons, List.countP_append, ihp, ihq]
    simp
    omega

namespace Analysis

variable {source : List Char} {a : Analysis}

theorem length_tokens_ofSource (source : List Char) :
    (ofSource source).tokens.length ≤ source.length := by
  have hread (cs : List Char) : (Piece.readAll cs).length ≤ cs.length := by
    fun_induction Piece.readAll cs with
    | case1 => exact Nat.le_refl 0
    | case2 c rest ih =>
      have hlt := Piece.read_length c rest
      rw [List.length_cons]
      omega
  have hpieces := congrArg List.length (pieces_ofSource source)
  rw [List.length_map] at hpieces
  rw [hpieces]
  exact hread source

theorem balanced_valid (ha : (ofSource source).validate = some a) :
    Balanced (a.valid.map Token.piece) := by
  obtain ⟨b, hb, A, hA⟩ := exists_validate source
  obtain rfl := Option.some.inj (ha.symm.trans hb)
  rw [← hA]
  cases A with
  | none => exact .nil
  | some e => exact e.balanced

theorem length_valid_le (ha : (ofSource source).validate = some a) :
    a.valid.length ≤ 2 * source.length := by
  obtain ⟨us, closings, hvalid, hus, hclosings⟩ := exists_kept ha
  have hkept : (us.filter (!·.invalid)).length ≤ source.length := by
    calc (us.filter (!·.invalid)).length
      _ ≤ us.length := List.length_filter_le ..
      _ = (ofSource source).tokens.length := hus.length_eq
      _ ≤ source.length := length_tokens_ofSource source
  have hcount := (balanced_valid ha).countP_eq
  have hclose : (closings.map Token.piece).countP (· = .groupClose) = closings.length := by
    rw [List.countP_map, List.countP_eq_length]
    exact fun t ht => by simp [(hclosings t ht).2]
  have hopen : (closings.map Token.piece).countP (· = .groupOpen) = 0 := by
    rw [List.countP_map, List.countP_eq_zero]
    exact fun t ht => by simp [(hclosings t ht).2]
  have hle := List.countP_le_length (p := (· = .groupOpen))
    (l := (us.filter (!·.invalid)).map Token.piece)
  rw [hvalid, List.map_append, List.countP_append, List.countP_append, hclose, hopen] at hcount
  rw [List.length_map] at hle
  rw [hvalid, List.length_append]
  omega

end Analysis

/-! ## Doubles -/

/-- A finite number that a double holds exactly: 53 bits, scaled by a power of two in range. -/
def IsDouble (y : Rat) : Prop :=
  ∃ (m : Int) (i j : Nat), m.natAbs < 2 ^ 53 ∧ i ≤ 971 ∧ j ≤ 1074 ∧
    y = mkRat (m * (2 ^ i : Nat)) (2 ^ j)

theorem Coord.Bounded.isDouble {nodes values : Nat} {z : Coord} (h : z.Bounded nodes values)
    (hnodes : nodes ≤ 2 ^ 26) (hvalues : values ≤ 2 ^ 26) : IsDouble z.x ∧ IsDouble z.y := by
  have hleft := h.left
  have hright := h.right
  obtain ⟨k, hk, hrow⟩ := h.row
  have hsquare : values * (values - 1) ≤ 2 ^ 26 * 2 ^ 26 :=
    Nat.mul_le_mul hvalues (Nat.le_trans (Nat.sub_le ..) hvalues)
  constructor
  · refine ⟨z.x, 0, 0, by omega, Nat.zero_le _, Nat.zero_le _, ?_⟩
    simp [Rat.mkRat_eq_div]
  · refine ⟨k, 0, 2, by omega, Nat.zero_le _, by omega, ?_⟩
    rw [hk]
    simp

/-! ## Drawings -/

/-- The places of all nodes and of the ends of all lines and shapes. -/
def Graph.coords (g : Graph) : List Coord :=
  g.nodes.map (·.coord) ++ (g.links ++ g.parentheses).flatMap (fun z => [z.1, z.2]) ++
    (g.forks ++ g.merges).flatten

namespace Compiled

variable {c : Compiled}

/-- The number of values that are left of the source, or one if there is none. -/
def values (c : Compiled) : Nat := max 1 (c.analysis.valid.countP Token.isValue)

theorem LiesAt.exists_node {i : Nat} {z : Coord} (h : c.LiesAt i z) :
    ∃ g ∈ c.graph.nodes, g.coord = z := by
  obtain ⟨g, ⟨k, -, hg⟩, hz⟩ := h
  exact ⟨g, List.mem_of_getElem? hg, hz⟩

theorem exists_node_of_line {zs : List (Coord × Coord)} {xs : List (Nat × Nat)}
    (h : List.Forall₂ (fun z x => c.LiesAt x.1 z.1 ∧ c.LiesAt x.2 z.2) zs xs) {y : Coord × Coord}
    (hy : y ∈ zs) {z : Coord} (hz : z = y.1 ∨ z = y.2) : ∃ g ∈ c.graph.nodes, g.coord = z := by
  obtain ⟨k, hk⟩ := List.mem_iff_getElem?.mp hy
  obtain ⟨x, -, hfrom, hto⟩ := exists_getElem?_right h hk
  rcases hz with rfl | rfl
  · exact hfrom.exists_node
  · exact hto.exists_node

theorem exists_node_of_star {zs : List (List Coord)} {xs : List (Nat × List Nat)}
    (h : List.Forall₂ (fun zs x => List.Forall₂ c.LiesAt (x.1 :: x.2) zs) zs xs)
    {ys : List Coord} (hys : ys ∈ zs) {z : Coord} (hz : z ∈ ys) :
    ∃ g ∈ c.graph.nodes, g.coord = z := by
  obtain ⟨k, hk⟩ := List.mem_iff_getElem?.mp hys
  obtain ⟨x, -, hx⟩ := exists_getElem?_right h hk
  obtain ⟨k, hk⟩ := List.mem_iff_getElem?.mp hz
  obtain ⟨i, -, hi⟩ := exists_getElem?_left hx hk
  exact hi.exists_node

theorem exists_node_of_mem_coords {s : Shapes} (hshapes : c.Depicts s) (htags : c.ShowsQuantifiers)
    {z : Coord} (hz : z ∈ c.graph.coords) : ∃ g ∈ c.graph.nodes, g.coord = z := by
  obtain ⟨gs, -, -, hparentheses⟩ := htags.parentheses
  simp only [Graph.coords, List.mem_append, List.mem_map, List.mem_flatMap, List.mem_flatten,
    List.mem_cons, List.not_mem_nil, or_false] at hz
  rcases hz with (hz | ⟨y, hy, hz⟩) | ⟨ys, hys, hz⟩
  · exact hz
  · rcases hy with hy | hy
    · exact exists_node_of_line hshapes.links hy hz
    · exact exists_node_of_line hparentheses hy hz
  · rcases hys with hys | hys
    · exact exists_node_of_star hshapes.forks hys hz
    · exact exists_node_of_star hshapes.merges hys hz

theorem Realizes.coords_nodes {A : Expression} (h : c.Realizes A)
    (hgraph : Graph.ofAutomaton c.automaton = .ok c.graph) :
    c.graph.nodes.map (·.coord) = A.diagram.map (·.2) := by
  obtain ⟨p, hp, -, -⟩ := Layout.ofAutomaton_automaton A
  have hplaces := Graph.map_coordAt (A.shows_nodes (Layout.settled_automaton hp)).1
  rw [← h.automaton] at hp
  rw [Graph.draw_of_ofAutomaton hp hgraph, Graph.draw, List.map_map, h.automaton]
  exact hplaces

theorem Realizes.bounded {A : Expression} (h : c.Realizes A)
    (hgraph : Graph.ofAutomaton c.automaton = .ok c.graph) :
    c.graph.nodes.length ≤ c.analysis.valid.length + 2 ∧
      ∀ g ∈ c.graph.nodes, g.coord.Bounded c.graph.nodes.length c.values := by
  have hcoords := h.coords_nodes hgraph
  have hlength : c.graph.nodes.length = A.diagram.length := by
    simpa using congrArg List.length hcoords
  have hbounded := A.bounded_diagram
  rw [h.tokens, ← hlength] at hbounded
  constructor
  · rw [hlength, ← h.tokens]
    exact A.length_diagram_le
  · intro g hg
    have hmem : g.coord ∈ A.diagram.map (·.2) := by
      rw [← hcoords]
      exact List.mem_map_of_mem hg
    obtain ⟨m, hm, hcoord⟩ := List.mem_map.mp hmem
    rw [← hcoord]
    exact hbounded m hm

end Compiled

/--
Every source is drawn in columns from 0 to the number of nodes but one, and in rows that are
quarters. For `n` values no row is more than `n * (n - 1)` quarters off the middle, so that doubles
hold all coordinates exactly for every source that is not longer than the service allows.
-/
theorem coordinates_exact (source : List Char) :
    ∃ c, compile source = .ok c ∧
      (∀ g ∈ c.graph.nodes, g.coord.Bounded c.graph.nodes.length c.values) ∧
      (source.length ≤ ({} : Service.Limits).regex →
        ∀ z ∈ c.graph.coords, IsDouble z.x ∧ IsDouble z.y) := by
  obtain ⟨c, a, A, hc, ha, hthrough, hA, htokens, -⟩ := exists_stages source
  obtain ⟨hnodes, hbounded⟩ := hA.bounded hthrough.graph
  refine ⟨c, hc, hbounded, fun hsource z hz => ?_⟩
  have hlimit : source.length ≤ 1000 := hsource
  have hvalid : c.analysis.valid.length ≤ 2 * source.length := by
    rw [← hA.tokens, htokens]
    exact Analysis.length_valid_le ha
  have hvalues : c.analysis.valid.countP Token.isValue ≤ c.analysis.valid.length :=
    List.countP_le_length
  have htags := hA.showsQuantifiers (htokens ▸ Analysis.nodup_valid ha)
  obtain ⟨g, hg, rfl⟩ := Compiled.exists_node_of_mem_coords hA.depicts htags hz
  apply (hbounded g hg).isDouble
  · omega
  · rw [Compiled.values]
    omega

end RegexDiagram
