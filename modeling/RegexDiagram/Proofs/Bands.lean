import Mathlib.Algebra.Order.Ring.Rat
import Mathlib.Tactic.Linarith
import Mathlib.Tactic.Ring
import RegexDiagram.Proofs.Drawing

/-!
The bands of alternatives. The alternatives of a level are stacked, each in a band as tall as its
height. A level starts in the middle between its first and its last alternative, though, and that is
not the middle of the stack if these two are not equally tall. So what is drawn for a group may be
out of its band, and for groups inside each other this adds up to the drift of a tree.
-/
namespace RegexDiagram

/-- A direction across the rows of a drawing. -/
inductive Side
  | above
  | below
deriving DecidableEq

/-- Rows are numbered from top to bottom. -/
def Side.sign : Side → Int
  | above => -1
  | below => 1

/-! ## Stacks -/

namespace Fork

variable {heights : List Nat} {b b' h h' : Nat} {dy dy' : Rat}

/-- The height of what is stacked between two branches. -/
def between (heights : List Nat) (b b' : Nat) : Nat :=
  stackedHeight ((heights.take b').drop (b + 1))

/-- How far the middle of the stack is to a side of the fork, in quarters. -/
def tilt (s : Side) (heights : List Nat) : Int :=
  s.sign * (heights.getLastD 0 - heights.headD 0)

theorem stackedHeight_take_succ (hb : heights[b]? = some h) :
    stackedHeight (heights.take (b + 1)) = stackedHeight (heights.take b) + h := by
  rw [List.take_add_one, hb, stackedHeight_append]
  rfl

theorem stackedHeight_take_le (heights : List Nat) (b : Nat) :
    stackedHeight (heights.take b) ≤ stackedHeight heights := by
  have h := stackedHeight_append (heights.take b) (heights.drop b)
  rw [List.take_append_drop] at h
  omega

theorem stackedHeight_between (hb : heights[b]? = some h) (hlt : b < b') :
    stackedHeight (heights.take b') =
      stackedHeight (heights.take b) + h + between heights b b' := by
  have hsplit := stackedHeight_append ((heights.take b').take (b + 1))
    ((heights.take b').drop (b + 1))
  rw [List.take_append_drop, List.take_take, Nat.min_eq_left hlt, stackedHeight_take_succ hb]
    at hsplit
  exact hsplit

theorem four_mul_offset (hb : heights[b]? = some h) (hdy : offset? heights b = some dy) :
    4 * dy = 4 * stackedHeight (heights.take b) + 2 * h
      - (heights.headD 0 + 2 * stackedHeight heights - heights.getLastD 0) := by
  simp only [offset?, offsetQuarters?, hb, Option.bind_eq_bind, Option.bind_some, Option.pure_def,
    Option.map_some, Option.some_inj] at hdy
  rw [← hdy, Rat.mkRat_eq_div]
  push_cast
  ring

theorem four_mul_offset_sub (hb : heights[b]? = some h) (hb' : heights[b']? = some h')
    (hlt : b < b') (hdy : offset? heights b = some dy) (hdy' : offset? heights b' = some dy') :
    4 * (dy' - dy) = 2 * h + 4 * between heights b b' + 2 * h' := by
  have hbetween : (stackedHeight (heights.take b') : Rat) =
      stackedHeight (heights.take b) + h + between heights b b' := by
    exact_mod_cast stackedHeight_between hb hlt
  rw [mul_sub, four_mul_offset hb hdy, four_mul_offset hb' hdy', hbetween]
  ring

theorem sign_mul_offset_le (s : Side) (hb : heights[b]? = some h)
    (hdy : offset? heights b = some dy) :
    s.sign * (4 * dy) + 2 * h ≤ 2 * stackedHeight heights + tilt s heights := by
  have hend : ((stackedHeight (heights.take b) + h : Nat) : Rat) ≤ stackedHeight heights := by
    rw [← stackedHeight_take_succ hb]
    exact_mod_cast stackedHeight_take_le heights (b + 1)
  have hstart : (0 : Rat) ≤ stackedHeight (heights.take b) := Nat.cast_nonneg _
  rw [four_mul_offset hb hdy, tilt]
  push_cast at hend ⊢
  cases s with
  | above =>
    simp only [Side.sign]
    push_cast
    linarith
  | below =>
    simp only [Side.sign]
    push_cast
    linarith

end Fork

/-! ## Drift -/

namespace Tree

variable {l : Precedence}

theorem height_pos (t : Tree l) : 1 ≤ t.height := by
  induction t with
  | value => exact Nat.le_refl 1
  | group opening closing ho hc body ih => exact ih
  | quantified a t q hq hl ih => exact ih
  | concat f g hl ihf _ => exact Nat.le_trans ihf (Nat.le_max_left ..)
  | alternation e t ht g ihe _ => exact Nat.le_trans ihe (Nat.le_add_right ..)

theorem alternatives_of_not_isChoice (t : Tree l) (ht : t.isChoice = false) :
    t.alternatives = [⟨l, t⟩] := by
  cases t with
  | alternation => simp [isChoice] at ht
  | _ => rfl

theorem alternatives_ne_nil (t : Tree l) : t.alternatives ≠ [] := by
  cases t <;> simp [alternatives]

/-- Induction over the trees that are alternatives: of the content of a group, the property is known
of all alternatives. -/
theorem forall_alternatives {P : Sigma Tree → Prop}
    (value : ∀ {l} t v ht, P ⟨l, value t v ht⟩)
    (group : ∀ {l} opening closing ho hc body, (∀ g ∈ body.alternatives, P g) →
      P ⟨l, group opening closing ho hc body⟩)
    (quantified : ∀ {l} a t q ht hl, P ⟨.atom, a⟩ → P ⟨l, quantified a t q ht hl⟩)
    (concat : ∀ {l} f g hl, P ⟨.term, f⟩ → P ⟨.factor, g⟩ → P ⟨l, concat f g hl⟩)
    (t : Tree l) : ∀ g ∈ t.alternatives, P g := by
  have hself {l : Precedence} {t : Tree l} (hl : l ≠ .expr) (h : ∀ g ∈ t.alternatives, P g) :
      P ⟨l, t⟩ := by
    rw [t.alternatives_of_not_isChoice (t.isChoice_of_ne hl)] at h
    exact h _ List.mem_cons_self
  induction t with
  | value t v ht => simpa [alternatives] using value t v ht
  | group opening closing ho hc body ih =>
    simpa [alternatives] using group opening closing ho hc body ih
  | quantified a t q ht hl ih =>
    simpa [alternatives] using quantified a t q ht hl (hself (by simp) ih)
  | concat f g hl ihf ihg =>
    simpa [alternatives] using concat f g hl (hself (by simp) ihf) (hself (by simp) ihg)
  | alternation e t ht g ihe ihg =>
    intro f hf
    rcases List.mem_append.mp hf with hf | hf
    · exact ihe f hf
    · obtain rfl := List.mem_singleton.mp hf
      exact hself (by simp) ihg

/-- How far what is drawn for an alternative gets out of its band, in quarters. -/
def branchDrift (s : Side) : {l : Precedence} → Tree l → Int
  | _, value _ _ _ => 0
  | _, group _ _ _ _ body => Fork.tilt s body.heights + body.branchDrift s
  | _, quantified a _ _ _ _ => a.branchDrift s
  | _, concat f g _ => max (f.branchDrift s) (g.branchDrift s)
  | _, alternation e _ _ g => max (e.branchDrift s) (g.branchDrift s)

/-- How far what is drawn for a tree gets out of the rows around its start, in quarters. -/
def drift (s : Side) (t : Tree l) : Int := Fork.tilt s t.heights + t.branchDrift s

theorem stackedHeight_heights (t : Tree l) : Fork.stackedHeight t.heights = t.height := by
  induction t with
  | alternation e t ht g ihe _ =>
    rw [heights, Fork.stackedHeight_append, ihe, height]
    rfl
  | _ => rfl

theorem drift_of_not_isChoice (t : Tree l) (ht : t.isChoice = false) (s : Side) :
    t.drift s = t.branchDrift s := by
  rw [drift, (t.single_branch ht 0).2.2.1]
  simp [Fork.tilt]

@[simp] theorem drift_value (t : Token) (v : Value) (ht : t.piece = .value v) (s : Side) :
    (value t v ht : Tree l).drift s = 0 :=
  drift_of_not_isChoice _ rfl s

@[simp] theorem drift_group (opening closing : Token) (ho : opening.piece = .groupOpen)
    (hc : closing.piece = .groupClose) (body : Tree .expr) (s : Side) :
    (group opening closing ho hc body : Tree l).drift s = body.drift s :=
  drift_of_not_isChoice _ rfl s

@[simp] theorem drift_quantified (a : Tree .atom) (t : Token) (q : Quantifier)
    (ht : t.piece = .quantifier q) (hl : l ≠ .atom) (s : Side) :
    (quantified a t q ht hl : Tree l).drift s = a.drift s := by
  rw [drift_of_not_isChoice _ rfl, a.drift_of_not_isChoice (a.isChoice_of_ne (by simp)),
    branchDrift]

@[simp] theorem drift_concat (f : Tree .term) (g : Tree .factor) (hl : l = .term ∨ l = .expr)
    (s : Side) : (concat f g hl : Tree l).drift s = max (f.drift s) (g.drift s) := by
  rw [drift_of_not_isChoice _ rfl, f.drift_of_not_isChoice (f.isChoice_of_ne (by simp)),
    g.drift_of_not_isChoice (g.isChoice_of_ne (by simp)), branchDrift]

theorem drift_le_branchDrift (t : Tree l) (s : Side) :
    ∀ g ∈ t.alternatives, g.2.drift s ≤ t.branchDrift s := by
  induction t with
  | alternation e t ht g ihe _ =>
    intro f hf
    rcases List.mem_append.mp hf with hf | hf
    · exact Int.le_trans (ihe f hf) (Int.le_max_left ..)
    · obtain rfl := List.mem_singleton.mp hf
      rw [g.drift_of_not_isChoice (g.isChoice_of_ne (by simp))]
      exact Int.le_max_right ..
  | _ =>
    intro f hf
    obtain rfl := List.mem_singleton.mp hf
    exact Int.le_of_eq (drift_of_not_isChoice _ rfl s)

theorem exists_end_alternatives (t : Tree l) :
    ∃ f ∈ t.alternatives, ∃ g ∈ t.alternatives, t.heights.headD 0 = f.2.height ∧
      t.heights.getLastD 0 = g.2.height := by
  obtain ⟨f, rest, hfirst⟩ := List.exists_cons_of_ne_nil t.alternatives_ne_nil
  obtain ⟨init, g, hlast⟩ :=
    (List.eq_nil_or_concat' t.alternatives).resolve_left t.alternatives_ne_nil
  refine ⟨f, by simp [hfirst], g, by simp [hlast], ?_, ?_⟩
  · rw [heights_eq, hfirst]
    rfl
  · rw [heights_eq, hlast]
    simp

theorem height_le_of_mem (t : Tree l) : ∀ g ∈ t.alternatives, g.2.height ≤ t.height := by
  induction t with
  | alternation e t ht g ihe _ =>
    intro f hf
    rw [height]
    rcases List.mem_append.mp hf with hf | hf
    · exact Nat.le_trans (ihe f hf) (Nat.le_add_right ..)
    · obtain rfl := List.mem_singleton.mp hf
      exact Nat.le_add_left ..
  | _ =>
    intro f hf
    obtain rfl := List.mem_singleton.mp hf
    exact Nat.le_refl _

/-- A level gets as far to a side as its start, if its alternatives do. -/
theorem height_add_drift_pos_of (t : Tree l) (s : Side)
    (h : ∀ g ∈ t.alternatives, 1 ≤ g.2.height + g.2.drift s) : 1 ≤ t.height + t.drift s := by
  obtain ⟨f, hf, g, hg, hfirst, hlast⟩ := t.exists_end_alternatives
  have hdriftf := t.drift_le_branchDrift s f hf
  have hdriftg := t.drift_le_branchDrift s g hg
  have hheightf := t.height_le_of_mem f hf
  have hheightg := t.height_le_of_mem g hg
  have hposf := h f hf
  have hposg := h g hg
  rw [drift, Fork.tilt, hfirst, hlast]
  cases s with
  | above =>
    simp only [Side.sign]
    omega
  | below =>
    simp only [Side.sign]
    omega

theorem height_add_drift_pos (t : Tree l) (s : Side) : 1 ≤ t.height + t.drift s := by
  refine t.height_add_drift_pos_of s (forall_alternatives ?_ ?_ ?_ ?_ t)
  · intro l t v ht
    simp [height]
  · intro l opening closing ho hc body h
    simpa [height] using body.height_add_drift_pos_of s h
  · intro l a t q ht hl h
    simpa [height] using h
  · intro l f g hl hf _
    simp only [height, drift_concat] at hf ⊢
    omega

/-! ## Bands -/

/-- The place is at most as far to a side of row `y`, where the tree starts, as the height and the
drift of the tree allow. -/
def Within (s : Side) (t : Tree l) (y : Rat) (c : Coord) : Prop :=
  s.sign * (4 * (c.y - y)) ≤ 2 * (t.height : Rat) - 2 + t.drift s

theorem within_self (s : Side) (t : Tree l) (x : Int) (y : Rat) : t.Within s y ⟨x, y⟩ := by
  have hdrift : (1 : Rat) ≤ t.height + t.drift s := by exact_mod_cast t.height_add_drift_pos s
  have hheight : (1 : Rat) ≤ t.height := by exact_mod_cast t.height_pos
  unfold Within
  rw [sub_self, mul_zero, mul_zero]
  linarith

theorem Within.mono {k : Precedence} {s : Side} {t : Tree l} {t' : Tree k} {y : Rat} {c : Coord}
    (h : t.Within s y c) (hheight : t.height ≤ t'.height) (hdrift : t.drift s ≤ t'.drift s) :
    t'.Within s y c := by
  have hheight' : (t.height : Rat) ≤ t'.height := by exact_mod_cast hheight
  have hdrift' : (t.drift s : Rat) ≤ t'.drift s := by exact_mod_cast hdrift
  unfold Within at h ⊢
  linarith

theorem heights_getElem? {e : Tree l} {b : Nat} {g : Sigma Tree}
    (hg : e.alternatives[b]? = some g) : e.heights[b]? = some g.2.height := by
  rw [heights_eq, List.getElem?_map, hg]
  rfl

theorem exists_rows {e : Tree l} {b : Nat} {g : Sigma Tree} (hg : e.alternatives[b]? = some g)
    (y : Rat) : ∃ dy, Fork.offset? e.heights b = some dy ∧ e.rows y b = y + dy := by
  have hheight := heights_getElem? hg
  obtain ⟨dy, hdy⟩ := Layout.offset?_isSome (List.getElem?_eq_some_iff.mp hheight).1
  refine ⟨dy, hdy, ?_⟩
  cases he : e.isChoice with
  | true => simp [rows, he, hdy]
  | false =>
    have hfour := Fork.four_mul_offset hheight hdy
    rw [(e.single_branch he 0).2.2.1] at hheight hfour
    obtain ⟨hb, hself⟩ := List.getElem?_eq_some_iff.mp hheight
    obtain rfl : b = 0 := by simpa using hb
    simp [Fork.stackedHeight, ← hself] at hfour
    simp [rows, he, hfour]

theorem diagram_eq_flatMap (t : Tree l) (x : Int) (y : Rat) :
    t.diagram x y = t.forkMark x y ++
      t.alternatives.zipIdx.flatMap fun g => g.1.2.diagram x (t.rows y g.2) := by
  rw [diagram_eq_levelMarks, levelMarks, marks_eq_flatMap]
  simp only [diagram_eq_levelMarks]

theorem mem_forkMark {t : Tree l} {x : Int} {y : Rat} {m : Token × Coord}
    (hm : m ∈ t.forkMark x y) : m.2 = ⟨x - 1, y⟩ ∧ m.1.piece = .alternation ∧ m.1 ∈ t.tokens := by
  cases t with
  | alternation e t ht g =>
    obtain rfl := List.mem_singleton.mp hm
    exact ⟨rfl, ht, by simp [tokens]⟩
  | _ => simp [forkMark] at hm

/-- What is drawn for a level is within it, if what is drawn for its alternatives is. -/
theorem within_diagram_of (t : Tree l) (s : Side)
    (h : ∀ g ∈ t.alternatives, ∀ x y, ∀ m ∈ g.2.diagram x y, g.2.Within s y m.2) (x : Int)
    (y : Rat) : ∀ m ∈ t.diagram x y, t.Within s y m.2 := by
  intro m hm
  rw [diagram_eq_flatMap] at hm
  rcases List.mem_append.mp hm with hfork | hbranch
  · rw [(mem_forkMark hfork).1]
    exact t.within_self s _ y
  obtain ⟨⟨g, b⟩, hg, hm⟩ := List.mem_flatMap.mp hbranch
  have hg := List.mem_zipIdx_iff_getElem?.mp hg
  have hmem := List.mem_of_getElem? hg
  obtain ⟨dy, hdy, hrow⟩ := exists_rows hg y
  have hwithin := h g hmem x _ m hm
  have hoffset := Fork.sign_mul_offset_le s (heights_getElem? hg) hdy
  have hdrift : (g.2.drift s : Rat) ≤ t.branchDrift s := by
    exact_mod_cast t.drift_le_branchDrift s g hmem
  rw [stackedHeight_heights] at hoffset
  unfold Within at hwithin ⊢
  rw [hrow] at hwithin
  unfold drift
  push_cast
  linarith

/-- What is drawn for an alternative is in its band, but for its drift. -/
theorem within_diagram (t : Tree l) (s : Side) :
    ∀ g ∈ t.alternatives, ∀ x y, ∀ m ∈ g.2.diagram x y, g.2.Within s y m.2 := by
  refine forall_alternatives ?_ ?_ ?_ ?_ t
  · intro l t v ht x y m hm
    rw [diagram] at hm
    obtain rfl := List.mem_singleton.mp hm
    exact within_self ..
  · intro l opening closing ho hc body h x y m hm
    have hbody := body.within_diagram_of s h (x + 1) y
    rw [diagram] at hm
    rcases List.mem_append.mp hm with hm | hm
    · rcases List.mem_cons.mp hm with rfl | hm
      · exact within_self ..
      · exact (hbody m hm).mono (Nat.le_refl _) (by simp)
    · obtain rfl := List.mem_singleton.mp hm
      exact within_self ..
  · intro l a t q ht hl h x y m hm
    rw [diagram] at hm
    exact (h x y m hm).mono (Nat.le_refl _) (by simp)
  · intro l f g hl hf hg x y m hm
    rw [diagram] at hm
    rcases List.mem_append.mp hm with hm | hm
    · exact (hf x y m hm).mono (Nat.le_max_left ..) (by simp)
    · exact (hg _ y m hm).mono (Nat.le_max_right ..) (by simp)

/-! ## Columns -/

theorem le_exitColumn (t : Tree l) (x : Int) : x ≤ t.exitColumn x := by
  induction t generalizing x with
  | value => exact Int.le_refl x
  | group opening closing ho hc body ih =>
    have := ih (x + 1)
    simp only [exitColumn]
    omega
  | quantified a t q hq hl ih => exact ih x
  | concat f g hl ihf ihg =>
    have := ihf x
    have := ihg (f.exitColumn x + 1)
    simp only [exitColumn]
    omega
  | alternation e t ht g ihe _ => exact Int.le_trans (ihe x) (Int.le_max_left ..)

/-- Behind its fork a tree is drawn from the column where it starts to the one where it ends. -/
theorem column_marks (t : Tree l) (x : Int) (row : Nat → Rat) :
    ∀ m ∈ t.marks x row, x ≤ m.2.x ∧ m.2.x ≤ t.exitColumn x := by
  induction t generalizing x row with
  | value =>
    intro m hm
    obtain rfl := List.mem_singleton.mp hm
    exact ⟨Int.le_refl _, Int.le_refl _⟩
  | group opening closing ho hc body ih =>
    intro m hm
    have hexit := body.le_exitColumn (x + 1)
    simp only [exitColumn]
    rw [marks] at hm
    rcases List.mem_append.mp hm with hm | hm
    · rcases List.mem_cons.mp hm with rfl | hm
      · simp only
        omega
      · rcases List.mem_append.mp hm with hm | hm
        · rw [(mem_forkMark hm).1]
          simp only
          omega
        · have := ih _ _ m hm
          omega
    · obtain rfl := List.mem_singleton.mp hm
      simp only
      omega
  | quantified a t q hq hl ih => exact ih x row
  | concat f g hl ihf ihg =>
    intro m hm
    have hf := f.le_exitColumn x
    have hg := g.le_exitColumn (f.exitColumn x + 1)
    simp only [exitColumn]
    rcases List.mem_append.mp hm with hm | hm
    · have := ihf x row m hm
      omega
    · have := ihg _ row m hm
      omega
  | alternation e t ht g ihe ihg =>
    intro m hm
    simp only [exitColumn]
    rcases List.mem_append.mp hm with hm | hm
    · have := ihe x row m hm
      omega
    · have := ihg x _ m hm
      omega

theorem tokens_marks (t : Tree l) (x : Int) (row : Nat → Rat) :
    ∀ m ∈ t.marks x row, m.1 ∈ t.tokens := by
  induction t generalizing x row with
  | value =>
    intro m hm
    obtain rfl := List.mem_singleton.mp hm
    exact List.mem_cons_self
  | group opening closing ho hc body ih =>
    intro m hm
    rw [marks] at hm
    simp only [tokens, List.mem_cons, List.mem_append]
    rcases List.mem_append.mp hm with hm | hm
    · rcases List.mem_cons.mp hm with rfl | hm
      · exact .inl rfl
      · rcases List.mem_append.mp hm with hm | hm
        · exact .inr (.inl (mem_forkMark hm).2.2)
        · exact .inr (.inl (ih _ _ m hm))
    · obtain rfl := List.mem_singleton.mp hm
      exact .inr (.inr (.inl rfl))
  | quantified a t q hq hl ih =>
    intro m hm
    exact List.mem_append_left _ (ih x row m hm)
  | concat f g hl ihf ihg =>
    intro m hm
    rcases List.mem_append.mp hm with hm | hm
    · exact List.mem_append_left _ (ihf x row m hm)
    · exact List.mem_append_right _ (ihg _ row m hm)
  | alternation e t ht g ihe ihg =>
    intro m hm
    rcases List.mem_append.mp hm with hm | hm
    · exact List.mem_append_left _ (ihe x row m hm)
    · exact List.mem_append_right _ (List.mem_cons_of_mem _ (ihg x _ m hm))

end Tree

end RegexDiagram
