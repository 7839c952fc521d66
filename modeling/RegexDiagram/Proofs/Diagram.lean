import RegexDiagram.Layout
import RegexDiagram.Proofs.Levels

/-!
The diagram of a syntax tree, drawn by recursion from its left end. A row of factors goes from left
to right. The alternatives of a level all start in one column, each in a row of its own, one column
behind their fork, and the level ends in the last of the columns in which they end. As the rows of
the first and the last alternative are as far above the fork as below it, a level goes on where it
started.

Automata are built from chains of alternations, so the diagram is also given in a form that goes
along the chain: `marks` takes the rows of all alternatives and hands them down.
-/
namespace RegexDiagram

namespace Fork

theorem stackedHeight_append (xs ys : List Nat) :
    stackedHeight (xs ++ ys) = stackedHeight xs + stackedHeight ys := by
  induction xs with
  | nil => simp [stackedHeight]
  | cons x xs ih => simp only [List.cons_append, stackedHeight, ih, Nat.add_assoc]

theorem exists_offset_ends {heights : List Nat} (h : heights ≠ []) :
    ∃ dy, offset? heights 0 = some (-dy) ∧ offset? heights (heights.length - 1) = some dy := by
  obtain ⟨first, tail, hfirst⟩ := List.exists_cons_of_ne_nil h
  obtain ⟨init, last, hlast⟩ := (List.eq_nil_or_concat' heights).resolve_left h
  have hhead : heights[0]? = some first := by rw [hfirst]; rfl
  have htop : heights.headD 0 = first := by rw [hfirst]; rfl
  have hend : heights[heights.length - 1]? = some last := by simp [hlast]
  have hbottom : heights.getLastD 0 = last := by simp [hlast]
  have htake : heights.take (heights.length - 1) = init := by simp [hlast]
  have htotal : stackedHeight heights = stackedHeight init + last := by
    rw [hlast, stackedHeight_append]
    rfl
  let below : Int := 2 * stackedHeight init + last - first
  have habove : offsetQuarters? heights 0 = some (-below) := by
    simp only [offsetQuarters?, hhead, htop, hbottom, htotal, List.take_zero, stackedHeight,
      Option.bind_eq_bind, Option.bind_some, Option.pure_def, Option.map_some, Option.some_inj]
    omega
  have hbelow : offsetQuarters? heights (heights.length - 1) = some below := by
    simp only [offsetQuarters?, hend, htake, htop, hbottom, htotal, Option.bind_eq_bind,
      Option.bind_some, Option.pure_def, Option.map_some, Option.some_inj]
    omega
  exact ⟨mkRat below 4, by rw [offset?, habove, Option.map_some, Rat.neg_mkRat],
    by rw [offset?, hbelow, Option.map_some]⟩

example : [0, 1].map (offset? [1, 2]) = [some (-(3 / 4)), some (3 / 4)] := by decide +kernel

end Fork

namespace Tree

variable {l : Precedence}

/-- The column in which a tree ends that starts in column `x`. -/
def exitColumn : {l : Precedence} → Tree l → Int → Int
  | _, value _ _ _, x => x
  | _, group _ _ _ _ body, x => body.exitColumn (x + 1) + 1
  | _, quantified a _ _ _ _, x => a.exitColumn x
  | _, concat f g _, x => g.exitColumn (f.exitColumn x + 1)
  | _, alternation e _ _ g, x => max (e.exitColumn x) (g.exitColumn x)

theorem branchSize_of_mem_alternatives (t : Tree l) {g : Sigma Tree} (hg : g ∈ t.alternatives) :
    g.2.branchSize ≤ t.branchSize ∧ (t.isChoice = true → g.2.branchSize < t.branchSize) := by
  induction t with
  | alternation e t ht f ihe _ =>
    have he := e.branchSize_pos
    have hf := f.branchSize_pos
    simp only [branchSize]
    rcases List.mem_append.mp hg with hg | hg
    · have := (ihe hg).1
      omega
    · obtain rfl := List.mem_singleton.mp hg
      simp only
      omega
  | _ =>
    obtain rfl := List.mem_singleton.mp hg
    exact ⟨Nat.le_refl _, by simp [isChoice]⟩

/-- What is drawn for a tree that starts at `x` and `y`. -/
def diagram : {l : Precedence} → Tree l → Int → Rat → List (Token × Coord)
  | _, value t _ _, x, y => [(t, ⟨x, y⟩)]
  | _, group opening closing _ _ body, x, y =>
      (opening, ⟨x, y⟩) :: body.diagram (x + 1) y
        ++ [(closing, ⟨body.exitColumn (x + 1) + 1, y⟩)]
  | _, quantified a _ _ _ _, x, y => a.diagram x y
  | _, concat f g _, x, y => f.diagram x y ++ g.diagram (f.exitColumn x + 1) y
  | _, alternation e t ht g, x, y =>
      (t, ⟨x - 1, y⟩) :: (alternation e t ht g).alternatives.attach.zipIdx.flatMap
        fun (⟨⟨_, f⟩, _⟩, b) =>
          f.diagram x (y + (Fork.offset? (alternation e t ht g).heights b).getD 0)
termination_by _ t => t.branchSize
decreasing_by
  · simp only [branchSize]
    omega
  · simp only [branchSize]
    omega
  · have := g.branchSize_pos
    simp only [branchSize]
    omega
  · have := f.branchSize_pos
    simp only [branchSize]
    omega
  · exact (branchSize_of_mem_alternatives _ ‹_›).2 rfl

/-- The row in which the alternative `b` of a level starts if the level starts in row `y`. -/
def rows (t : Tree l) (y : Rat) (b : Nat) : Rat :=
  if t.isChoice then y + (Fork.offset? t.heights b).getD 0 else y

/-- The fork of a level that starts at `x` and `y`, one column in front of it. -/
def forkMark (x : Int) (y : Rat) : {l : Precedence} → Tree l → List (Token × Coord)
  | _, alternation _ t _ _ => [(t, ⟨x - 1, y⟩)]
  | _, _ => []

/-- What is drawn for a tree behind its fork. All of its alternatives start in column `x`, and
`row` has the row of each. -/
def marks : {l : Precedence} → Tree l → Int → (Nat → Rat) → List (Token × Coord)
  | _, value t _ _, x, row => [(t, ⟨x, row 0⟩)]
  | _, group opening closing _ _ body, x, row =>
      (opening, ⟨x, row 0⟩)
        :: (body.forkMark (x + 1) (row 0) ++ body.marks (x + 1) (body.rows (row 0)))
        ++ [(closing, ⟨body.exitColumn (x + 1) + 1, row 0⟩)]
  | _, quantified a _ _ _ _, x, row => a.marks x row
  | _, concat f g _, x, row => f.marks x row ++ g.marks (f.exitColumn x + 1) row
  | _, alternation e _ _ g, x, row => e.marks x row ++ g.marks x fun _ => row e.branchCount

/-- What is drawn for a level that starts at `x` and `y`. -/
def levelMarks (t : Tree l) (x : Int) (y : Rat) : List (Token × Coord) :=
  t.forkMark x y ++ t.marks x (t.rows y)

theorem marks_congr (t : Tree l) (ht : t.isChoice = false) (x : Int) {row row' : Nat → Rat}
    (h : row 0 = row' 0) : t.marks x row = t.marks x row' := by
  induction t generalizing x with
  | value => simp only [marks, h]
  | group => simp only [marks, h]
  | quantified a t q hq hl ih => exact ih (a.isChoice_of_ne (by simp)) x
  | concat f g hl ihf ihg =>
    rw [marks, ihf (f.isChoice_of_ne (by simp)), ihg (g.isChoice_of_ne (by simp)), marks]
  | alternation => simp [isChoice] at ht

theorem forkMark_of_not_isChoice (t : Tree l) (ht : t.isChoice = false) (x : Int) (y : Rat) :
    t.forkMark x y = [] := by
  cases t with
  | alternation => simp [isChoice] at ht
  | _ => rfl

theorem levelMarks_of_not_isChoice (t : Tree l) (ht : t.isChoice = false) (x : Int)
    (row : Nat → Rat) : t.levelMarks x (row 0) = t.marks x row := by
  rw [levelMarks, t.forkMark_of_not_isChoice ht, List.nil_append]
  exact t.marks_congr ht x (by rw [rows, ht]; rfl)

theorem marks_eq_flatMap (t : Tree l) (x : Int) (row : Nat → Rat) :
    t.marks x row = t.alternatives.zipIdx.flatMap fun g => g.1.2.levelMarks x (row g.2) := by
  induction t generalizing x row with
  | alternation e t ht g ihe _ =>
    have hg := g.levelMarks_of_not_isChoice (g.isChoice_of_ne (by simp)) x
      fun _ => row e.branchCount
    have hcount : e.alternatives.length = e.branchCount := by
      rw [← length_heights, heights_eq, List.length_map]
    rw [marks, ihe, alternatives, List.zipIdx_append, List.flatMap_append, ← hg]
    simp [hcount]
  | _ =>
    refine (levelMarks_of_not_isChoice _ ?_ x row).symm.trans (List.append_nil _).symm
    rfl

theorem diagram_eq_levelMarks (t : Tree l) (x : Int) (y : Rat) :
    t.diagram x y = t.levelMarks x y := by
  induction l, t, x, y using diagram.induct with
  | case1 l t v ht x y =>
    rw [diagram]
    rfl
  | case2 l opening closing ho hc x y body ih =>
    rw [diagram, ih]
    rfl
  | case3 l a t q ht x y hl ih =>
    rw [diagram, ih]
    exact a.levelMarks_of_not_isChoice (a.isChoice_of_ne (by simp)) x fun _ => y
  | case4 l f g x y hl ihf ihg =>
    have hf := f.levelMarks_of_not_isChoice (f.isChoice_of_ne (by simp)) x fun _ => y
    have hg := g.levelMarks_of_not_isChoice (g.isChoice_of_ne (by simp)) (f.exitColumn x + 1)
      fun _ => y
    rw [diagram, ihf, ihg, hf, hg]
    rfl
  | case5 e t ht g x y ih =>
    have hattach : (alternation e t ht g).alternatives.zipIdx =
        (alternation e t ht g).alternatives.attach.zipIdx.map (Prod.map Subtype.val id) := by
      rw [← List.zipIdx_map, List.attach_map_subtype_val]
    rw [diagram, levelMarks, marks_eq_flatMap, hattach, List.flatMap_map]
    refine congrArg (_ :: ·) (List.flatMap_congr fun h _ => ?_)
    exact ih _ _ h.1.2 h.2

/-- Where the alternatives end. -/
def exitPlaces : {l : Precedence} → Tree l → Int → (Nat → Rat) → List Coord
  | _, alternation e _ _ g, x, row => e.exitPlaces x row ++ [⟨g.exitColumn x, row e.branchCount⟩]
  | _, t, x, row => [⟨t.exitColumn x, row 0⟩]

theorem exitPlaces_of_not_isChoice (t : Tree l) (ht : t.isChoice = false) (x : Int)
    (row : Nat → Rat) : t.exitPlaces x row = [⟨t.exitColumn x, row 0⟩] := by
  cases t with
  | alternation => simp [isChoice] at ht
  | _ => rfl

theorem length_exitPlaces (t : Tree l) (x : Int) (row : Nat → Rat) :
    (t.exitPlaces x row).length = t.branchCount := by
  induction t with
  | alternation e t ht g ihe _ => simp [exitPlaces, branchCount, ihe]
  | _ => rfl

/-- The places in which alternatives end: the last of their columns, and the rows of the first and
the last alternative. -/
structure Ends (first : Coord) (others : List Coord) (column : Int) (top bottom : Rat) : Prop where
  column : others.foldl (fun x c => max x c.x) first.x = column
  top : first.y = top
  bottom : (others.getLastD first).y = bottom

theorem exists_exitPlaces (t : Tree l) (x : Int) (row : Nat → Rat) :
    ∃ first others, t.exitPlaces x row = first :: others ∧
      Ends first others (t.exitColumn x) (row 0) (row (t.branchCount - 1)) := by
  induction t with
  | alternation e t ht g ihe _ =>
    obtain ⟨first, others, hexits, hends⟩ := ihe
    refine ⟨first, others ++ [⟨g.exitColumn x, row e.branchCount⟩], ?_, ?_, hends.top, ?_⟩
    · rw [exitPlaces, hexits, List.cons_append]
    · rw [List.foldl_append, hends.column]
      rfl
    · simp [branchCount]
  | _ => exact ⟨_, [], rfl, rfl, rfl, rfl⟩

theorem rows_ends (t : Tree l) (y : Rat) : (t.rows y 0 + t.rows y (t.branchCount - 1)) / 2 = y := by
  have hne : t.heights ≠ [] := by
    intro h
    have := t.length_heights
    have := t.branchCount_pos
    simp_all
  obtain ⟨dy, htop, hbottom⟩ := Fork.exists_offset_ends hne
  rw [length_heights] at hbottom
  cases hc : t.isChoice with
  | false =>
    simp only [rows, hc, Bool.false_eq_true, if_false]
    grind
  | true =>
    simp only [rows, hc, if_true, htop, hbottom, Option.getD_some]
    grind

theorem meet_exitPlaces (t : Tree l) (x : Int) (y : Rat) {first : Coord} {others : List Coord}
    (h : t.exitPlaces x (t.rows y) = first :: others) :
    first.meet others = ⟨t.exitColumn x + 1, y⟩ := by
  obtain ⟨first', others', hexits, hends⟩ := t.exists_exitPlaces x (t.rows y)
  obtain ⟨rfl, rfl⟩ := List.cons.inj (hexits.symm.trans h)
  rw [Coord.meet, hends.column, hends.top, hends.bottom, rows_ends]

end Tree

/-- The diagram of a whole regex. -/
def Expression.diagram : Expression → List (Symbol × Coord)
  | none => [(.first, ⟨0, 0⟩), (.last, ⟨1, 0⟩)]
  | some e =>
      (.first, ⟨0, 0⟩) :: (e.diagram 1 0).map (fun m => (.token m.1, m.2))
        ++ [(.last, ⟨e.exitColumn 1 + 1, 0⟩)]

end RegexDiagram
