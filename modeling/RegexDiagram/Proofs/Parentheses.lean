import Mathlib.Algebra.Ring.Int.Defs
import Mathlib.Data.Nat.Find
import RegexDiagram.Piece

/-!
Matching parentheses. Two parentheses match if what stands between them is balanced. The height of a
place counts the parentheses in front of it, the closing ones negatively; rows are balanced, and
parentheses match, by what the heights are in between. A group is open at a place if its opening
parenthesis comes earlier and has not been matched so far; the open groups form a stack.
-/
namespace RegexDiagram

/-- How much a piece raises the number of open groups. -/
def Piece.rise : Piece → Int
  | groupOpen => 1
  | groupClose => -1
  | _ => 0

theorem Piece.rise_of_ne {p : Piece} (ho : p ≠ groupOpen) (hc : p ≠ groupClose) : p.rise = 0 := by
  cases p <;> simp_all [rise]

theorem Piece.eq_groupClose_of_rise {p : Piece} (h : p.rise < 0) : p = groupClose := by
  cases p <;> simp_all [rise]

/-- A row of pieces in which each parenthesis has its counterpart. -/
inductive Balanced : List Piece → Prop
  | nil : Balanced []
  | other {p : Piece} {ps : List Piece} (ho : p ≠ .groupOpen) (hc : p ≠ .groupClose)
      (h : Balanced ps) : Balanced (p :: ps)
  | group {ps qs : List Piece} (hp : Balanced ps) (hq : Balanced qs) :
      Balanced (.groupOpen :: (ps ++ .groupClose :: qs))

/-- How many more parentheses have been opened than closed in front of a place. -/
def height (ps : List Piece) (k : Nat) : Int := ((ps.take k).map Piece.rise).sum

section Height

variable {ps qs : List Piece} {p : Piece} {i k : Nat}

@[simp] theorem height_zero (ps : List Piece) : height ps 0 = 0 := rfl

@[simp] theorem height_nil (k : Nat) : height [] k = 0 := by simp [height]

@[simp] theorem height_cons_succ (p : Piece) (ps : List Piece) (k : Nat) :
    height (p :: ps) (k + 1) = p.rise + height ps k := by simp [height]

theorem height_succ (hp : ps[k]? = some p) : height ps (k + 1) = height ps k + p.rise := by
  simp [height, List.take_add_one, hp]

theorem height_succ_of_none (hp : ps[k]? = none) : height ps (k + 1) = height ps k := by
  simp [height, List.take_add_one, hp]

theorem height_append (ps qs : List Piece) (k : Nat) :
    height (ps ++ qs) k = height ps k + height qs (k - ps.length) := by
  simp [height, List.take_append]

theorem height_drop (ps : List Piece) (i k : Nat) :
    height (ps.drop i) k = height ps (i + k) - height ps i := by
  simp only [height, List.take_add, List.map_append, List.sum_append]
  omega

theorem height_take (ps : List Piece) (j k : Nat) :
    height (ps.take j) k = height ps (min k j) := by
  rw [height, height, List.take_take]

theorem height_of_length_le (h : ps.length ≤ k) : height ps k = height ps ps.length := by
  rw [height, height, List.take_of_length_le h, List.take_length]

/-- Where a row first gets below the height of a place, a group is closed. -/
theorem exists_first_below (hik : i ≤ k) (h : height ps k < height ps i) :
    ∃ m, i ≤ m ∧ m < k ∧ ps[m]? = some .groupClose ∧ height ps m = height ps i ∧
      ∀ n, i ≤ n → n ≤ m → height ps i ≤ height ps n := by
  have hbelow : ∃ m, i ≤ m ∧ height ps m < height ps i := ⟨k, hik, h⟩
  obtain ⟨m, ⟨him, hm⟩, hleast⟩ : ∃ m, (i ≤ m ∧ height ps m < height ps i) ∧
      ∀ n < m, i ≤ n → height ps i ≤ height ps n :=
    ⟨Nat.find hbelow, Nat.find_spec hbelow, fun n hn hin =>
      Int.not_lt.mp fun hlt => Nat.find_min hbelow hn ⟨hin, hlt⟩⟩
  have hmk : m ≤ k := by
    by_contra hlt
    have hle := hleast k (by omega) hik
    omega
  have hne : m ≠ i := by
    rintro rfl
    omega
  obtain ⟨m, rfl⟩ := Nat.exists_eq_add_one_of_ne_zero (show m ≠ 0 by omega)
  have hle := hleast m (Nat.lt_succ_self m) (by omega)
  cases hp : ps[m]? with
  | none =>
    rw [height_succ_of_none hp] at hm
    omega
  | some p =>
    rw [height_succ hp] at hm
    obtain rfl := Piece.eq_groupClose_of_rise (p := p) (by omega)
    rw [Piece.rise] at hm
    exact ⟨m, by omega, by omega, hp, by omega, fun n hin hnm => hleast n (by omega) hin⟩

end Height

theorem Balanced.heights {ps : List Piece} (h : Balanced ps) :
    height ps ps.length = 0 ∧ ∀ k, 0 ≤ height ps k := by
  induction h with
  | nil => simp
  | other ho hc _ ih =>
    have hrise := Piece.rise_of_ne ho hc
    refine ⟨by simpa [hrise] using ih.1, fun k => ?_⟩
    cases k with
    | zero => simp
    | succ k => simpa [hrise] using ih.2 k
  | @group ps qs _ _ ihp ihq =>
    have hbehind (k : Nat) (hk : ps.length ≤ k) :
        1 + height (ps ++ .groupClose :: qs) (k + 1) = height qs (k - ps.length) := by
      rw [height_append, height_of_length_le (Nat.le_succ_of_le hk), ihp.1,
        Nat.succ_sub hk, height_cons_succ, Piece.rise]
      omega
    refine ⟨?_, fun k => ?_⟩
    · rw [List.length_cons, height_cons_succ, Piece.rise, List.length_append, List.length_cons,
        ← Nat.add_assoc, hbehind _ (Nat.le_add_right _ _), Nat.add_sub_cancel_left, ihq.1]
    · cases k with
      | zero => simp
      | succ k =>
        rw [height_cons_succ, Piece.rise]
        rcases Nat.lt_or_ge ps.length k with hk | hk
        · obtain ⟨k, rfl⟩ := Nat.exists_eq_add_one_of_ne_zero (show k ≠ 0 by omega)
          rw [hbehind k (by omega)]
          exact ihq.2 _
        · have hp := ihp.2 k
          rw [height_append, Nat.sub_eq_zero_of_le hk, height_zero]
          omega

/-- A row is balanced if it ends at the height it starts at, without going below it. -/
theorem balanced_of_heights (ps : List Piece) (hend : height ps ps.length = 0)
    (hnonneg : ∀ k, 0 ≤ height ps k) : Balanced ps := by
  match ps with
  | [] => exact .nil
  | p :: qs =>
    rw [List.length_cons, height_cons_succ] at hend
    have hheights (k : Nat) : 0 ≤ p.rise + height qs k := by
      simpa using hnonneg (k + 1)
    by_cases hc : p = .groupClose
    · have hfirst := hheights 0
      simp [hc, Piece.rise] at hfirst
    · by_cases ho : p = .groupOpen
      · subst ho
        simp only [Piece.rise] at hend hheights
        have hlow : height qs qs.length < height qs 0 := by
          rw [height_zero]
          omega
        obtain ⟨m, -, hlt, hm, hzero, hinside⟩ := exists_first_below (Nat.zero_le qs.length) hlow
        rw [height_zero] at hzero hinside
        have hsplit : qs = qs.take m ++ .groupClose :: qs.drop (m + 1) := by
          rw [← (List.getElem?_eq_some_iff.mp hm).2, ← List.drop_eq_getElem_cons hlt,
            List.take_append_drop]
        have hbehind : height qs (m + 1) = -1 := by
          rw [height_succ hm, hzero, Piece.rise, Int.zero_add]
        have hcontent : Balanced (qs.take m) := by
          refine balanced_of_heights _ ?_ fun k => ?_
          · rw [height_take, List.length_take_of_le (Nat.le_of_lt hlt), Nat.min_self, hzero]
          · rw [height_take]
            exact hinside _ (Nat.zero_le _) (Nat.min_le_right _ _)
        have hrest : Balanced (qs.drop (m + 1)) := by
          refine balanced_of_heights _ ?_ fun k => ?_
          · rw [height_drop, List.length_drop, hbehind, Nat.add_sub_of_le hlt]
            omega
          · have hk := hheights (m + 1 + k)
            rw [height_drop, hbehind]
            omega
        rw [hsplit]
        exact .group hcontent hrest
      · rw [Piece.rise_of_ne ho hc] at hend hheights
        exact .other ho hc (balanced_of_heights qs (by omega) fun k => by
          have hk := hheights k
          omega)
termination_by ps.length
decreasing_by all_goals simp_wf; try omega

/-- Two parentheses match if what stands between them is balanced. -/
structure Matched (ps : List Piece) (i j : Nat) : Prop where
  opening : ps[i]? = some .groupOpen
  closing : ps[j]? = some .groupClose
  lt : i < j
  inside : Balanced ((ps.take j).drop (i + 1))

/-- A place is in a group if it comes after the opening parenthesis, and not after the closing one
if there is one. -/
structure Encloses (ps : List Piece) (i k : Nat) : Prop where
  opening : ps[i]? = some .groupOpen
  lt : i < k
  le : ∀ j, Matched ps i j → k ≤ j

/-- A group that is not closed has all that comes after its opening parenthesis. -/
structure Unclosed (ps : List Piece) (i : Nat) : Prop where
  opening : ps[i]? = some .groupOpen
  not_matched : ∀ j, ¬Matched ps i j

/-- A closing parenthesis that has no opening one. -/
structure Unopened (ps : List Piece) (j : Nat) : Prop where
  closing : ps[j]? = some .groupClose
  not_matched : ∀ i, ¬Matched ps i j

section Matching

variable {ps : List Piece} {p : Piece} {i j k : Nat}

theorem height_segment (h : i ≤ j) (k : Nat) :
    height ((ps.take j).drop i) k = height ps (min (i + k) j) - height ps i := by
  rw [height_drop, height_take, height_take, Nat.min_eq_left h]

theorem Matched.heights (h : Matched ps i j) :
    height ps j = height ps i + 1 ∧ ∀ m, i < m → m ≤ j → height ps i < height ps m := by
  have hfirst : height ps (i + 1) = height ps i + 1 := height_succ h.opening
  obtain ⟨hend, hnonneg⟩ := h.inside.heights
  have hj : j < ps.length := (List.getElem?_eq_some_iff.mp h.closing).1
  have hle : i + 1 ≤ j := h.lt
  rw [height_segment hle, List.length_drop, List.length_take_of_le (Nat.le_of_lt hj),
    Nat.add_sub_of_le hle, Nat.min_self] at hend
  refine ⟨by omega, fun m him hmj => ?_⟩
  have hm := hnonneg (m - (i + 1))
  rw [height_segment hle, Nat.add_sub_of_le him, Nat.min_eq_left hmj] at hm
  omega

/-- Parentheses match if the height first comes back behind the closing one. -/
theorem matched_of_heights (ho : ps[i]? = some .groupOpen) (hc : ps[j]? = some .groupClose)
    (hlt : i < j) (hj : height ps j = height ps i + 1)
    (habove : ∀ m, i < m → m ≤ j → height ps i < height ps m) : Matched ps i j := by
  have hfirst : height ps (i + 1) = height ps i + 1 := height_succ ho
  have hlength : j < ps.length := (List.getElem?_eq_some_iff.mp hc).1
  have hle : i + 1 ≤ j := hlt
  refine ⟨ho, hc, hlt, balanced_of_heights _ ?_ fun m => ?_⟩
  · rw [height_segment hle, List.length_drop, List.length_take_of_le (Nat.le_of_lt hlength),
      Nat.add_sub_of_le hle, Nat.min_self]
    omega
  · have hm := habove (min (i + 1 + m) j) (by omega) (Nat.min_le_right _ _)
    rw [height_segment hle]
    omega

theorem Matched.height_succ_eq (h : Matched ps i j) : height ps (j + 1) = height ps i := by
  rw [height_succ h.closing, h.heights.1, Piece.rise, Int.add_neg_cancel_right]

theorem Matched.above (h : Matched ps i j) {m : Nat} (him : i < m) (hmj : m ≤ j) :
    height ps i < height ps m := h.heights.2 m him hmj

theorem Encloses.above (h : Encloses ps i k) {m : Nat} (him : i < m) (hmk : m ≤ k) :
    height ps i < height ps m := by
  have hfirst : height ps (i + 1) = height ps i + 1 := height_succ h.opening
  by_contra hle
  have hsucc : i + 1 ≤ m := him
  have hlow : height ps m < height ps (i + 1) := by omega
  obtain ⟨j, hij, hjm, hclose, hj, habove⟩ := exists_first_below hsucc hlow
  have hmatched : Matched ps i j := by
    apply matched_of_heights h.opening hclose (by omega) (by omega)
    intro n hin hnj
    have hn := habove n (by omega) hnj
    omega
  have hkj := h.le j hmatched
  omega

theorem encloses_of_above (ho : ps[i]? = some .groupOpen) (hlt : i < k)
    (habove : ∀ m, i < m → m ≤ k → height ps i < height ps m) : Encloses ps i k := by
  refine ⟨ho, hlt, fun j hj => ?_⟩
  by_contra hjk
  have hlt := hj.lt
  have hback := hj.height_succ_eq
  have hj := habove (j + 1) (by omega) (by omega)
  omega

theorem Encloses.mono (h : Encloses ps i k) {m : Nat} (him : i < m) (hmk : m ≤ k) :
    Encloses ps i m :=
  ⟨h.opening, him, fun j hj => Nat.le_trans hmk (h.le j hj)⟩

theorem Matched.encloses (h : Matched ps i j) : Encloses ps i j :=
  encloses_of_above h.opening h.lt fun _ => h.above

/-- What one more piece changes: it may open a group, or take the height back to that of groups. -/
theorem encloses_succ (hp : ps[k]? = some p) : Encloses ps i (k + 1) ↔
    (Encloses ps i k ∧ height ps i < height ps (k + 1)) ∨ (i = k ∧ p = .groupOpen) := by
  constructor
  · intro h
    rcases Nat.lt_or_ge i k with hik | hki
    · exact .inl ⟨h.mono hik (Nat.le_succ k), h.above h.lt (Nat.le_refl _)⟩
    · obtain rfl := Nat.le_antisymm (Nat.le_of_lt_succ h.lt) hki
      exact .inr ⟨rfl, Option.some.inj (hp.symm.trans h.opening)⟩
  · rintro (⟨h, hlt⟩ | ⟨rfl, rfl⟩)
    · refine encloses_of_above h.opening (Nat.lt_succ_of_lt h.lt) fun m him hmk => ?_
      rcases Nat.lt_or_ge k m with hkm | hmk'
      · rwa [Nat.le_antisymm hmk hkm]
      · exact h.above him hmk'
    · refine encloses_of_above hp (Nat.lt_succ_self i) fun m him hmk => ?_
      have hheight : height ps (i + 1) = height ps i + 1 := height_succ hp
      rw [Nat.le_antisymm hmk him]
      omega

theorem Unclosed.encloses (h : Unclosed ps i) (hik : i < k) : Encloses ps i k :=
  ⟨h.opening, hik, fun j hj => absurd hj (h.not_matched j)⟩

theorem Unclosed.of_encloses (h : Unclosed ps k) (hi : Encloses ps i k) : Unclosed ps i := by
  refine ⟨hi.opening, fun j hj => ?_⟩
  have hne : k ≠ j := by
    rintro rfl
    simpa [h.opening] using hj.closing
  have hkj := hi.le j hj
  have habove := (h.encloses (k := j + 1) (by omega)).above (by omega) (Nat.le_refl (j + 1))
  have hbelow := hi.above hi.lt (Nat.le_refl k)
  have hback := hj.height_succ_eq
  omega

theorem Matched.not_unopened (h : Matched ps i j) : ¬Unopened ps j :=
  fun hu => hu.not_matched i h

theorem Unopened.lt_length (h : Unopened ps j) : j < ps.length :=
  (List.getElem?_eq_some_iff.mp h.closing).1

theorem Matched.right_unique (h : Matched ps i j) (h' : Matched ps i k) : j = k :=
  Nat.le_antisymm (h.encloses.le k h') (h'.encloses.le j h)

theorem Matched.left_unique (h : Matched ps i k) (h' : Matched ps j k) : i = j := by
  have hi := h.height_succ_eq
  have hj := h'.height_succ_eq
  rcases Nat.lt_trichotomy i j with hlt | rfl | hlt
  · have habove := h.above hlt (Nat.le_of_lt h'.lt)
    omega
  · rfl
  · have habove := h'.above hlt (Nat.le_of_lt h.lt)
    omega

theorem Matched.encloses_behind (h : Matched ps i k) (x : Nat) :
    Encloses ps x (k + 1) ↔ Encloses ps x i := by
  rw [encloses_succ h.closing, h.height_succ_eq]
  simp only [reduceCtorEq, and_false, or_false]
  constructor
  · rintro ⟨hx, hlt⟩
    refine hx.mono ?_ (Nat.le_of_lt h.lt)
    by_contra hle
    rcases Nat.eq_or_lt_of_le (Nat.le_of_not_lt hle) with rfl | hix
    · omega
    · have habove := h.above hix (Nat.le_of_lt hx.lt)
      omega
  · intro hx
    have hi := hx.above hx.lt (Nat.le_refl i)
    refine ⟨encloses_of_above hx.opening (Nat.lt_trans hx.lt h.lt) fun m hxm hmk => ?_, hi⟩
    rcases Nat.lt_or_ge i m with him | hmi
    · have habove := h.above him hmk
      omega
    · exact hx.above hxm hmi

end Matching

/-- The heights in front of the groups on a stack, each one less than the one after it. -/
def Descends (ps : List Piece) : Int → List Nat → Prop
  | _, [] => True
  | h, i :: stack => height ps i + 1 = h ∧ Descends ps (height ps i) stack

/-- The groups that are open at a place, the innermost first. -/
structure Opened (ps : List Piece) (k : Nat) (stack : List Nat) : Prop where
  mem_iff : ∀ i, i ∈ stack ↔ Encloses ps i k
  descends : Descends ps (height ps k) stack

theorem Descends.lt {ps : List Piece} {h : Int} {stack : List Nat} (hs : Descends ps h stack) :
    ∀ i ∈ stack, height ps i < h := by
  induction stack generalizing h with
  | nil => simp
  | cons i stack ih =>
    obtain ⟨rfl, hs⟩ := hs
    intro j hj
    rcases List.mem_cons.mp hj with rfl | hj
    · omega
    · have hlt := ih hs j hj
      omega

theorem Descends.nodup {ps : List Piece} {h : Int} {stack : List Nat} (hs : Descends ps h stack) :
    stack.Nodup := by
  induction stack generalizing h with
  | nil => exact List.nodup_nil
  | cons i stack ih =>
    refine List.nodup_cons.mpr ⟨fun hi => ?_, ih hs.2⟩
    have hlt := hs.2.lt i hi
    omega

theorem Descends.height_of_getElem? {ps : List Piece} {h : Int} {stack : List Nat} {n i : Nat}
    (hs : Descends ps h stack) (hi : stack[n]? = some i) : height ps i + n + 1 = h := by
  induction stack generalizing h n with
  | nil => simp at hi
  | cons j stack ih =>
    obtain ⟨rfl, hs⟩ := hs
    cases n with
    | zero =>
      obtain rfl := Option.some.inj hi
      simp
    | succ n =>
      have hn := ih hs hi
      push_cast
      omega

namespace Opened

variable {ps : List Piece} {k i : Nat} {stack stack' : List Nat} {p : Piece}

theorem zero (ps : List Piece) : Opened ps 0 [] :=
  ⟨fun i => by simpa using fun h : Encloses ps i 0 => absurd h.lt (Nat.not_lt_zero i), trivial⟩

/-- The stack is known but for its order, in particular its size. -/
theorem length_eq (h : Opened ps k stack) (h' : Opened ps k stack') :
    stack.length = stack'.length :=
  ((List.perm_ext_iff_of_nodup h.descends.nodup h'.descends.nodup).mpr fun i => by
    rw [h.mem_iff, h'.mem_iff]).length_eq

theorem other (h : Opened ps k stack) (hp : ps[k]? = some p) (hrise : p.rise = 0) :
    Opened ps (k + 1) stack := by
  have hheight : height ps (k + 1) = height ps k := by rw [height_succ hp, hrise, Int.add_zero]
  have hopen : p ≠ .groupOpen := by
    rintro rfl
    simp [Piece.rise] at hrise
  refine ⟨fun i => ?_, by rw [hheight]; exact h.descends⟩
  rw [h.mem_iff, encloses_succ hp, hheight]
  simp only [hopen, and_false, or_false]
  exact ⟨fun hi => ⟨hi, hi.above hi.lt (Nat.le_refl k)⟩, And.left⟩

theorem encloses_iff {j : Nat} (h : Opened ps j stack) (h' : Opened ps k stack) (x : Nat) :
    Encloses ps x j ↔ Encloses ps x k := by rw [← h.mem_iff, h'.mem_iff]

theorem opening (h : Opened ps k stack) (hp : ps[k]? = some .groupOpen) :
    Opened ps (k + 1) (k :: stack) := by
  have hheight : height ps (k + 1) = height ps k + 1 := height_succ hp
  refine ⟨fun i => ?_, hheight.symm, h.descends⟩
  rw [List.mem_cons, h.mem_iff, encloses_succ hp, hheight, or_comm]
  simp only [and_true]
  refine or_congr_left ⟨fun hi => ⟨hi, ?_⟩, And.left⟩
  have hlt := hi.above hi.lt (Nat.le_refl k)
  omega

theorem matched (h : Opened ps k (i :: stack)) (hp : ps[k]? = some .groupClose) :
    Matched ps i k := by
  have hi := (h.mem_iff i).mp List.mem_cons_self
  exact matched_of_heights hi.opening hp hi.lt h.descends.1.symm fun _ => hi.above

theorem closing (h : Opened ps k (i :: stack)) (hp : ps[k]? = some .groupClose) :
    Opened ps (k + 1) stack := by
  have hmatched := h.matched hp
  refine ⟨fun x => ?_, by rw [hmatched.height_succ_eq]; exact h.descends.2⟩
  rw [encloses_succ hp, hmatched.height_succ_eq, ← h.mem_iff, List.mem_cons]
  simp only [reduceCtorEq, and_false, or_false]
  constructor
  · exact fun hx => ⟨.inr hx, h.descends.2.lt x hx⟩
  · rintro ⟨rfl | hx, hlt⟩
    · omega
    · exact hx

theorem unopened (h : Opened ps k []) (hp : ps[k]? = some .groupClose) : Unopened ps k :=
  ⟨hp, fun i hi => by simpa using (h.mem_iff i).mpr hi.encloses⟩

theorem unmatched (h : Opened ps k []) (hp : ps[k]? = some .groupClose) :
    Opened ps (k + 1) [] := by
  refine ⟨fun i => ?_, trivial⟩
  rw [encloses_succ hp, ← h.mem_iff]
  simp

theorem pairwise_gt (h : Opened ps k stack) : stack.Pairwise (· > ·) := by
  rw [List.pairwise_iff_getElem]
  intro m n hm hn hlt
  have houter := h.descends.height_of_getElem? (List.getElem?_eq_getElem hm)
  have hinner := h.descends.height_of_getElem? (List.getElem?_eq_getElem hn)
  have hencloses := (h.mem_iff _).mp (List.getElem_mem hm)
  have hinside := ((h.mem_iff _).mp (List.getElem_mem hn)).lt
  rcases Nat.lt_trichotomy stack[n] stack[m] with hgt | heq | hle
  · exact hgt
  · rw [heq] at hinner
    omega
  · have habove := hencloses.above hle (Nat.le_of_lt hinside)
    omega

theorem unclosed_iff (h : Opened ps ps.length stack) : i ∈ stack ↔ Unclosed ps i := by
  rw [h.mem_iff]
  refine ⟨fun hi => ⟨hi.opening, fun j hj => ?_⟩, fun hi => ?_⟩
  · have hle := hi.le j hj
    have hlt := (List.getElem?_eq_some_iff.mp hj.closing).1
    omega
  · exact hi.encloses (List.getElem?_eq_some_iff.mp hi.opening).1

/-- Induction along a row with the stack of open groups, from the end of the row. -/
theorem walk {P : Nat → List Nat → Prop}
    (ending : ∀ stack, Opened ps ps.length stack → P ps.length stack)
    (other : ∀ k stack p, ps[k]? = some p → p.rise = 0 → ¬Unopened ps k → P (k + 1) stack →
      P k stack)
    (opening : ∀ k stack, ps[k]? = some .groupOpen → ¬Unopened ps k → P (k + 1) (k :: stack) →
      P k stack)
    (closing : ∀ k i stack, ps[k]? = some .groupClose → Matched ps i k → P (k + 1) stack →
      P k (i :: stack))
    (unmatched : ∀ k, ps[k]? = some .groupClose → Unopened ps k → P (k + 1) [] → P k [])
    {k : Nat} {stack : List Nat} (hk : k ≤ ps.length) (h : Opened ps k stack) : P k stack := by
  obtain rfl | hlt := Nat.eq_or_lt_of_le hk
  · exact ending stack h
  · have hp := List.getElem?_eq_getElem hlt
    have next {stack : List Nat} (h : Opened ps (k + 1) stack) : P (k + 1) stack :=
      walk ending other opening closing unmatched hlt h
    cases hpiece : ps[k] with
    | groupOpen =>
      rw [hpiece] at hp
      exact opening k stack hp (fun hu => by simp [hu.closing] at hp) (next (h.opening hp))
    | groupClose =>
      rw [hpiece] at hp
      cases stack with
      | nil => exact unmatched k hp (h.unopened hp) (next (h.unmatched hp))
      | cons i stack => exact closing k i stack hp (h.matched hp) (next (h.closing hp))
    | _ =>
      have hrise : ps[k].rise = 0 := by rw [hpiece]; rfl
      rw [hpiece] at hp hrise
      have hunopened : ¬Unopened ps k := fun hu => by simp [hu.closing] at hp
      exact other k stack _ hp hrise hunopened (next (h.other hp hrise))
termination_by ps.length - k

end Opened
end RegexDiagram
