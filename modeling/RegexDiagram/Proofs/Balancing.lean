import Mathlib.Data.Finset.Card
import RegexDiagram.Proofs.Acceptance
import RegexDiagram.Proofs.Pairing
import RegexDiagram.Proofs.Places

/-!
Balancing as a repair. Any row of parentheses can be balanced by leaving out closing parentheses and
adding some at the end. Each place of the row bounds how few of them must be left out, as the height
must not get below zero, and how many are added follows from how many are left out. Balancing a
regex leaves out the closing parentheses that have no opening one and adds one for each group that
is not closed. The last place where one is left out shows that no repair does with less.
-/
namespace RegexDiagram

/-! ## Rows with members left out -/

/-- The members of a row at the places of a kind. The row starts at place `k`. -/
def pick {α : Type} (p : Nat → Prop) [DecidablePred p] (k : Nat) (xs : List α) : List α :=
  ((xs.zipIdx k).filter fun x => p x.2).map Prod.fst

section Pick

variable {α : Type} {p : Nat → Prop} [DecidablePred p] {k : Nat}

@[simp] theorem pick_nil : pick p k ([] : List α) = [] := rfl

theorem pick_cons_of_pos (h : p k) (x : α) (xs : List α) :
    pick p k (x :: xs) = x :: pick p (k + 1) xs := by
  simp [pick, h]

theorem pick_cons_of_neg (h : ¬p k) (x : α) (xs : List α) :
    pick p k (x :: xs) = pick p (k + 1) xs := by
  simp [pick, h]

theorem pick_append (xs ys : List α) :
    pick p k (xs ++ ys) = pick p k xs ++ pick p (k + xs.length) ys := by
  simp [pick, List.zipIdx_append]

theorem pick_of_forall (xs : List α) (h : ∀ i, k ≤ i → p i) : pick p k xs = xs := by
  induction xs generalizing k with
  | nil => rfl
  | cons x xs ih =>
    rw [pick_cons_of_pos (h k (Nat.le_refl k)), ih fun i hi => h i (Nat.le_of_succ_le hi)]

theorem pick_subset (xs : List α) : pick p k xs ⊆ xs := by
  intro x hx
  obtain ⟨y, hy, rfl⟩ := List.mem_map.mp hx
  exact List.fst_mem_of_mem_zipIdx (List.mem_of_mem_filter hy)

end Pick

/-- How many of the places in a set come from `k` on. -/
def countFrom (places : Finset Nat) (k : Nat) : Nat := (places.filter (k ≤ ·)).card

section Count

variable {places : Finset Nat} {k : Nat}

@[simp] theorem countFrom_zero (places : Finset Nat) : countFrom places 0 = places.card := by
  simp [countFrom]

theorem countFrom_of_mem (h : k ∈ places) : countFrom places k = countFrom places (k + 1) + 1 := by
  have hsplit : places.filter (k ≤ ·) = insert k (places.filter (k + 1 ≤ ·)) := by
    ext i
    simp only [Finset.mem_filter, Finset.mem_insert]
    constructor
    · rintro ⟨hi, hle⟩
      rcases Nat.eq_or_lt_of_le hle with rfl | hlt
      · exact .inl rfl
      · exact .inr ⟨hi, hlt⟩
    · rintro (rfl | ⟨hi, hle⟩)
      · exact ⟨h, Nat.le_refl i⟩
      · exact ⟨hi, Nat.le_of_succ_le hle⟩
  rw [countFrom, hsplit, Finset.card_insert_of_notMem (by simp), countFrom]

theorem countFrom_of_notMem (h : k ∉ places) : countFrom places k = countFrom places (k + 1) := by
  rw [countFrom, countFrom]
  congr 1
  apply Finset.filter_congr
  intro i hi
  have hne : k ≠ i := by
    rintro rfl
    exact h hi
  omega

theorem countFrom_eq_zero (h : ∀ i ∈ places, i < k) : countFrom places k = 0 := by
  rw [countFrom, Finset.card_eq_zero, Finset.filter_eq_empty_iff]
  intro i hi
  exact Nat.not_le_of_lt (h i hi)

end Count

/-! ## Repairs -/

/-- A way to mend a row: leaving out closing parentheses at some places and adding a number of them
at the end makes it balanced. -/
structure Mends (ps : List Piece) (dropped : Finset Nat) (added : Nat) : Prop where
  closing : ∀ k ∈ dropped, ps[k]? = some .groupClose
  balanced : Balanced (pick (· ∉ dropped) 0 ps ++ List.replicate added .groupClose)

theorem height_append_replicate (ps : List Piece) (n k : Nat) :
    height (ps ++ List.replicate n .groupClose) k =
      height ps k - (min (k - ps.length) n : Nat) := by
  have hreplicate (m : Nat) : height (List.replicate n .groupClose) m = -(min m n : Nat) := by
    simp [height, Piece.rise, List.take_replicate]
  rw [height_append, hreplicate, Int.sub_eq_add_neg]

/-- A row that goes from one height to another and does not get below zero. -/
structure Climbs (d e : Nat) (ps : List Piece) : Prop where
  nonneg : ∀ k, 0 ≤ d + height ps k
  ends : d + height ps ps.length = e

theorem Climbs.nil (d : Nat) : Climbs d d [] := ⟨by simp, by simp⟩

theorem Climbs.cons {d d' e : Nat} {p : Piece} {ps : List Piece} (h : Climbs d' e ps)
    (hd : (d' : Int) = d + p.rise) : Climbs d e (p :: ps) := by
  constructor
  · intro k
    cases k with
    | zero => simp
    | succ k =>
      have hk := h.nonneg k
      rw [height_cons_succ]
      omega
  · rw [List.length_cons, height_cons_succ, ← Int.add_assoc, ← hd, h.ends]

theorem balanced_append_replicate_iff (ps : List Piece) (n : Nat) :
    Balanced (ps ++ List.replicate n .groupClose) ↔ Climbs 0 n ps := by
  constructor
  · intro h
    obtain ⟨hend, hnonneg⟩ := h.heights
    rw [height_append_replicate, List.length_append, List.length_replicate,
      height_of_length_le (Nat.le_add_right ..)] at hend
    refine ⟨fun k => ?_, by omega⟩
    have hk := hnonneg k
    rw [height_append_replicate] at hk
    omega
  · intro h
    have hend := h.ends
    refine balanced_of_heights _ ?_ fun k => ?_
    · rw [height_append_replicate, List.length_append, List.length_replicate,
        height_of_length_le (Nat.le_add_right ..)]
      omega
    · have hk := h.nonneg k
      rw [height_append_replicate]
      rcases Nat.le_total k ps.length with hle | hle
      · omega
      · rw [height_of_length_le hle]
        omega

section Heights

variable {ps : List Piece} {dropped : Finset Nat} {k added : Nat}

theorem height_pick_length (hclosing : ∀ i, k + i ∈ dropped → ps[i]? = some .groupClose) :
    height (pick (· ∉ dropped) k ps) (pick (· ∉ dropped) k ps).length =
      height ps ps.length + countFrom dropped k := by
  induction ps generalizing k with
  | nil =>
    have hcount : countFrom dropped k = 0 := by
      apply countFrom_eq_zero
      intro i hi
      by_contra hle
      simpa using hclosing (i - k) (by rwa [Nat.add_sub_of_le (Nat.le_of_not_lt hle)])
    simp [hcount]
  | cons p ps ih =>
    have hnext := ih (k := k + 1) fun i hi => hclosing (i + 1) (by rwa [Nat.add_right_comm] at hi)
    by_cases hk : k ∈ dropped
    · obtain rfl := Option.some.inj (hclosing 0 hk)
      rw [pick_cons_of_neg (by simpa using hk), hnext, List.length_cons, height_cons_succ,
        countFrom_of_mem hk, Piece.rise]
      omega
    · rw [pick_cons_of_pos hk, List.length_cons, List.length_cons, height_cons_succ,
        height_cons_succ, hnext, countFrom_of_notMem hk, Int.add_assoc]

theorem exists_height_pick_le (hclosing : ∀ i, k + i ∈ dropped → ps[i]? = some .groupClose)
    (m : Nat) :
    ∃ j, height (pick (· ∉ dropped) k ps) j ≤ height ps m + countFrom dropped k := by
  induction ps generalizing k m with
  | nil => exact ⟨0, by simp⟩
  | cons p ps ih =>
    cases m with
    | zero => exact ⟨0, by simp⟩
    | succ m =>
      obtain ⟨j, hj⟩ := ih (k := k + 1)
        (fun i hi => hclosing (i + 1) (by rwa [Nat.add_right_comm] at hi)) m
      rw [height_cons_succ]
      by_cases hk : k ∈ dropped
      · obtain rfl := Option.some.inj (hclosing 0 hk)
        refine ⟨j, ?_⟩
        rw [pick_cons_of_neg (by simpa using hk), countFrom_of_mem hk, Piece.rise]
        omega
      · refine ⟨j + 1, ?_⟩
        rw [pick_cons_of_pos hk, height_cons_succ, countFrom_of_notMem hk]
        omega

namespace Mends

theorem added_eq (h : Mends ps dropped added) :
    (added : Int) = height ps ps.length + dropped.card := by
  have hclosing : ∀ i, 0 + i ∈ dropped → ps[i]? = some .groupClose := by simpa using h.closing
  have hends := ((balanced_append_replicate_iff _ _).mp h.balanced).ends
  rw [height_pick_length hclosing, countFrom_zero] at hends
  omega

theorem neg_height_le (h : Mends ps dropped added) (m : Nat) : -height ps m ≤ dropped.card := by
  have hclosing : ∀ i, 0 + i ∈ dropped → ps[i]? = some .groupClose := by simpa using h.closing
  obtain ⟨j, hj⟩ := exists_height_pick_le hclosing m
  have hnonneg := ((balanced_append_replicate_iff _ _).mp h.balanced).nonneg j
  rw [countFrom_zero] at hj
  omega

/-- A repair that leaves out no more than some place asks for is the least. -/
theorem least (h : Mends ps dropped added) {m : Nat} (hm : height ps m = -dropped.card)
    {dropped' : Finset Nat} {added' : Nat} (h' : Mends ps dropped' added') :
    dropped.card ≤ dropped'.card ∧ added ≤ added' := by
  have hle := h'.neg_height_le m
  have hadded := h.added_eq
  have hadded' := h'.added_eq
  omega

end Mends

end Heights

/-! ## The stack of open groups -/

section Stack

variable {ps : List Piece} {dropped : Finset Nat} {opens : List Nat} {i k n : Nat}

/-- Closing parentheses at the end match the groups that are open there, one after the other. -/
theorem Opened.matched_append (h : Opened ps ps.length opens) (hi : opens[n]? = some i)
    {added : Nat} (hn : n < added) :
    Matched (ps ++ List.replicate added .groupClose) i (ps.length + n) := by
  have hencloses := (h.mem_iff i).mp (List.mem_of_getElem? hi)
  have hlt := hencloses.lt
  have hheight := h.descends.height_of_getElem? hi
  have hend : height ps (ps.length + n) = height ps ps.length :=
    height_of_length_le (Nat.le_add_right ..)
  apply matched_of_heights
  · rw [List.getElem?_append_left hlt, hencloses.opening]
  · rw [List.getElem?_append_right (Nat.le_add_right ..), Nat.add_sub_cancel_left,
      List.getElem?_replicate_of_lt hn]
  · omega
  · rw [height_append_replicate, height_append_replicate, hend]
    omega
  · intro m him hmn
    rw [height_append_replicate, height_append_replicate]
    rcases Nat.le_total m ps.length with hm | hm
    · have habove := hencloses.above him hm
      omega
    · rw [height_of_length_le hm]
      omega

/-- Without the closing parentheses that have no opening one, the height is the number of open
groups. -/
theorem climbs_pick (hdropped : ∀ k, k ∈ dropped ↔ Unopened ps k)
    (hopens : Opened ps ps.length opens) : Climbs 0 opens.length (pick (· ∉ dropped) 0 ps) := by
  refine Opened.walk (P := fun k stack =>
    Climbs stack.length opens.length (pick (· ∉ dropped) k (ps.drop k)))
    ?ending ?other ?opening ?closing ?unmatched (Nat.zero_le _) (Opened.zero ps)
  case ending =>
    intro stack hstack
    rw [hstack.length_eq hopens, List.drop_length]
    exact .nil _
  case other =>
    intro k stack p hp hrise hk hnext
    rw [drop_of_getElem? hp, pick_cons_of_pos (by rwa [hdropped])]
    exact hnext.cons (by rw [hrise, Int.add_zero])
  case opening =>
    intro k stack hp hk hnext
    rw [drop_of_getElem? hp, pick_cons_of_pos (by rwa [hdropped])]
    exact hnext.cons (by simp [Piece.rise])
  case closing =>
    intro k i stack hp hmatched hnext
    rw [drop_of_getElem? hp, pick_cons_of_pos (by rw [hdropped]; exact hmatched.not_unopened)]
    exact hnext.cons (by simp [Piece.rise])
  case unmatched =>
    intro k hp hk hnext
    rw [drop_of_getElem? hp, pick_cons_of_neg (by rwa [hdropped, not_not])]
    exact hnext

/-- From some height on a row gets below zero by a number, unless that is zero. -/
def Sinks (d n : Nat) (ps : List Piece) : Prop := n = 0 ∨ ∃ m, d + height ps m = -n

theorem Sinks.cons {d d' : Nat} {p : Piece} (h : Sinks d' n ps) (hd : (d' : Int) = d + p.rise) :
    Sinks d n (p :: ps) := by
  rcases h with h | ⟨m, hm⟩
  · exact .inl h
  · refine .inr ⟨m + 1, ?_⟩
    rw [height_cons_succ]
    omega

theorem Sinks.groupClose (h : Sinks 0 n ps) : Sinks 0 (n + 1) (.groupClose :: ps) := by
  rcases h with rfl | ⟨m, hm⟩
  · exact .inr ⟨1, by simp [Piece.rise]⟩
  · refine .inr ⟨m + 1, ?_⟩
    rw [height_cons_succ, Piece.rise]
    push_cast
    omega

/-- Behind the last closing parenthesis that has no opening one, the row is below zero by the number
of those. -/
theorem exists_lowest (hdropped : ∀ k, k ∈ dropped ↔ Unopened ps k) :
    ∃ m, height ps m = -dropped.card := by
  have hsinks : Sinks 0 (countFrom dropped 0) ps := by
    refine Opened.walk (P := fun k stack => Sinks stack.length (countFrom dropped k) (ps.drop k))
      ?ending ?other ?opening ?closing ?unmatched (Nat.zero_le _) (Opened.zero ps)
    case ending =>
      intro stack _
      apply Or.inl
      apply countFrom_eq_zero
      intro i hi
      exact ((hdropped i).mp hi).lt_length
    case other =>
      intro k stack p hp hrise hk hnext
      rw [drop_of_getElem? hp, countFrom_of_notMem (by rwa [hdropped])]
      exact hnext.cons (by rw [hrise, Int.add_zero])
    case opening =>
      intro k stack hp hk hnext
      rw [drop_of_getElem? hp, countFrom_of_notMem (by rwa [hdropped])]
      exact hnext.cons (by simp [Piece.rise])
    case closing =>
      intro k i stack hp hmatched hnext
      rw [drop_of_getElem? hp,
        countFrom_of_notMem (by rw [hdropped]; exact hmatched.not_unopened)]
      exact hnext.cons (by simp [Piece.rise])
    case unmatched =>
      intro k hp hk hnext
      rw [drop_of_getElem? hp, countFrom_of_mem (by rwa [hdropped])]
      exact hnext.groupClose
  rw [countFrom_zero] at hsinks
  rcases hsinks with h | ⟨m, hm⟩
  · exact ⟨0, by simp [h]⟩
  · exact ⟨m, by simpa using hm⟩

end Stack

/-! ## Balancing tokens -/

namespace Groups

variable {ts opened : List Token} {t : Token} {dropped : Finset Nat} {k : Nat}

theorem map_piece_balanced (ps : List Piece) (k : Nat) (ts : List Token) :
    (balanced ps k ts).map Token.piece = ts.map Token.piece := by
  induction ts generalizing k with
  | nil => rfl
  | cons t ts ih =>
    by_cases hk : Unopened ps k
    · rw [balanced_of_unopened hk, List.map_cons, ih, List.map_cons, Token.invalidate]
    · rw [balanced_of_not_unopened hk, List.map_cons, ih, List.map_cons]

/-- Balancing the tokens from place `k` on rules out the closing parentheses that have no opening
one, reports those at some places, and closes the groups that are open at the end. -/
def Finishes (ts : List Token) (dropped : Finset Nat) (k : Nat) (opened : List Token) : Prop :=
  ∃ (opens : List Nat) (left : List Token), Opened (ts.map Token.piece) ts.length opens ∧
    At ts opens left ∧
    balance opened (ts.drop k) =
      (balanced (ts.map Token.piece) k (ts.drop k) ++ left.map Token.closing,
        (pick (· ∈ dropped) k (ts.drop k)).map Finding.unopened)

section Finishes

variable (hdropped : ∀ k, k ∈ dropped ↔ Unopened (ts.map Token.piece) k)

include hdropped

theorem Finishes.keep {opened' : List Token} (h : Finishes ts dropped (k + 1) opened')
    (ht : ts[k]? = some t) (hk : ¬Unopened (ts.map Token.piece) k)
    (hbalance : ∀ rest, balance opened (t :: rest) = (balance opened' rest).map (t :: ·) id) :
    Finishes ts dropped k opened := by
  obtain ⟨opens, left, hopens, hleft, hnext⟩ := h
  refine ⟨opens, left, hopens, hleft, ?_⟩
  rw [drop_of_getElem? ht, hbalance, hnext, balanced_of_not_unopened hk,
    pick_cons_of_neg (by rwa [hdropped])]
  rfl

theorem Finishes.drop (h : Finishes ts dropped (k + 1) []) (ht : ts[k]? = some t)
    (hk : Unopened (ts.map Token.piece) k) (hpiece : t.piece = .groupClose) :
    Finishes ts dropped k [] := by
  obtain ⟨opens, left, hopens, hleft, hnext⟩ := h
  refine ⟨opens, left, hopens, hleft, ?_⟩
  rw [drop_of_getElem? ht, balance_cons_of_unopened hpiece, hnext, balanced_of_unopened hk,
    pick_cons_of_pos (by rwa [hdropped])]
  rfl

/-- Balancing goes by the stack of open groups: what it has on its stack are the tokens at the
places of these groups. -/
theorem finishes : Finishes ts dropped 0 [] := by
  refine Opened.walk (P := fun k stack => ∀ opened, At ts stack opened →
    Finishes ts dropped k opened)
    ?ending ?other ?opening ?closing ?unmatched (Nat.zero_le _)
    (Opened.zero (ts.map Token.piece)) [] .nil
  case ending =>
    intro stack hstack opened hat
    rw [List.length_map] at hstack ⊢
    refine ⟨stack, opened, hstack, hat, ?_⟩
    rw [List.drop_length]
    rfl
  case other =>
    intro k stack p hp hrise hk hnext opened hat
    obtain ⟨t, ht, rfl⟩ := exists_token_of_piece hp
    exact (hnext opened hat).keep hdropped ht hk (balance_cons_of_rise hrise opened)
  case opening =>
    intro k stack hp hk hnext opened hat
    obtain ⟨t, ht, hpiece⟩ := exists_token_of_piece hp
    exact (hnext (t :: opened) (.cons ht hat)).keep hdropped ht hk
      (balance_cons_of_open hpiece opened)
  case closing =>
    intro k i stack hp hmatched hnext opened hat
    obtain ⟨t, ht, hpiece⟩ := exists_token_of_piece hp
    obtain ⟨o, opened, -, hrest, rfl⟩ := List.forall₂_cons_left_iff.mp hat
    exact (hnext opened hrest).keep hdropped ht hmatched.not_unopened
      (balance_cons_of_close hpiece o opened)
  case unmatched =>
    intro k hp hk hnext opened hat
    obtain ⟨t, ht, hpiece⟩ := exists_token_of_piece hp
    obtain rfl := List.forall₂_nil_left_iff.mp hat
    exact (hnext [] .nil).drop hdropped ht hk hpiece

theorem findings_balance :
    (balance [] ts).2 = (pick (· ∈ dropped) 0 ts).map Finding.unopened := by
  obtain ⟨_, _, -, -, hbalance⟩ := finishes hdropped
  rw [List.drop_zero] at hbalance
  rw [hbalance]

end Finishes

end Groups

/-! ## Warnings -/

namespace Analysis

variable {a : Analysis} {t : Token} {ts : List Token}

/-- Records an occurrence at each of some tokens, up to one that cannot be recorded. -/
def warnAll (key : String) (a : Analysis) : List Token → Except WarnError Analysis
  | [] => .ok a
  | t :: ts =>
      match a.warn key t.pos t.index none with
      | (b, none) => b.warnAll key ts
      | (_, some e) => .error e

theorem markInvalid_append (xs ys : List Nat) (ls : List Lexeme) :
    Lexeme.markInvalid ys (Lexeme.markInvalid xs ls) = Lexeme.markInvalid (xs ++ ys) ls := by
  rw [Lexeme.markInvalid, Lexeme.markInvalid, List.map_map, Lexeme.markInvalid]
  apply List.map_congr_left
  intro l _
  by_cases hx : l.index ∈ xs <;> by_cases hy : l.index ∈ ys <;> simp [hx, hy]

theorem record_cons (a : Analysis) (f : Finding) (fs : List Finding) :
    a.record (f :: fs) = (a.record [f]).record fs := by
  simp only [record, markInvalid_append, List.flatMap_cons, List.flatMap_nil, List.append_nil,
    List.append_assoc, List.singleton_append]

theorem warn_unopened (h : t.index < a.lexemes.length) :
    a.warn Category.unopenedGroup.key t.pos t.index none = (a.record [.unopened t], none) := by
  rw [warn, if_neg (Nat.not_le_of_lt h), Category.ofKey?_key]
  rfl

theorem warnAll_unopened (h : ∀ t ∈ ts, t.index < a.lexemes.length) :
    a.warnAll Category.unopenedGroup.key ts = .ok (a.record (ts.map Finding.unopened)) := by
  induction ts generalizing a with
  | nil => rw [warnAll, List.map_nil, record_nil]
  | cons t ts ih =>
    obtain ⟨ht, hts⟩ := List.forall_mem_cons.mp h
    have hnext : ∀ u ∈ ts, u.index < (a.record [.unopened t]).lexemes.length := by
      intro u hu
      rw [record, length_markInvalid]
      exact hts u hu
    simp only [warnAll, warn_unopened ht, ih hnext]
    rw [List.map_cons, record_cons a (.unopened t) (ts.map Finding.unopened)]

end Analysis

/-! ## The least repair -/

/-- How a row of tokens is mended: some closing parentheses are ruled out, and at the end some
groups are closed, the innermost first. -/
structure Mended (ts us : List Token) (dropped : Finset Nat) (opens : List Nat) : Prop where
  dropped_iff : ∀ k, k ∈ dropped ↔ Unopened (ts.map Token.piece) k
  opens_iff : ∀ i, i ∈ opens ↔ Unclosed (ts.map Token.piece) i
  innermost_first : opens.Pairwise (· > ·)
  /-- What is added stands where its group opens. -/
  tokens : ∃ opened, At ts opens opened ∧
    us = Groups.balanced (ts.map Token.piece) 0 ts ++ opened.map Token.closing
  /-- What is added closes its group. -/
  matched : ∀ n i, opens[n]? = some i → Matched (us.map Token.piece) i (ts.length + n)
  balanced : Balanced (pick (· ∉ dropped) 0 (us.map Token.piece))
  mends : Mends (ts.map Token.piece) dropped opens.length
  least : ∀ dropped' added, Mends (ts.map Token.piece) dropped' added →
    dropped.card ≤ dropped'.card ∧ opens.length ≤ added

theorem mends_unopened {ps : List Piece} {dropped : Finset Nat} {opens : List Nat}
    (hdropped : ∀ k, k ∈ dropped ↔ Unopened ps k) (hopens : Opened ps ps.length opens) :
    Mends ps dropped opens.length where
  closing k hk := ((hdropped k).mp hk).closing
  balanced := (balanced_append_replicate_iff _ _).mpr (climbs_pick hdropped hopens)

theorem pick_append_replicate {ps : List Piece} {dropped : Finset Nat}
    (hdropped : ∀ k, k ∈ dropped ↔ Unopened ps k) (n : Nat) :
    pick (· ∉ dropped) 0 (ps ++ List.replicate n .groupClose) =
      pick (· ∉ dropped) 0 ps ++ List.replicate n .groupClose := by
  have hadded : pick (· ∉ dropped) (0 + ps.length) (List.replicate n Piece.groupClose) =
      List.replicate n .groupClose := by
    apply pick_of_forall
    intro i hi hmem
    have hlt := ((hdropped i).mp hmem).lt_length
    omega
  rw [pick_append, hadded]

theorem map_piece_closing (ts : List Token) :
    (ts.map Token.closing).map Token.piece = List.replicate ts.length .groupClose := by
  rw [List.map_map, List.eq_replicate_iff]
  simp [Token.closing]

theorem Groups.mended {ts : List Token} {dropped : Finset Nat}
    (hdropped : ∀ k, k ∈ dropped ↔ Unopened (ts.map Token.piece) k) :
    ∃ opens, Mended ts (balance [] ts).1 dropped opens := by
  obtain ⟨opens, opened, hopens, hat, hbalance⟩ := finishes hdropped
  rw [List.drop_zero] at hbalance
  have hlength : ts.length = (ts.map Token.piece).length := (List.length_map ..).symm
  rw [hlength] at hopens
  have hpieces : (balance [] ts).1.map Token.piece =
      ts.map Token.piece ++ List.replicate opens.length .groupClose := by
    rw [hbalance, List.map_append, map_piece_balanced, map_piece_closing, hat.length_eq]
  have hmends := mends_unopened hdropped hopens
  obtain ⟨m, hm⟩ := exists_lowest hdropped
  refine ⟨opens, hdropped, fun i => hopens.unclosed_iff, hopens.pairwise_gt,
    ⟨opened, hat, by rw [hbalance]⟩, ?_, ?_, hmends, fun _ _ h => hmends.least hm h⟩
  · intro n i hi
    rw [hpieces, hlength]
    exact hopens.matched_append hi (List.getElem?_eq_some_iff.mp hi).1
  · rw [hpieces, pick_append_replicate hdropped]
    exact hmends.balanced

namespace Analysis

/--
Balancing is the least repair. It rules out the closing parentheses that have no opening one, with a
warning that is recorded for each, and adds a closing parenthesis for each group that is not closed;
no way to make the row balanced leaves out or adds fewer.
-/
theorem balancing_least (a : Analysis) (hindex : ∀ t ∈ a.tokens, t.index < a.lexemes.length) :
    ∃ dropped opens, Mended a.tokens a.balanceGroups.tokens dropped opens ∧
      a.warnAll Category.unopenedGroup.key (pick (· ∈ dropped) 0 a.tokens) =
        .ok { a.balanceGroups with tokens := a.tokens } := by
  classical
  let dropped := (Finset.range a.tokens.length).filter (Unopened (a.tokens.map Token.piece))
  have hdropped : ∀ k, k ∈ dropped ↔ Unopened (a.tokens.map Token.piece) k := by
    intro k
    rw [Finset.mem_filter, Finset.mem_range, and_iff_right_iff_imp]
    intro hk
    simpa using hk.lt_length
  obtain ⟨opens, hmended⟩ := Groups.mended hdropped
  refine ⟨dropped, opens, hmended, ?_⟩
  rw [warnAll_unopened fun t ht => hindex t (pick_subset _ ht), ← Groups.findings_balance hdropped]
  rfl

/-- One closing parenthesis comes too early and two are missing. -/
theorem balancing_least_crossed :
    (∀ t ∈ (ofSource [')', '(', 'a', '(']).tokens,
        t.index < (ofSource [')', '(', 'a', '(']).lexemes.length) ∧
      (ofSource [')', '(', 'a', '(']).balanceGroups.tokens.map
          (fun t => (t.pos, t.invalid, t.added)) =
        [(0, true, false), (1, false, false), (2, false, false), (3, false, false),
          (3, false, true), (1, false, true)] ∧
      ∃ dropped opens, Mended (ofSource [')', '(', 'a', '(']).tokens
          (ofSource [')', '(', 'a', '(']).balanceGroups.tokens dropped opens ∧
        (ofSource [')', '(', 'a', '(']).warnAll Category.unopenedGroup.key
            (pick (· ∈ dropped) 0 (ofSource [')', '(', 'a', '(']).tokens) =
          .ok { (ofSource [')', '(', 'a', '(']).balanceGroups with
            tokens := (ofSource [')', '(', 'a', '(']).tokens } := by
  have hindex : ∀ t ∈ (ofSource [')', '(', 'a', '(']).tokens,
      t.index < (ofSource [')', '(', 'a', '(']).lexemes.length := by
    decide +kernel
  exact ⟨hindex, by decide +kernel, balancing_least _ hindex⟩

end Analysis
end RegexDiagram
