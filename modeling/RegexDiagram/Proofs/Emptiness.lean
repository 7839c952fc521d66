import RegexDiagram.Proofs.Ledger

/-!
What the search for empty operands knows. In front of each place it knows of the level that it is in
whether there has been a value, and whether there has been one in the current alternative. What it
knows of a level around a group stays as it is up to the end of the group, and then takes in what
the group has.
-/
namespace RegexDiagram.EmptyOperands

/-- The categories of what the search finds. -/
def searchCategories : List Category :=
  [.openGroup, .quantifierOfNothing, .alternationAfterNothing, .alternationBeforeNothing,
    .emptyGroup, .emptyOpenGroup]

namespace Level

/-- Where the values begin that count for the current alternative of a level. -/
def begin (l : Level) (start : Nat) : Nat :=
  match l.alternation with
  | some a => a.place + 1
  | none => start

/-- The alternation that may turn out to have nothing behind it. -/
def pending (l : Level) : List Nat := l.alternation.toList.map (·.place)

/-- What is known of a level that begins at `start` in front of the place `k`. -/
structure Knows (ts : List Token) (start k : Nat) (l : Level) : Prop where
  start_le : start ≤ k
  term : l.termEmpty = false ↔ ValueBetween (ts.map Token.piece) (l.begin start) k
  expr : l.exprEmpty = false ↔ ValueBetween (ts.map Token.piece) start k
  bounds : ∀ a, l.alternation = some a → start ≤ a.place ∧ a.place < k
  token : ∀ a, l.alternation = some a → ts[a.place]? = some a.token ∧
    a.token.piece = .alternation ∧ ValueBefore (ts.map Token.piece) a.place

/-- The level is that of the place. -/
structure At (ts : List Token) (start k : Nat) (l : Level) : Prop extends Knows ts start k l where
  before : ValueBetween (ts.map Token.piece) (l.begin start) k ↔ ValueBefore (ts.map Token.piece) k
  same : ∀ a, l.alternation = some a → SameLevel (ts.map Token.piece) a.place k

variable {ts : List Token} {counts : Nat → Prop} {start k : Nat} {l : Level} {t : Token}

theorem Knows.begin_le (h : l.Knows ts start k) : l.begin start ≤ k := by
  unfold begin
  split
  · exact (h.bounds _ ‹_›).2
  · exact h.start_le

theorem Knows.skip (h : l.Knows ts start k) (hv : ¬ValueAt (ts.map Token.piece) k) :
    l.Knows ts start (k + 1) where
  start_le := Nat.le_succ_of_le h.start_le
  term := by rw [h.term, valueBetween_succ h.begin_le, or_iff_left hv]
  expr := by rw [h.expr, valueBetween_succ h.start_le, or_iff_left hv]
  bounds a ha := ⟨(h.bounds a ha).1, Nat.lt_succ_of_lt (h.bounds a ha).2⟩
  token := h.token

theorem At.termEmpty_iff (h : l.At ts start k) :
    l.termEmpty = true ↔ ¬ValueBefore (ts.map Token.piece) k := by
  rw [← h.before, ← h.term, Bool.not_eq_false]

theorem at_start (ts : List Token) (h : ¬ValueBefore (ts.map Token.piece) k) :
    Level.At ts k k {} where
  start_le := Nat.le_refl k
  term := by simpa [begin] using not_valueBetween_self _ k
  expr := by simpa using not_valueBetween_self _ k
  bounds := nofun
  token := nofun
  before := iff_of_false (not_valueBetween_self _ k) h
  same := nofun

theorem At.same_succ (h : l.At ts start k)
    (hlevel : ∀ x, Encloses (ts.map Token.piece) x (k + 1) ↔ Encloses (ts.map Token.piece) x k) :
    ∀ a, l.alternation = some a → SameLevel (ts.map Token.piece) a.place (k + 1) :=
  fun a ha x => (h.same a ha x).trans (hlevel x).symm

theorem At.pass (h : l.At ts start k)
    (hlevel : ∀ x, Encloses (ts.map Token.piece) x (k + 1) ↔ Encloses (ts.map Token.piece) x k)
    (hv : ¬ValueAt (ts.map Token.piece) k) (ha : (ts.map Token.piece)[k]? ≠ some .alternation) :
    l.At ts start (k + 1) where
  toKnows := h.toKnows.skip hv
  before := by
    rw [valueBetween_succ h.begin_le, valueBefore_succ hlevel ha, h.before]
  same := h.same_succ hlevel

theorem At.value (h : l.At ts start k)
    (hlevel : ∀ x, Encloses (ts.map Token.piece) x (k + 1) ↔ Encloses (ts.map Token.piece) x k)
    (hv : ValueAt (ts.map Token.piece) k) (ha : (ts.map Token.piece)[k]? ≠ some .alternation) :
    Level.At ts start (k + 1) { l with termEmpty := false, exprEmpty := false } where
  start_le := Nat.le_succ_of_le h.start_le
  term := iff_of_true rfl ((valueBetween_succ h.begin_le).mpr (.inr hv))
  expr := iff_of_true rfl ((valueBetween_succ h.start_le).mpr (.inr hv))
  bounds := (h.toKnows.bounds · · |>.imp id Nat.lt_succ_of_lt)
  token := h.token
  before := iff_of_true ((valueBetween_succ h.begin_le).mpr (.inr hv))
    ((valueBefore_succ hlevel ha).mpr (.inr hv))
  same := h.same_succ hlevel

theorem At.alternate (h : l.At ts start k) (ht : ts[k]? = some t) (hp : t.piece = .alternation)
    (hlevel : ∀ x, Encloses (ts.map Token.piece) x (k + 1) ↔ Encloses (ts.map Token.piece) x k)
    (hbefore : ValueBefore (ts.map Token.piece) k) :
    Level.At ts start (k + 1) { l with termEmpty := true, alternation := some ⟨k, t⟩ } := by
  have hpiece : (ts.map Token.piece)[k]? = some .alternation := hp ▸ getElem?_piece ht
  have hsame : SameLevel (ts.map Token.piece) k (k + 1) := fun x => (hlevel x).symm
  exact
    { start_le := Nat.le_succ_of_le h.start_le
      term := by simpa [begin] using not_valueBetween_self _ (k + 1)
      expr := by
        rw [h.expr, valueBetween_succ h.start_le, or_iff_left (not_valueAt hpiece rfl)]
      bounds := by
        rintro a ⟨⟩
        exact ⟨h.start_le, Nat.lt_succ_self k⟩
      token := by
        rintro a ⟨⟩
        exact ⟨ht, hp, hbefore⟩
      before := iff_of_false (not_valueBetween_self _ _)
        (not_valueBefore_succ (.inr ⟨Nat.lt_succ_self k, hpiece, hsame⟩))
      same := by
        rintro a ⟨⟩
        exact hsame }

theorem At.passAlternation (h : l.At ts start k)
    (hp : (ts.map Token.piece)[k]? = some .alternation)
    (hlevel : ∀ x, Encloses (ts.map Token.piece) x (k + 1) ↔ Encloses (ts.map Token.piece) x k)
    (hbefore : ¬ValueBefore (ts.map Token.piece) k) : l.At ts start (k + 1) where
  toKnows := h.toKnows.skip (not_valueAt hp rfl)
  before := by
    rw [valueBetween_succ h.begin_le, or_iff_left (not_valueAt hp rfl), h.before]
    exact iff_of_false hbefore
      (not_valueBefore_succ (.inr ⟨Nat.lt_succ_self k, hp, fun x => (hlevel x).symm⟩))
  same := h.same_succ hlevel

end Level

theorem Level.Knows.resume {ts : List Token} {start k : Nat} {g : Group} {content : Level}
    (h : g.outer.Knows ts start g.opening.place) (hlt : g.opening.place < k)
    (hcontent : content.exprEmpty = false ↔
      ValueBetween (ts.map Token.piece) (g.opening.place + 1) k)
    (hv : ¬ValueAt (ts.map Token.piece) g.opening.place) :
    (g.resume content).Knows ts start k where
  start_le := Nat.le_trans h.start_le (Nat.le_of_lt hlt)
  term := by
    have hsplit := valueBetween_split h.begin_le hlt hv
    simp only [Group.resume, Bool.and_eq_false_iff, h.term, hcontent]
    exact hsplit.symm
  expr := by
    simp only [Group.resume, Bool.and_eq_false_iff, h.expr, hcontent]
    exact (valueBetween_split h.start_le hlt hv).symm
  bounds a ha := ⟨(h.bounds a ha).1, Nat.lt_trans (h.bounds a ha).2 hlt⟩
  token := h.token

theorem Level.At.resume {ts : List Token} {start k : Nat} {g : Group} {content : Level}
    (h : g.outer.At ts start g.opening.place)
    (hm : Matched (ts.map Token.piece) g.opening.place k)
    (hcontent : content.exprEmpty = false ↔
      ValueBetween (ts.map Token.piece) (g.opening.place + 1) k) :
    (g.resume content).At ts start (k + 1) where
  toKnows := (h.toKnows.resume hm.lt hcontent (not_valueAt hm.opening rfl)).skip
    (not_valueAt hm.closing rfl)
  before := by
    have hle : (g.resume content).begin start ≤ g.opening.place := h.begin_le
    rw [valueBetween_succ (Nat.le_trans hle (Nat.le_of_lt hm.lt)),
      or_iff_left (not_valueAt hm.closing rfl),
      valueBetween_split hle hm.lt (not_valueAt hm.opening rfl), hm.valueBefore_behind]
    exact or_congr_left h.before
  same a ha x := (h.same a ha x).trans (hm.encloses_behind x).symm

end RegexDiagram.EmptyOperands
