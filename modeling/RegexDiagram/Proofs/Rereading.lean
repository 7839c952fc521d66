import RegexDiagram.Proofs.Reading

/-!
Reading what was printed. The label of a piece is the text of the piece with its closing bracket.
Read again, it gives that piece, whatever comes after it. There are two exceptions: a dangling
escape takes the next character, and the closing bracket of an expression without members is read
as a member.
-/
namespace RegexDiagram

namespace BracketItem

theorem readAll_close (rest : List Char) : readAll (']' :: rest) = ([], ']' :: rest) := by
  unfold readAll
  split
  · rename_i heq
    simp at heq
  · rename_i heq
    obtain ⟨rfl, rfl⟩ := List.cons.inj heq
    exact if_pos rfl
  · rename_i heq
    obtain ⟨rfl, rfl⟩ := List.cons.inj heq
    exact if_pos rfl

theorem readAll_single {c : Char} {cs : List Char} (hc : c ≠ ']')
    (h : ∀ high rest, cs ≠ '-' :: high :: rest) :
    readAll (c :: cs) = (readAll cs).map (single c :: ·) id := by
  rw [readAll, if_neg hc]
  exact h

theorem readAll_range {low high : Char} {cs : List Char} (hl : low ≠ ']') (hh : high ≠ ']') :
    readAll (low :: '-' :: high :: cs) = (readAll cs).map (range low high :: ·) id := by
  rw [readAll, if_neg hl, if_neg hh]

theorem readAll_dash {c : Char} (rest : List Char) (hc : c ≠ ']') :
    readAll (c :: '-' :: ']' :: rest) = ([single c, single '-'], ']' :: rest) := by
  rw [readAll, if_neg hc, if_pos rfl]

theorem rest_eq_nil {cs : List Char} (h : ']' ∉ cs) : (readAll cs).2 = [] := by
  rcases readAll_rest cs with hr | ⟨rest, hr⟩
  · exact hr
  · have htext := readAll_text cs
    rw [hr] at htext
    exact absurd (htext ▸ List.mem_append_right _ List.mem_cons_self) h

/-- Items that have been read are read again in front of a closing bracket. -/
theorem readAll_append (cs rest : List Char) :
    readAll ((readAll cs).1.flatMap text ++ ']' :: rest) = ((readAll cs).1, ']' :: rest) := by
  fun_induction readAll cs with
  | case3 low cs hl => exact readAll_dash rest hl
  | case4 low high cs hl hh ih =>
    simp only [Prod.map_fst, List.flatMap_cons, text, List.cons_append, List.nil_append]
    rw [readAll_range hl hh, ih]
    rfl
  | case6 c cs hcs hc ih =>
    by_cases hdash : cs = ['-']
    · subst hdash
      exact readAll_dash rest hc
    · simp only [Prod.map_fst, List.flatMap_cons, text, List.cons_append, List.nil_append]
      rw [readAll_single hc, ih]
      · rfl
      · intro high tail heq
        have htext := readAll_text cs
        cases hitems : (readAll cs).1.flatMap text with
        | nil => simp [hitems] at heq
        | cons x xs =>
          rw [hitems, List.cons_append] at heq htext
          obtain ⟨rfl, -⟩ := List.cons.inj heq
          cases hrest : xs ++ (readAll cs).2 with
          | nil => exact hdash (by rw [← htext, hrest])
          | cons y ys => exact hcs y ys (by rw [← htext, hrest])
  | _ => exact readAll_close rest

theorem exists_text_eq_cons {items : List BracketItem} {c : Char} {cs rest : List Char}
    (h : items ≠ []) (htext : items.flatMap text ++ rest = c :: cs) :
    ∃ xs, items.flatMap text = c :: xs := by
  cases items with
  | nil => exact absurd rfl h
  | cons i items =>
    cases i <;>
    · simp only [List.flatMap_cons, text, List.cons_append, List.nil_append] at htext ⊢
      obtain ⟨rfl, -⟩ := List.cons.inj htext
      exact ⟨_, rfl⟩

theorem readLeading_member {c : Char} (cs : List Char) (hc : c = ']' ∨ c = '-') :
    readLeading (c :: cs) = ([single c], cs) := by
  rcases hc with rfl | rfl <;> rfl

theorem readLeading_other {c : Char} (cs : List Char) (hc : ¬(c = ']' ∨ c = '-')) :
    readLeading (c :: cs) = ([], c :: cs) := by
  unfold readLeading
  split <;> simp_all

theorem readLeading_append {cs : List Char} (rest : List Char)
    (h : (readLeading cs).1 ++ (readAll (readLeading cs).2).1 ≠ []) :
    readLeading (((readLeading cs).1 ++ (readAll (readLeading cs).2).1).flatMap text ++ rest) =
      ((readLeading cs).1, (readAll (readLeading cs).2).1.flatMap text ++ rest) := by
  cases cs with
  | nil => simp [readLeading, readAll] at h
  | cons c cs =>
    by_cases hc : c = ']' ∨ c = '-'
    · rw [readLeading_member cs hc]
      exact readLeading_member _ hc
    · rw [readLeading_other cs hc, List.nil_append] at h ⊢
      obtain ⟨xs, hxs⟩ := exists_text_eq_cons h (readAll_text (c :: cs))
      rw [hxs]
      exact readLeading_other _ hc

end BracketItem

namespace Bracket

/-- A bracket expression with its closing bracket. -/
def complete (b : Bracket) : Bracket := { b with closed := true }

theorem text_complete (b : Bracket) : b.complete.text = b.label := rfl

theorem readNegation_other {c : Char} (cs : List Char) (hc : c ≠ '^') :
    readNegation (c :: cs) = (false, c :: cs) := by
  unfold readNegation
  split <;> simp_all

theorem negated_readClosing (negated : Bool) (items : List BracketItem) (cs : List Char) :
    (readClosing negated items cs).1.negated = negated := by
  fun_cases readClosing negated items cs <;> rfl

theorem items_readClosing (negated : Bool) (items : List BracketItem) (cs : List Char) :
    (readClosing negated items cs).1.items = items := by
  fun_cases readClosing negated items cs <;> rfl

theorem negated_read (cs : List Char) : (read cs).1.negated = (readNegation cs).1 :=
  negated_readClosing ..

theorem items_read (cs : List Char) : (read cs).1.items =
    (BracketItem.readLeading (readNegation cs).2).1 ++
      (BracketItem.readAll (BracketItem.readLeading (readNegation cs).2).2).1 :=
  items_readClosing ..

theorem text_items (cs : List Char) : (read cs).1.items.flatMap BracketItem.text ++
    (BracketItem.readAll (BracketItem.readLeading (readNegation cs).2).2).2 =
      (readNegation cs).2 := by
  rw [items_read, List.flatMap_append, List.append_assoc, BracketItem.readAll_text,
    BracketItem.readLeading_text]

theorem readNegation_append {cs : List Char} (rest : List Char) (h : (read cs).1.items ≠ []) :
    readNegation ((if (readNegation cs).1 then ['^'] else []) ++
      ((read cs).1.items.flatMap BracketItem.text ++ rest)) =
      ((readNegation cs).1, (read cs).1.items.flatMap BracketItem.text ++ rest) := by
  have htext := text_items cs
  cases cs with
  | nil => simp [items_read, readNegation, BracketItem.readLeading, BracketItem.readAll] at h
  | cons c cs =>
    by_cases hc : c = '^'
    · subst hc
      rfl
    · simp only [readNegation_other cs hc] at htext ⊢
      obtain ⟨xs, hxs⟩ := BracketItem.exists_text_eq_cons h htext
      rw [hxs]
      exact readNegation_other _ hc

theorem rest_of_items_eq_nil {cs : List Char} (h : (read cs).1.items = []) :
    (readNegation cs).2 = [] := by
  have htext := text_items cs
  rw [h, List.flatMap_nil, List.nil_append] at htext
  rw [← htext]
  rcases BracketItem.readAll_rest (BracketItem.readLeading (readNegation cs).2).2 with hr | ⟨r, hr⟩
  · exact hr
  · rw [hr] at htext
    rw [items_read, ← htext, BracketItem.readLeading_member r (.inl rfl)] at h
    simp at h

theorem closed_of_items_eq_nil {cs : List Char} (h : (read cs).1.items = []) :
    (read cs).1.closed = false := by
  simp [read, rest_of_items_eq_nil h, BracketItem.readLeading, BracketItem.readAll, readClosing]

/-- A bracket expression that has members is read again from its label. -/
theorem read_label {cs : List Char} (rest : List Char) (h : (read cs).1.items ≠ []) :
    read ((if (read cs).1.negated then ['^'] else []) ++
      ((read cs).1.items.flatMap BracketItem.text ++ ']' :: rest)) =
      ((read cs).1.complete, rest) := by
  have hitems := items_read cs
  rw [hitems] at h
  rw [negated_read, read, readNegation_append _ (hitems ▸ h)]
  simp only [hitems]
  rw [BracketItem.readLeading_append _ h]
  simp only [BracketItem.readAll_append]
  rw [readClosing, complete, negated_read, hitems]

theorem closed_read_close (negated : Bool) {rest : List Char} (h : ']' ∉ rest) :
    (read ((if negated then ['^'] else []) ++ ']' :: rest)).1.closed = false := by
  have hnegation : readNegation ((if negated then ['^'] else []) ++ ']' :: rest) =
      (negated, ']' :: rest) := by
    cases negated <;> rfl
  simp only [read, hnegation, BracketItem.readLeading_member rest (.inl rfl),
    BracketItem.rest_eq_nil h, readClosing]

end Bracket

namespace Value

def complete : Value → Value
  | bracket b => bracket b.complete
  | v => v

end Value

namespace Piece

/-- The piece that was meant: a bracket expression has its closing bracket. -/
def complete : Piece → Piece
  | value v => value v.complete
  | p => p

theorem text_complete (p : Piece) : p.complete.text = p.label := by
  cases p with
  | value v => cases v <;> rfl
  | _ => rfl

/-- A bracket expression that came to the end of the source before its first member. -/
def isHollow : Piece → Bool
  | value (.bracket b) => !b.closed && b.items.isEmpty
  | _ => false

/-- Where the text of a piece is read, the piece is found and nothing more. -/
def Legible (p : Piece) : Prop := ∀ rest, readAll (p.text ++ rest) = p :: readAll rest

theorem readAll_cons (c : Char) (rest : List Char) :
    readAll (c :: rest) = (read c rest).1 :: readAll (read c rest).2 := by
  rw [readAll]

theorem readAll_flatMap_append {ps : List Piece} (h : ∀ p ∈ ps, p.Legible) (rest : List Char) :
    readAll (ps.flatMap text ++ rest) = ps ++ readAll rest := by
  induction ps with
  | nil => rfl
  | cons p ps ih =>
    obtain ⟨hp, hps⟩ := List.forall_mem_cons.mp h
    rw [List.flatMap_cons, List.append_assoc, hp, ih hps, List.cons_append]

theorem legible_quantifier (q : Quantifier) : (quantifier q).Legible := by
  intro rest
  cases q <;> exact readAll_cons _ _

theorem legible_groupClose : groupClose.Legible := fun rest => readAll_cons ')' rest

theorem legible_complete_bracket {cs : List Char}
    (h : (value (.bracket (Bracket.read cs).1)).isHollow = false) :
    (value (.bracket (Bracket.read cs).1)).complete.Legible := by
  intro rest
  have hitems : (Bracket.read cs).1.items ≠ [] := by
    intro hnil
    simp [isHollow, hnil, Bracket.closed_of_items_eq_nil hnil] at h
  have hread := Bracket.read_label rest hitems
  simp only [complete, Value.complete, text, Value.text, Bracket.text_complete, Bracket.label,
    Bracket.body, List.cons_append, List.append_assoc, List.nil_append]
  rw [readAll_cons, read, hread]

/-- Whatever has been read is legible once its closing bracket is there. -/
theorem legible_complete_read (c : Char) (rest : List Char) :
    (read c rest).1 ≠ .value .danglingEscape → (read c rest).1.isHollow = false →
      (read c rest).1.complete.Legible := by
  fun_cases read c rest with
  | case1 => exact fun _ hhollow => legible_complete_bracket hhollow
  | case9 => exact fun h => absurd rfl h
  | case10 d => exact fun _ _ rest => readAll_cons '\\' (d :: rest)
  | case11 c =>
    intro _ _ rest
    show readAll (c :: rest) = _
    rw [readAll_cons]
    unfold read
    split <;> simp_all [complete, Value.complete]
  | _ => exact fun _ _ rest => readAll_cons _ rest

theorem exists_read_of_mem {cs : List Char} {p : Piece} (h : p ∈ readAll cs) :
    ∃ c rest, p = (read c rest).1 := by
  fun_induction readAll cs with
  | case1 => simp at h
  | case2 c rest ih =>
    rcases List.mem_cons.mp h with rfl | h
    · exact ⟨c, rest, rfl⟩
    · exact ih h

theorem legible_complete {cs : List Char} {p : Piece} (h : p ∈ readAll cs)
    (hvalid : p ≠ .value .danglingEscape) (hhollow : p.isHollow = false) :
    p.complete.Legible := by
  obtain ⟨c, rest, rfl⟩ := exists_read_of_mem h
  exact legible_complete_read c rest hvalid hhollow

theorem isUnfinished_of_isHollow {p : Piece} (h : p.isHollow = true) : p.isUnfinished = true := by
  fun_cases isHollow p with
  | case1 b => simp_all [isHollow, isUnfinished]
  | case2 => simp_all [isHollow]

/-- The label of a bracket expression without members is the start of another one, which runs to the
end again. -/
theorem exists_readAll_of_isHollow {p : Piece} (h : p.isHollow = true) {rest : List Char}
    (hrest : ']' ∉ rest) :
    ∃ q qs, readAll (p.label ++ rest) = q :: qs ∧ q.isUnfinished = true := by
  fun_cases isHollow p with
  | case1 b =>
    have hitems : b.items = [] := by simp_all [isHollow]
    have hclosed := Bracket.closed_read_close b.negated hrest
    refine ⟨_, _, readAll_cons '[' _, ?_⟩
    simpa [read, isUnfinished, hitems] using hclosed
  | case2 => simp_all [isHollow]

end Piece
end RegexDiagram
