import Mathlib.Data.List.TakeWhile
import RegexDiagram.Proofs.Members
import RegexDiagram.Proofs.Report
import RegexDiagram.Proofs.Rereading
import RegexDiagram.Proofs.Tokenization

/-!
Reading a bracket expression where it stands in the source. It ends at the first closing bracket
that is not its first member, or else at the end of the source, and no range runs across that
place. Its members are those that its lexemes show.
-/
namespace RegexDiagram

namespace Piece

theorem exists_read_of_split {cs : List Char} {xs ys : List Piece} {p : Piece}
    (h : readAll cs = xs ++ p :: ys) :
    ∃ c rest, cs.drop (xs.flatMap text).length = c :: rest ∧ (read c rest).1 = p := by
  fun_induction readAll cs generalizing xs with
  | case1 => simp at h
  | case2 c rest ih =>
    cases xs with
    | nil => exact ⟨c, rest, rfl, (List.cons.inj h).1⟩
    | cons x xs =>
      obtain ⟨hx, hrest⟩ := List.cons.inj h
      obtain ⟨d, ds, hdrop, hd⟩ := ih hrest
      refine ⟨d, ds, ?_, hd⟩
      rw [List.flatMap_cons, List.length_append, ← hx, ← read_text c rest,
        List.drop_length_add_append, hdrop]

theorem read_eq_bracket {c : Char} {rest : List Char} {b : Bracket}
    (h : (read c rest).1 = value (.bracket b)) : c = '[' ∧ (Bracket.read rest).1 = b := by
  fun_cases read c rest with
  | case1 r => exact ⟨rfl, by simpa [read] using h⟩
  | _ => simp_all [read]

theorem finished_of_split {cs : List Char} {xs ys : List Piece} {p : Piece}
    (h : readAll cs = xs ++ p :: ys) : ∀ q ∈ xs, q.isUnfinished = false := by
  intro q hq
  cases hunfinished : q.isUnfinished with
  | false => rfl
  | true =>
    obtain ⟨as, bs, rfl⟩ := List.append_of_mem hq
    rw [List.append_assoc, List.cons_append] at h
    have hnil := eq_nil_of_isUnfinished hunfinished h
    simp at hnil

end Piece

namespace BracketItem

/-- No item takes in the first closing bracket, and no range crosses it. -/
theorem readAll_snd (cs : List Char) : (readAll cs).2 = cs.dropWhile (· ≠ ']') := by
  fun_induction readAll cs with
  | case1 => rfl
  | case2 high rest => rfl
  | case3 low rest hlow => simp [hlow]
  | case4 low high rest hlow hhigh ih =>
    simp only [List.dropWhile_cons, ne_eq, hlow, hhigh]
    exact ih
  | case5 rest _ => rfl
  | case6 c rest _ hc ih =>
    simp only [List.dropWhile_cons, ne_eq, hc]
    exact ih

/-- Only a closing bracket that comes first is read as a member before the others. -/
theorem dropWhile_readLeading (cs : List Char) : (readLeading cs).2.dropWhile (· ≠ ']') =
    (if cs[0]? = some ']' then cs.drop 1 else cs).dropWhile (· ≠ ']') := by
  cases cs with
  | nil => rfl
  | cons c rest =>
    by_cases hc : c = ']' ∨ c = '-'
    · rw [readLeading_member rest hc]
      rcases hc with rfl | rfl <;> simp
    · rw [readLeading_other rest hc, if_neg (by simp_all)]

end BracketItem

/-- From `start` on, the first closing bracket is at `k`. -/
structure ClosesAt (source : List Char) (start k : Nat) : Prop where
  le : start ≤ k
  closing : source[k]? = some ']'
  first : ∀ j, start ≤ j → j < k → source[j]? ≠ some ']'

section ClosesAt

variable {source : List Char} {start k : Nat}

theorem ClosesAt.drop_eq (h : ClosesAt source start k) :
    source.drop k = ']' :: source.drop (k + 1) := by
  obtain ⟨hk, hclosing⟩ := List.getElem?_eq_some_iff.mp h.closing
  rw [List.drop_eq_getElem_cons hk, hclosing]

theorem ClosesAt.dropWhile_eq (h : ClosesAt source start k) :
    (source.drop start).dropWhile (· ≠ ']') = source.drop k := by
  obtain ⟨n, rfl⟩ := Nat.exists_eq_add_of_le h.le
  induction n generalizing start with
  | zero =>
    rw [Nat.add_zero] at h ⊢
    rw [h.drop_eq]
    rfl
  | succ n ih =>
    obtain ⟨hlength, -⟩ := List.getElem?_eq_some_iff.mp h.closing
    have hstart : start < source.length := by omega
    have hother : source[start] ≠ ']' := by
      have hfirst := h.first start (Nat.le_refl start) (by omega)
      rwa [List.getElem?_eq_getElem hstart, ne_eq, Option.some_inj] at hfirst
    have hnext : start + 1 + n = start + (n + 1) := by omega
    rw [← hnext] at h ⊢
    rw [List.drop_eq_getElem_cons hstart, List.dropWhile_cons_of_pos (by simpa using hother)]
    exact ih ⟨Nat.le_add_right _ n, h.closing, fun j hj => h.first j (by omega)⟩

theorem getElem?_ne_of_not_closesAt (h : ∀ k, ¬ClosesAt source start k) (hk : start ≤ k) :
    source[k]? ≠ some ']' := by
  induction k using Nat.strongRecOn with
  | ind k ih =>
    intro hclosing
    exact h k ⟨hk, hclosing, fun j hj hlt => ih j hlt hj⟩

theorem dropWhile_eq_nil_of_not_closesAt (h : ∀ k, ¬ClosesAt source start k) :
    (source.drop start).dropWhile (· ≠ ']') = [] := by
  apply List.dropWhile_eq_nil_iff.mpr
  intro c hc
  obtain ⟨i, hi⟩ := List.mem_iff_getElem?.mp hc
  rw [List.getElem?_drop] at hi
  have hne := getElem?_ne_of_not_closesAt h (Nat.le_add_right start i)
  rw [hi, ne_eq, Option.some_inj] at hne
  simpa using hne

end ClosesAt

namespace Bracket

/-- Where the members of an expression start that opens at `p`. -/
def membersAt (source : List Char) (p : Nat) : Nat :=
  if source[p + 1]? = some '^' then p + 2 else p + 1

/-- From where on a bracket closes an expression that opens at `p`: one that comes first does not. -/
def closableAt (source : List Char) (p : Nat) : Nat :=
  if source[membersAt source p]? = some ']' then membersAt source p + 1 else membersAt source p

section Opening

variable {source cs : List Char} {p k : Nat}

theorem getElem?_of_drop (h : source.drop p = '[' :: cs) (i : Nat) :
    source[p + 1 + i]? = cs[i]? := by
  rw [Nat.add_assoc, Nat.add_comm 1 i, ← List.getElem?_drop, h, List.getElem?_cons_succ]

theorem drop_of_drop (h : source.drop p = '[' :: cs) (i : Nat) :
    source.drop (p + 1 + i) = cs.drop i := by
  rw [Nat.add_assoc, Nat.add_comm 1 i, ← List.drop_drop, h, List.drop_succ_cons]

theorem negated_iff (cs : List Char) : (read cs).1.negated = true ↔ cs[0]? = some '^' := by
  rw [negated_read]
  cases cs with
  | nil => simp [readNegation]
  | cons c rest =>
    by_cases hc : c = '^'
    · simp [hc, readNegation]
    · simp [readNegation_other rest hc, hc]

theorem drop_membersAt (h : source.drop p = '[' :: cs) :
    source.drop (membersAt source p) = (readNegation cs).2 := by
  have hnegated := negated_iff cs
  rw [negated_read, ← getElem?_of_drop h 0, Nat.add_zero] at hnegated
  rw [membersAt, ← if_congr hnegated rfl rfl]
  fun_cases readNegation cs with
  | case1 rest => exact drop_of_drop h 1
  | case2 => exact drop_of_drop h 0

/-- What is left of an expression when its items have been read. -/
theorem dropWhile_closableAt (h : source.drop p = '[' :: cs) :
    (source.drop (closableAt source p)).dropWhile (· ≠ ']') =
      (BracketItem.readAll (BracketItem.readLeading (readNegation cs).2).2).2 := by
  have hmembers := drop_membersAt h
  rw [BracketItem.readAll_snd, closableAt]
  generalize membersAt source p = q at hmembers ⊢
  have hfirst : source[q]? = (readNegation cs).2[0]? := by
    rw [← hmembers, List.getElem?_drop, Nat.add_zero]
  have hrest : source.drop (q + 1) = (readNegation cs).2.drop 1 := by
    rw [← hmembers, List.drop_drop]
  rw [BracketItem.dropWhile_readLeading, hfirst]
  split
  · rw [hrest]
  · rw [hmembers]

/-- An expression that opens at `p` and is closed at `k` ends there. -/
theorem read_of_closesAt (h : source.drop p = '[' :: cs)
    (hk : ClosesAt source (closableAt source p) k) :
    (read cs).1.closed = true ∧ (read cs).2 = source.drop (k + 1) := by
  have hleft := dropWhile_closableAt h
  rw [hk.dropWhile_eq, hk.drop_eq] at hleft
  rw [read, ← hleft]
  exact ⟨rfl, rfl⟩

theorem read_of_not_closesAt (h : source.drop p = '[' :: cs)
    (hk : ∀ k, ¬ClosesAt source (closableAt source p) k) :
    (read cs).1.closed = false ∧ (read cs).2 = [] := by
  have hleft := dropWhile_closableAt h
  rw [dropWhile_eq_nil_of_not_closesAt hk] at hleft
  rw [read, ← hleft]
  exact ⟨rfl, rfl⟩

theorem lt_closableAt (source : List Char) (p : Nat) : p < closableAt source p := by
  unfold closableAt membersAt
  split <;> split <;> omega

theorem text_of_closesAt (h : source.drop p = '[' :: cs)
    (hk : ClosesAt source (closableAt source p) k) :
    (read cs).1.text = (source.drop p).take (k + 1 - p) := by
  have htext := read_text cs
  have hle := hk.le
  have hlt := lt_closableAt source p
  have hend : source.drop (k + 1) = (source.drop p).drop (k + 1 - p) := by
    rw [List.drop_drop, Nat.add_sub_cancel' (by omega)]
  rw [(read_of_closesAt h hk).2, ← h, hend] at htext
  exact List.append_cancel_right (htext.trans (List.take_append_drop _ _).symm)

theorem text_of_not_closesAt (h : source.drop p = '[' :: cs)
    (hk : ∀ k, ¬ClosesAt source (closableAt source p) k) :
    (read cs).1.text = source.drop p := by
  have htext := read_text cs
  rwa [(read_of_not_closesAt h hk).2, List.append_nil, ← h] at htext

end Opening
end Bracket

namespace Lexeme

theorem glyphs_markInvalid (indexes : List Nat) (ls : List Lexeme) :
    (markInvalid indexes ls).map glyph = ls.map glyph := by
  rw [markInvalid, List.map_map]
  apply List.map_congr_left
  intro l _
  simp only [Function.comp]
  split <;> rfl

end Lexeme

theorem Piece.glyphs_lexemes (p : Piece) (pos index : Nat) :
    (p.lexemes pos index).map Lexeme.glyph = p.glyphs := by
  rw [lexemes, List.map_map]
  exact List.zipIdx_map_fst 0 p.glyphs

namespace Analysis

/-- What the lexemes of a token show. -/
def shown (a : Analysis) (t : Token) : List Glyph :=
  ((a.lexemes.drop t.index).take t.span.length).map Lexeme.glyph

variable {ps : List Piece} {pos index : Nat} {t : Token}

theorem glyphs_ofPieces (ps : List Piece) (pos index : Nat) :
    (ofPieces pos index ps).lexemes.map Lexeme.glyph = ps.flatMap Piece.glyphs := by
  induction ps generalizing pos index with
  | nil => rfl
  | cons p ps ih =>
    rw [ofPieces, lexemes_append, List.map_append, Piece.analysis, record,
      Lexeme.glyphs_markInvalid, p.glyphs_lexemes, ih, List.flatMap_cons]

theorem exists_split_of_mem (ht : t ∈ (ofPieces pos index ps).tokens) :
    ∃ xs ys, ps = xs ++ t.piece :: ys ∧ t = t.piece.token (pos + (xs.flatMap Piece.text).length)
      (index + (xs.flatMap Piece.glyphs).length) := by
  induction ps generalizing pos index with
  | nil => simp [ofPieces] at ht
  | cons p ps ih =>
    rw [ofPieces, tokens_append] at ht
    rcases List.mem_append.mp ht with ht | ht
    · have ht : t = p.token pos index := by simpa [Piece.analysis] using ht
      exact ⟨[], ps, by simp [ht], by simp [ht]⟩
    · obtain ⟨xs, ys, hps, htoken⟩ := ih ht
      refine ⟨p :: xs, ys, by rw [hps, List.cons_append], ?_⟩
      rw [List.flatMap_cons, List.flatMap_cons, List.length_append, List.length_append,
        ← Nat.add_assoc, ← Nat.add_assoc]
      exact htoken

theorem ofPieces_append (xs ys : List Piece) (pos index : Nat) :
    ofPieces pos index (xs ++ ys) = ofPieces pos index xs ++
      ofPieces (pos + (xs.flatMap Piece.text).length) (index + (xs.flatMap Piece.glyphs).length)
        ys := by
  induction xs generalizing pos index with
  | nil => rfl
  | cons x xs ih =>
    simp only [List.cons_append, ofPieces, ih, append_assoc, List.flatMap_cons, List.length_append,
      Nat.add_assoc]

/-- Whatever reading reports has the position of a token that is unfinished. -/
theorem exists_of_mem_findings {f : Finding} (hf : f ∈ (ofPieces pos index ps).findings) :
    ∃ t ∈ (ofPieces pos index ps).tokens, t.piece.isUnfinished = true ∧ f.pos = t.pos := by
  induction ps generalizing pos index with
  | nil => simp [ofPieces] at hf
  | cons p ps ih =>
    rw [ofPieces, findings_append] at hf
    rcases List.mem_append.mp hf with hf | hf
    · have hf : f ∈ p.findings pos index := by simpa [Piece.analysis] using hf
      have hpos : f.pos = pos := by
        fun_cases Piece.findings p pos index <;> simp_all [Piece.findings]
      have hunfinished : p.isUnfinished = true := by
        rw [← Bool.not_eq_false, ← p.findings_eq_nil_iff pos index]
        exact List.ne_nil_of_mem hf
      refine ⟨p.token pos index, ?_, by rw [p.piece_token, hunfinished], by rw [p.pos_token, hpos]⟩
      simp [ofPieces, Piece.analysis]
    · obtain ⟨t, ht, hunfinished, hpos⟩ := ih hf
      exact ⟨t, List.mem_append_right _ ht, hunfinished, hpos⟩

variable {source : List Char}

theorem not_mem_positionsOf (ht : t ∈ (ofSource source).tokens)
    (hfinished : t.piece.isUnfinished = false) (c : Category) :
    t.pos ∉ Diagnostic.positionsOf c (ofSource source).report := by
  intro hpos
  rw [report, Diagnostic.positionsOf_report] at hpos
  obtain ⟨f, hf, hft⟩ := List.mem_map.mp hpos
  obtain ⟨u, hu, hunfinished, hfu⟩ := exists_of_mem_findings (List.mem_filter.mp hf).1
  have htu : t = u := List.inj_on_of_nodup_map (nodup_positions source) ht hu (hft.symm.trans hfu)
  rw [htu, hunfinished] at hfinished
  contradiction

theorem findings_of_isUnfinished (ht : t ∈ (ofSource source).tokens)
    (hunfinished : t.piece.isUnfinished = true) :
    (ofSource source).findings = t.piece.findings t.pos t.index := by
  obtain ⟨xs, ys, hps, htoken⟩ := exists_split_of_mem ht
  obtain rfl := Piece.eq_nil_of_isUnfinished hunfinished hps
  have hbefore := (findings_ofPieces_eq_nil_iff xs 0 0).mpr (Piece.finished_of_split hps)
  rw [ofSource, hps, ofPieces_append, findings_append, hbefore]
  rw [htoken]
  simp [ofPieces, Piece.analysis]

theorem shown_of_mem (ht : t ∈ (ofSource source).tokens) :
    (ofSource source).shown t = t.piece.glyphs := by
  obtain ⟨xs, ys, hps, htoken⟩ := exists_split_of_mem ht
  have hindex : t.index = (xs.flatMap Piece.glyphs).length := by rw [htoken]; simp
  have hlength : t.span.length = t.piece.glyphs.length := by
    rw [htoken, Piece.span_token, List.length_range', Piece.piece_token]
  rw [shown, List.map_take, List.map_drop, ofSource, glyphs_ofPieces, hps, List.flatMap_append,
    List.flatMap_cons, hindex, List.drop_left, hlength, List.take_left]

theorem exists_read_of_mem (ht : t ∈ (ofSource source).tokens) :
    ∃ c rest, source.drop t.pos = c :: rest ∧ (Piece.read c rest).1 = t.piece := by
  obtain ⟨xs, ys, hps, htoken⟩ := exists_split_of_mem ht
  have hpos : t.pos = (xs.flatMap Piece.text).length := by rw [htoken]; simp
  rw [hpos]
  exact Piece.exists_read_of_split hps

/-- What is read of the bracket expression `b` of the token `t`, told from the source. -/
structure ReadsBracket (source : List Char) (t : Token) (b : Bracket) : Prop where
  opening : source[t.pos]? = some '['
  negated : b.negated = true ↔ source[t.pos + 1]? = some '^'
  /-- The first closing bracket that is not the first member ends the expression. -/
  closed : ∀ k, ClosesAt source (Bracket.closableAt source t.pos) k →
    b.closed = true ∧
    ((ofSource source).shown t).flatMap Glyph.label = (source.drop t.pos).take (k + 1 - t.pos) ∧
    t.pos ∉ Diagnostic.positionsOf .openBracket (ofSource source).report
  /-- Without one the expression takes all of the source, and that is reported once. -/
  unclosed : (∀ k, ¬ClosesAt source (Bracket.closableAt source t.pos) k) →
    b.closed = false ∧
    ((ofSource source).shown t).flatMap Glyph.label = source.drop t.pos ∧
    Diagnostic.positionsOf .openBracket (ofSource source).report = [t.pos]
  members : ∀ c, c ∈ b.members ↔ Glyph.Shows ((ofSource source).shown t) c
  /-- Members are listed in the order in which the lexemes insert them, without repetitions. -/
  listed : b.members = (Glyph.insertions ((ofSource source).shown t)).eraseDups
  distinct : b.members.Nodup
  /-- The lexemes of the brackets, and no others, carry the expression and with it its members. -/
  carried : ((ofSource source).shown t).filterMap Glyph.bracket? =
    b :: if b.closed then [b] else []
  accepts : ∀ c, (Value.bracket b).accepts c = (decide (c ∈ b.members) != b.negated)

/-- Wherever a bracket expression is read, it is read as its place in the source says. -/
theorem bracket_reading (source : List Char) (t : Token) (b : Bracket)
    (ht : t ∈ (ofSource source).tokens) (hb : t.piece = .value (.bracket b)) :
    ReadsBracket source t b := by
  obtain ⟨c, cs, hdrop, hread⟩ := exists_read_of_mem ht
  obtain ⟨rfl, hbracket⟩ := Piece.read_eq_bracket (hread.trans hb)
  have hshown : (ofSource source).shown t = b.glyphs := by rw [shown_of_mem ht, hb, Piece.glyphs]
  have hunfinished : t.piece.isUnfinished = !b.closed := by rw [hb, Piece.isUnfinished]
  refine
    { opening := ?opening
      negated := ?negated
      closed := ?closed
      unclosed := ?unclosed
      members := ?members
      listed := ?listed
      distinct := b.nodup_members
      carried := ?carried
      accepts := b.accepts_eq }
  case opening =>
    have hfirst := congrArg List.head? hdrop
    rwa [List.head?_drop] at hfirst
  case negated =>
    rw [← hbracket, Bracket.negated_iff, ← Bracket.getElem?_of_drop hdrop 0]
  case closed =>
    intro k hk
    obtain ⟨hclosed, -⟩ := Bracket.read_of_closesAt hdrop hk
    rw [hbracket] at hclosed
    rw [hshown, b.flatMap_glyphs, ← hbracket, Bracket.text_of_closesAt hdrop hk, hbracket]
    exact ⟨hclosed, rfl, not_mem_positionsOf ht (by rw [hunfinished, hclosed]; rfl) _⟩
  case unclosed =>
    intro hk
    obtain ⟨hclosed, -⟩ := Bracket.read_of_not_closesAt hdrop hk
    rw [hbracket] at hclosed
    rw [hshown, b.flatMap_glyphs, ← hbracket, Bracket.text_of_not_closesAt hdrop hk, hbracket]
    refine ⟨hclosed, rfl, ?_⟩
    rw [report, Diagnostic.positionsOf_report,
      findings_of_isUnfinished ht (by rw [hunfinished, hclosed]; rfl), hb, Piece.findings, hclosed]
    rfl
  case members =>
    intro c
    rw [hshown, Glyph.shows_iff]
  case listed => rw [hshown, Glyph.insertions_bracket, b.members_eq]
  case carried => rw [hshown, Glyph.filterMap_bracket?]

/-- A range may end where the source does, and the expression is still open. -/
theorem bracket_reading_open : let b : Bracket := ⟨true, [.single ']', .range 'a' 'c'], false⟩
    ReadsBracket "x[^]a-c".toList ⟨.value (.bracket b), 1, 1, some 6, false, false⟩ b :=
  bracket_reading _ _ _ (List.mem_of_getElem? (i := 1) (by decide +kernel)) rfl

end Analysis
end RegexDiagram
