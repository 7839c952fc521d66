import RegexDiagram.Proofs.Places

/-!
Reading a source into tokens. The tokens are the pieces of the source in their places. A bracket
expression that is not closed and a backslash with nothing after it are unfinished: they run to the
end of the source, so there is at most one of them, and only they are reported.
-/
namespace RegexDiagram

namespace Piece

/-- The end of the source came before the end of the piece. -/
def isUnfinished : Piece → Bool
  | value .danglingEscape => true
  | value (.bracket b) => !b.closed
  | _ => false

theorem read_rest_of_isUnfinished {c : Char} {rest : List Char} :
    (read c rest).1.isUnfinished = true → (read c rest).2 = [] := by
  fun_cases read c rest with
  | case1 => exact fun h => Bracket.read_rest_of_open (by simpa [isUnfinished] using h)
  | case9 => exact fun _ => rfl
  | _ => simp [isUnfinished]

theorem eq_nil_of_isUnfinished {cs : List Char} {xs ys : List Piece} {p : Piece}
    (hp : p.isUnfinished = true) (h : readAll cs = xs ++ p :: ys) : ys = [] := by
  fun_induction readAll cs generalizing xs with
  | case1 => simp at h
  | case2 c rest ih =>
    cases xs with
    | nil =>
      obtain ⟨rfl, rfl⟩ := List.cons.inj h
      rw [read_rest_of_isUnfinished hp, readAll]
    | cons x xs => exact ih (List.cons.inj h).2

theorem findings_eq_nil_iff (p : Piece) (pos index : Nat) :
    p.findings pos index = [] ↔ p.isUnfinished = false := by
  cases p with
  | value v =>
    cases v with
    | bracket b => cases hb : b.closed <;> simp [findings, isUnfinished, hb]
    | _ => simp [findings, isUnfinished]
  | _ => simp [findings, isUnfinished]

theorem label_of_finished {p : Piece} (h : p.isUnfinished = false) : p.label = p.text := by
  cases p with
  | value v =>
    cases v with
    | bracket b =>
      have hclosed : b.closed = true := by simpa [isUnfinished] using h
      simp [label, text, Value.label, Value.text, Bracket.label, Bracket.text, hclosed]
    | _ => rfl
  | _ => rfl

@[simp] theorem added_token (p : Piece) (pos index : Nat) : (p.token pos index).added = false := by
  fun_cases Piece.token p pos index <;> rfl

theorem invalid_token_iff (p : Piece) (pos index : Nat) :
    (p.token pos index).invalid = true ↔ p = .value .danglingEscape := by
  fun_cases Piece.token p pos index <;> simp

end Piece

namespace Analysis

theorem pieces_ofPieces (ps : List Piece) (pos index : Nat) :
    (ofPieces pos index ps).tokens.map Token.piece = ps := by
  induction ps generalizing pos index with
  | nil => rfl
  | cons p ps ih => simp [ofPieces, Piece.analysis, ih]

theorem pieces_ofSource (source : List Char) :
    (ofSource source).tokens.map Token.piece = Piece.readAll source := pieces_ofPieces _ 0 0

theorem piece_mem_readAll {source : List Char} {t : Token} (h : t ∈ (ofSource source).tokens) :
    t.piece ∈ Piece.readAll source := by
  rw [← pieces_ofSource]
  exact List.mem_map_of_mem h

theorem exists_of_mem_tokens {ps : List Piece} {pos index : Nat} {t : Token}
    (h : t ∈ (ofPieces pos index ps).tokens) : ∃ p ∈ ps, ∃ pos index, t = p.token pos index := by
  induction ps generalizing pos index with
  | nil => simp [ofPieces] at h
  | cons p ps ih =>
    rcases List.mem_append.mp h with h | h
    · exact ⟨p, List.mem_cons_self, pos, index, by simpa [Piece.analysis] using h⟩
    · obtain ⟨q, hq, h⟩ := ih h
      exact ⟨q, List.mem_cons_of_mem p hq, h⟩

theorem flags_of_mem_ofSource {source : List Char} {t : Token}
    (h : t ∈ (ofSource source).tokens) :
    t.added = false ∧ (t.invalid = true ↔ t.piece = .value .danglingEscape) := by
  obtain ⟨p, -, pos, index, rfl⟩ := exists_of_mem_tokens h
  exact ⟨p.added_token pos index, by rw [p.invalid_token_iff, p.piece_token]⟩

theorem exists_of_isUnfinished {source : List Char} {t : Token}
    (ht : t ∈ (ofSource source).tokens) (h : t.piece.isUnfinished = true) :
    ∃ ts, (ofSource source).tokens = ts ++ [t] ∧ ∀ u ∈ ts, u.piece.isUnfinished = false := by
  have hnil {us vs : List Token} {u : Token} (hu : u.piece.isUnfinished = true)
      (htokens : (ofSource source).tokens = us ++ u :: vs) : vs = [] := by
    have hpieces : Piece.readAll source = us.map Token.piece ++ u.piece :: vs.map Token.piece := by
      rw [← pieces_ofSource, htokens, List.map_append, List.map_cons]
    exact List.map_eq_nil_iff.mp (Piece.eq_nil_of_isUnfinished hu hpieces)
  obtain ⟨ts, vs, htokens⟩ := List.append_of_mem ht
  obtain rfl := hnil h htokens
  refine ⟨ts, htokens, fun u hu => ?_⟩
  obtain ⟨us, ws, rfl⟩ := List.append_of_mem hu
  cases hu' : u.piece.isUnfinished with
  | false => rfl
  | true =>
    have := hnil hu' (by rw [htokens, List.append_assoc, List.cons_append])
    simp at this

theorem findings_ofPieces_eq_nil_iff (ps : List Piece) (pos index : Nat) :
    (ofPieces pos index ps).findings = [] ↔ ∀ p ∈ ps, p.isUnfinished = false := by
  induction ps generalizing pos index with
  | nil => simp [ofPieces]
  | cons p ps ih =>
    rw [List.forall_mem_cons, ← p.findings_eq_nil_iff pos index, ← ih (pos + p.text.length)
      (index + p.glyphs.length)]
    simp [ofPieces, Piece.analysis]

theorem findings_ofSource_eq_nil_iff (source : List Char) :
    (ofSource source).findings = [] ↔ ∀ p ∈ Piece.readAll source, p.isUnfinished = false :=
  findings_ofPieces_eq_nil_iff _ 0 0

theorem valid_ofSource {source : List Char} (h : (ofSource source).findings = []) :
    ∀ t ∈ (ofSource source).tokens, t.invalid = false := by
  intro t ht
  have hfinished := (findings_ofSource_eq_nil_iff source).mp h _ (piece_mem_readAll ht)
  cases hinvalid : t.invalid with
  | false => rfl
  | true => simp [(flags_of_mem_ofSource ht).2.mp hinvalid, Piece.isUnfinished] at hfinished

theorem valid_eq_tokens {a : Analysis} (h : ∀ t ∈ a.tokens, t.invalid = false) :
    a.valid = a.tokens :=
  List.filter_eq_self.mpr fun t ht => by simp [h t ht]

end Analysis
end RegexDiagram
