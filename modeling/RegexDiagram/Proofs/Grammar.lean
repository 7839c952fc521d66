import RegexDiagram.Proofs.Survivors

/-!
The grammar of regexes, on rows of pieces. It is the grammar of which syntax trees are the
derivations, so the tokens of a tree derive from it, and tokens that derive from it are well formed
in the sense of validation.
-/
namespace RegexDiagram

/--
An expression is one or more terms with alternations in between, a term one or more factors, a
factor an atom that may have a quantifier, and an atom a value or an expression in parentheses.
-/
inductive Derives : Precedence → List Piece → Prop
  | value (v : Value) : Derives .atom [.value v]
  | group {ps : List Piece} (h : Derives .expr ps) :
      Derives .atom (.groupOpen :: (ps ++ [.groupClose]))
  | atom {ps : List Piece} (h : Derives .atom ps) : Derives .factor ps
  | quantified {ps : List Piece} (h : Derives .atom ps) (q : Quantifier) :
      Derives .factor (ps ++ [.quantifier q])
  | factor {ps : List Piece} (h : Derives .factor ps) : Derives .term ps
  | concat {ps qs : List Piece} (hp : Derives .term ps) (hq : Derives .factor qs) :
      Derives .term (ps ++ qs)
  | term {ps : List Piece} (h : Derives .term ps) : Derives .expr ps
  | alternation {ps qs : List Piece} (hp : Derives .expr ps) (hq : Derives .term qs) :
      Derives .expr (ps ++ .alternation :: qs)

namespace Derives

variable {l : Precedence} {ps : List Piece}

theorem of_factor (h : Derives .factor ps) (hl : l ≠ .atom) : Derives l ps := by
  cases l with
  | atom => exact absurd rfl hl
  | factor => exact h
  | term => exact .factor h
  | expr => exact .term (.factor h)

theorem of_atom (h : Derives .atom ps) : Derives l ps := by
  by_cases hl : l = .atom
  · subst hl
    exact h
  · exact (atom h).of_factor hl

theorem of_term (h : Derives .term ps) (hl : l = .term ∨ l = .expr) : Derives l ps := by
  rcases hl with rfl | rfl
  · exact h
  · exact .term h

end Derives

theorem Tree.derives {l : Precedence} (t : Tree l) : Derives l (t.tokens.map Token.piece) := by
  induction t with
  | value t v hv =>
    simp only [tokens, List.map_cons, List.map_nil, hv]
    exact (Derives.value v).of_atom
  | group opening closing ho hc body ih =>
    simp only [tokens, List.map_cons, List.map_append, List.map_nil, ho, hc]
    exact (Derives.group ih).of_atom
  | quantified a t q hq hl ih =>
    simp only [tokens, List.map_append, List.map_cons, List.map_nil, hq]
    exact (Derives.quantified ih q).of_factor hl
  | concat f g hl ihf ihg =>
    rw [tokens, List.map_append]
    exact (Derives.concat ihf ihg).of_term hl
  | alternation e t ht g ihe ihg =>
    rw [tokens, List.map_append, List.map_cons, ht]
    exact .alternation ihe ihg

theorem Follows.of_quantified {p : Phase} {ts : List Token} (h : Follows false .quantified ts)
    (hp : p ≠ .start) : Follows false p ts := by
  cases h with
  | nil => exact .nil hp
  | value hv ht h => exact .value hv ht h
  | group ho hc hcontent h => exact .group ho hc hcontent h
  | alternation _ ha ht h => exact .alternation hp ha ht h
  | quantifier hq => simp at hq

/-- The phase in which a row of some precedence can be left: only atoms can be quantified. -/
def Precedence.phase (l : Precedence) : Phase := if l = .atom then .atom else .quantified

/-- Valid tokens of pieces that derive from the grammar are well formed, and so is what may follow
them. -/
theorem Derives.follows {l : Precedence} {ps : List Piece} (h : Derives l ps) {ts rest : List Token}
    (hts : ts.map Token.piece = ps) (hvalid : ∀ t ∈ ts, t.invalid = false) (p : Phase)
    (hrest : Follows false l.phase rest) : Follows false p (ts ++ rest) := by
  induction h generalizing ts rest p with
  | value v =>
    obtain ⟨t, rfl, hv⟩ := List.map_eq_singleton_iff.mp hts
    exact .value hv (hvalid t List.mem_cons_self) hrest
  | group _ ih =>
    obtain ⟨opening, ts, rfl, ho, hts⟩ := List.map_eq_cons_iff.mp hts
    obtain ⟨content, ts, rfl, hcontent, hts⟩ := List.map_eq_append_iff.mp hts
    obtain ⟨closing, rfl, hc⟩ := List.map_eq_singleton_iff.mp hts
    simp only [List.forall_mem_cons, List.forall_mem_append, List.mem_singleton, forall_eq]
      at hvalid
    obtain ⟨hopening, hinside, hclosing⟩ := hvalid
    have hbody := ih hcontent hinside .start (.nil (by decide))
    simpa using Follows.group (p := p) ⟨ho, hopening⟩ ⟨hc, hclosing⟩ hbody hrest
  | atom _ ih => exact ih hts hvalid p (hrest.of_quantified (by decide))
  | quantified _ q ih =>
    obtain ⟨us, vs, rfl, hus, hvs⟩ := List.map_eq_append_iff.mp hts
    obtain ⟨t, rfl, hq⟩ := List.map_eq_singleton_iff.mp hvs
    simp only [List.forall_mem_append, List.mem_singleton, forall_eq] at hvalid
    simpa using ih hus hvalid.1 p (.quantifier (.inl rfl) hq hvalid.2 hrest)
  | factor _ ih => exact ih hts hvalid p hrest
  | concat _ _ ihp ihq =>
    obtain ⟨us, vs, rfl, hus, hvs⟩ := List.map_eq_append_iff.mp hts
    rw [List.forall_mem_append] at hvalid
    rw [List.append_assoc]
    exact ihp hus hvalid.1 p (ihq hvs hvalid.2 _ hrest)
  | term _ ih => exact ih hts hvalid p hrest
  | alternation _ _ ihp ihq =>
    obtain ⟨us, vs, rfl, hus, hvs⟩ := List.map_eq_append_iff.mp hts
    obtain ⟨t, vs, rfl, ha, hvs⟩ := List.map_eq_cons_iff.mp hvs
    rw [List.forall_mem_append, List.forall_mem_cons] at hvalid
    obtain ⟨hleft, ht, hright⟩ := hvalid
    rw [List.append_assoc]
    exact ihp hus hleft p (.alternation (by decide) ha ht (ihq hvs hright .start hrest))

theorem Derives.follows_start {ts : List Token} (h : Derives .expr (ts.map Token.piece))
    (hvalid : ∀ t ∈ ts, t.invalid = false) : Follows false .start ts := by
  have hfollows := h.follows rfl hvalid .start (.nil (by decide))
  rwa [List.append_nil] at hfollows

end RegexDiagram
