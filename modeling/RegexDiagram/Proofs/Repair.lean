import RegexDiagram.Proofs.Acceptance
import RegexDiagram.Proofs.Compile
import RegexDiagram.Proofs.Rereading
import RegexDiagram.Proofs.Revision

/-!
The repaired text of a regex. It is made of the labels of the valid tokens, and a regex that nothing
is reported of is not changed. Compiled again, the repaired text is read as the same pieces with
their closing brackets, and nothing is reported any more, unless the regex ends in a bracket
expression without a member: the bracket that is to close it is taken for its first member.
-/
namespace RegexDiagram

theorem Diagnostic.report_eq_nil_iff {fs : List Finding} : report fs = [] ↔ fs = [] := by
  cases fs <;> simp [report, leading]

theorem Compiled.report_eq_nil_iff {c : Compiled} : c.report = [] ↔ c.analysis.findings = [] :=
  Diagnostic.report_eq_nil_iff

/-- A result of compiling whose source was validated to `a`. -/
structure Compiled.Through (c : Compiled) (a : Analysis) : Prop where
  tokens : c.analysis.tokens = a.tokens
  findings : c.analysis.findings = a.findings
  graph : Graph.ofAutomaton c.automaton = .ok c.graph
  repaired : RepairedText.ofSymbols c.symbols = some c.repaired

namespace Compiled

theorem through_ofSymbols {source : List Char} {a : Analysis} {symbols : List Symbol}
    {c : Compiled} (h : ofSymbols source a symbols = .ok c) : c.Through a := by
  simp only [ofSymbols] at h
  split at h
  · cases h
  · split at h
    · cases h
    · split at h
      · cases h
      · rename_i graph hgraph _ repaired hrepaired
        obtain rfl := Except.ok.inj h
        exact ⟨rfl, rfl, hgraph, hrepaired⟩

theorem exists_validate_of_ordered {source : List Char} {r : Analysis × List Symbol}
    (h : ordered source = .ok r) : ∃ a, (Analysis.ofSource source).validate = some a ∧
      r.1.tokens = a.tokens ∧ r.1.findings = a.findings := by
  simp only [ordered] at h
  split at h
  · cases h
  · rename_i a ha
    split at h
    · cases h
    · obtain rfl := Except.ok.inj h
      exact ⟨a, ha, rfl, rfl⟩

theorem exists_through {source : List Char} {c : Compiled} (h : compile source = .ok c) :
    ∃ a, (Analysis.ofSource source).validate = some a ∧ c.Through a := by
  simp only [compile] at h
  cases hordered : ordered source with
  | error e =>
    rw [hordered] at h
    cases h
  | ok r =>
    rw [hordered] at h
    obtain ⟨a, ha, htokens, hfindings⟩ := exists_validate_of_ordered hordered
    have hthrough := through_ofSymbols h
    exact ⟨a, ha, hthrough.tokens.trans htokens, hthrough.findings.trans hfindings,
      hthrough.graph, hthrough.repaired⟩

end Compiled

theorem exists_stages (source : List Char) :
    ∃ c a A, compile source = .ok c ∧ (Analysis.ofSource source).validate = some a ∧
      c.Through a ∧ c.Realizes A ∧ A.tokens = a.valid ∧
      c.repaired = a.valid.flatMap Token.label := by
  obtain ⟨c, A, hc, hA⟩ := exists_compile source
  obtain ⟨a, ha, hthrough⟩ := Compiled.exists_through hc
  have htokens : A.tokens = a.valid := by
    rw [hA.tokens, Analysis.valid, hthrough.tokens, Analysis.valid]
  exact ⟨c, a, A, hc, ha, hthrough, hA, htokens, htokens ▸ hA.repaired⟩

namespace Analysis

variable {source : List Char} {a : Analysis}

theorem labels_tokens (h : (ofSource source).findings = []) :
    (ofSource source).tokens.flatMap Token.label = source := by
  have hfinished := (findings_ofSource_eq_nil_iff source).mp h
  calc (ofSource source).tokens.flatMap Token.label
    _ = ((ofSource source).tokens.map Token.piece).flatMap Piece.label := by
      rw [List.flatMap_map]
      rfl
    _ = (Piece.readAll source).flatMap Piece.text := by
      rw [pieces_ofSource]
      exact List.flatMap_congr fun p hp => Piece.label_of_finished (hfinished p hp)
    _ = source := Piece.readAll_text source

theorem labels_valid_of_silent (ha : (ofSource source).validate = some a) (h : a.findings = []) :
    a.valid.flatMap Token.label = source := by
  obtain ⟨hfindings, htokens⟩ := tokens_of_silent ha h
  have hvalid : a.valid = (ofSource source).tokens := by
    rw [valid_eq_tokens (htokens ▸ valid_ofSource hfindings), htokens]
  rw [hvalid, labels_tokens hfindings]

end Analysis

/--
The repaired text is made of the labels of the valid tokens, in order. If nothing is reported, it is
the source.
-/
theorem repair_spells_valid (source : List Char) :
    ∃ c a, compile source = .ok c ∧ (Analysis.ofSource source).validate = some a ∧
      RepairedText.ofSymbols c.symbols = some c.repaired ∧
      c.repaired = a.valid.flatMap Token.label ∧ (c.report = [] → c.repaired = source) := by
  obtain ⟨c, a, A, hc, ha, hthrough, -, -, hrepaired⟩ := exists_stages source
  refine ⟨c, a, hc, ha, hthrough.repaired, hrepaired, fun h => ?_⟩
  rw [Compiled.report_eq_nil_iff, hthrough.findings] at h
  rw [hrepaired, Analysis.labels_valid_of_silent ha h]

/-- Closing brackets do not matter for the grammar. -/
theorem Derives.complete {l : Precedence} {ps : List Piece} (h : Derives l ps) :
    Derives l (ps.map Piece.complete) := by
  induction h with
  | value v => exact .value v.complete
  | group _ ih => simpa [Piece.complete] using ih.group
  | atom _ ih => exact .atom ih
  | quantified _ q ih => simpa [Piece.complete] using ih.quantified q
  | factor _ ih => exact .factor ih
  | concat _ _ ihp ihq => simpa using ihp.concat ihq
  | term _ ih => exact .term ih
  | alternation _ _ ihp ihq => simpa [Piece.complete] using ihp.alternation ihq

theorem Piece.isUnfinished_complete {p : Piece} (h : p ≠ .value .danglingEscape) :
    p.complete.isUnfinished = false := by
  cases p with
  | value v =>
    cases v with
    | danglingEscape => exact absurd rfl h
    | _ => rfl
  | _ => rfl

theorem flatMap_label_eq (ts : List Token) :
    ts.flatMap Token.label = (ts.map fun t => t.piece.complete).flatMap Piece.text := by
  rw [List.flatMap_map]
  exact List.flatMap_congr fun t _ => (Piece.text_complete t.piece).symm

theorem Token.ComesFrom.isHollow_eq {t u : Token} (h : u.ComesFrom t) :
    u.piece.isHollow = t.piece.isHollow := by
  cases h with
  | same => rfl
  | folded hq r =>
    rw [hq]
    rfl

namespace Analysis

variable {source : List Char} {a : Analysis}

theorem legible_valid (ha : (ofSource source).validate = some a) {t : Token} (ht : t ∈ a.valid)
    (h : t.piece.isHollow = false) :
    t.piece.complete.Legible ∧ t.piece.complete.isUnfinished = false := by
  obtain ⟨us, closings, hvalid, hus, hclosings⟩ := exists_kept ha
  have hflag : t.invalid = false := (mem_valid.mp ht).2
  rw [hvalid] at ht
  rcases List.mem_append.mp ht with ht | ht
  · obtain ⟨u, hu, hfrom⟩ := exists_of_mem_left (Token.Revises.sublist_valid hus) ht
    cases hfrom with
    | same =>
      have hpiece : t.piece ≠ .value .danglingEscape := by
        intro hp
        simp [(flags_of_mem_ofSource hu).2.mpr hp] at hflag
      exact ⟨Piece.legible_complete (piece_mem_readAll hu) hpiece h,
        Piece.isUnfinished_complete hpiece⟩
    | folded hq r => exact ⟨Piece.legible_quantifier r, rfl⟩
  · rw [(hclosings t ht).2]
    exact ⟨Piece.legible_groupClose, rfl⟩

theorem isHollow_valid (ha : (ofSource source).validate = some a)
    (h : ∀ t ∈ (ofSource source).tokens, t.piece.isHollow = false) :
    ∀ t ∈ a.valid, t.piece.isHollow = false := by
  obtain ⟨us, closings, hvalid, hus, hclosings⟩ := exists_kept ha
  rw [hvalid, List.forall_mem_append]
  refine ⟨fun t ht => ?_, fun t ht => by rw [(hclosings t ht).2]; rfl⟩
  obtain ⟨u, hu, hfrom⟩ := exists_of_mem_left (Token.Revises.sublist_valid hus) ht
  rw [hfrom.isHollow_eq, h u hu]

theorem exists_valid_of_isHollow (ha : (ofSource source).validate = some a) {t : Token}
    (ht : t ∈ (ofSource source).tokens) (h : t.piece.isHollow = true) :
    ∃ ts closings, a.valid = ts ++ t :: closings ∧ (∀ u ∈ ts, u.piece.isHollow = false) ∧
      ∀ u ∈ closings, u.piece = .groupClose := by
  obtain ⟨us, closings, hvalid, hus, hclosings⟩ := exists_kept ha
  obtain ⟨ts, htokens, hts⟩ := exists_of_isUnfinished ht (Piece.isUnfinished_of_isHollow h)
  rw [htokens] at hus
  have hfirst := List.forall₂_take_append us ts _ hus
  obtain ⟨u, rest, hu, hrest, hlast⟩ :=
    List.forall₂_cons_right_iff.mp (List.forall₂_drop_append us ts _ hus)
  obtain rfl := List.forall₂_nil_right_iff.mp hrest
  have hvalue : t.isValue = true ∧ t.invalid = false := by
    have hflag := (flags_of_mem_ofSource ht).2
    cases hp : t.piece with
    | value v => cases v <;> simp_all [Token.isValue, Piece.isValue, Piece.isHollow]
    | _ => simp [hp, Piece.isHollow] at h
  obtain rfl := hu.value hvalue.1
  refine ⟨(us.take ts.length).filter (!·.invalid), closings, ?_, fun w hw => ?_,
    fun w hw => (hclosings w hw).2⟩
  · have hus := List.take_append_drop ts.length us
    rw [hlast] at hus
    rw [hvalid, ← hus, List.filter_append, List.take_left' hfirst.length_eq]
    simp [hvalue.2]
  · obtain ⟨v, hv, hfrom⟩ := exists_of_mem_left (Token.Revises.sublist_valid hfirst) hw
    cases hhollow : w.piece.isHollow with
    | false => rfl
    | true =>
      rw [hfrom.isHollow_eq] at hhollow
      simpa [hts v hv] using Piece.isUnfinished_of_isHollow hhollow

/-- The labels of valid tokens are read as the pieces of these tokens, completed. -/
theorem readAll_labels {ts : List Token} (ha : (ofSource source).validate = some a)
    (hts : ∀ t ∈ ts, t ∈ a.valid ∧ t.piece.isHollow = false) (rest : List Char) :
    Piece.readAll (ts.flatMap Token.label ++ rest) =
      ts.map (fun t => t.piece.complete) ++ Piece.readAll rest := by
  rw [flatMap_label_eq]
  refine Piece.readAll_flatMap_append (List.forall_mem_map.mpr fun t ht => ?_) rest
  exact (legible_valid ha (hts t ht).1 (hts t ht).2).1

/-- Validation finds nothing in the labels of valid tokens, if there is a member in each bracket
expression. -/
theorem validate_labels (ha : (ofSource source).validate = some a)
    (h : ∀ t ∈ (ofSource source).tokens, t.piece.isHollow = false) :
    let b := ofSource (a.valid.flatMap Token.label)
    b.validate = some b ∧ b.findings = [] ∧ b.valid = b.tokens ∧
      b.tokens.map Token.piece = a.valid.map fun t => t.piece.complete := by
  intro b
  have hhollow := isHollow_valid ha h
  have hpieces : Piece.readAll (a.valid.flatMap Token.label) =
      a.valid.map fun t => t.piece.complete := by
    simpa [Piece.readAll] using readAll_labels ha (fun t ht => ⟨ht, hhollow t ht⟩) []
  have hfindings : b.findings = [] := by
    rw [findings_ofSource_eq_nil_iff, hpieces, List.forall_mem_map]
    exact fun t ht => (legible_valid ha ht (hhollow t ht)).2
  have htokens : b.tokens.map Token.piece = a.valid.map fun t => t.piece.complete := by
    rw [← hpieces, pieces_ofSource]
  have hvalid := valid_ofSource hfindings
  refine ⟨validate_of_derives ?_ hvalid fun t ht => (flags_of_mem_ofSource ht).1, hfindings,
    valid_eq_tokens hvalid, htokens⟩
  rcases derives_valid ha with hnil | hderives
  · exact .inl (by simpa [hnil] using htokens)
  · refine .inr ?_
    rw [htokens]
    simpa [Function.comp_def] using hderives.complete

theorem findings_labels_ne_nil (ha : (ofSource source).validate = some a) {t : Token}
    (ht : t ∈ (ofSource source).tokens) (h : t.piece.isHollow = true) :
    (ofSource (a.valid.flatMap Token.label)).findings ≠ [] := by
  obtain ⟨ts, closings, hvalid, hts, hclosings⟩ := exists_valid_of_isHollow ha ht h
  have hrest : ']' ∉ closings.flatMap Token.label := by
    intro hmem
    obtain ⟨u, hu, hlabel⟩ := List.mem_flatMap.mp hmem
    simp [Token.label, hclosings u hu, Piece.label, Piece.text] at hlabel
  obtain ⟨q, qs, hread, hq⟩ := Piece.exists_readAll_of_isHollow h hrest
  have hpieces : Piece.readAll (a.valid.flatMap Token.label) =
      ts.map (fun t => t.piece.complete) ++ q :: qs := by
    rw [hvalid, List.flatMap_append, readAll_labels ha, List.flatMap_cons, Token.label, hread]
    exact fun u hu => ⟨by simp [hvalid, hu], hts u hu⟩
  intro hnil
  have hfinished := (findings_ofSource_eq_nil_iff _).mp hnil q (by simp [hpieces])
  simp [hq] at hfinished

end Analysis

/--
The repaired text is stable exactly if the source does not end in a bracket expression without a
member: compiled again, it gives no report, and then it is not changed by another repair.
-/
theorem repair_stable_iff (source : List Char) :
    ∃ c d, compile source = .ok c ∧ compile c.repaired = .ok d ∧
      (d.report = [] ↔ ∀ t ∈ (Analysis.ofSource source).tokens, t.piece.isHollow = false) ∧
      (d.report = [] → d.repaired = c.repaired) := by
  obtain ⟨c, a, A, hc, ha, -, -, -, hrepaired⟩ := exists_stages source
  obtain ⟨d, b, B, hd, hb, hthrough, -, -, hagain⟩ := exists_stages c.repaired
  have hreport : d.report = [] ↔ b.findings = [] := by
    rw [Compiled.report_eq_nil_iff, hthrough.findings]
  refine ⟨c, d, hc, hd, ⟨fun h t ht => ?_, fun h => ?_⟩, fun h => ?_⟩
  · have hfindings := (Analysis.tokens_of_silent hb (hreport.mp h)).1
    cases hhollow : t.piece.isHollow with
    | false => rfl
    | true => exact absurd (hrepaired ▸ hfindings) (Analysis.findings_labels_ne_nil ha ht hhollow)
  · obtain ⟨hvalidate, hfindings, -, -⟩ := Analysis.validate_labels ha h
    rw [← hrepaired, hb] at hvalidate
    rw [hreport, Option.some.inj hvalidate, hrepaired, hfindings]
  · rw [hagain, Analysis.labels_valid_of_silent hb (hreport.mp h)]

/-- A single bracket is repaired to a text that is reported and repaired again. -/
theorem repair_of_bracket_unstable :
    ∃ c d, compile ['['] = .ok c ∧ c.repaired = ['[', ']'] ∧ compile c.repaired = .ok d ∧
      d.report = [⟨.openBracket, ['['], [0]⟩] ∧ d.repaired = ['[', ']', ']'] := by
  have hfirst : (compile ['[']).toOption.map (·.repaired) = some ['[', ']'] := by
    decide +kernel
  have hsecond : (compile ['[', ']']).toOption.map (fun d => (d.report, d.repaired)) =
      some ([⟨.openBracket, ['['], [0]⟩], ['[', ']', ']']) := by
    decide +kernel
  obtain ⟨c, -, hc, -⟩ := exists_compile ['[']
  rw [hc] at hfirst
  have hrepaired : c.repaired = ['[', ']'] := Option.some.inj hfirst
  obtain ⟨d, -, hd, -⟩ := exists_compile c.repaired
  rw [← hrepaired, hd] at hsecond
  obtain ⟨hreport, hagain⟩ := Prod.mk.inj (Option.some.inj hsecond)
  exact ⟨c, d, hc, hrepaired, hd, hreport, hagain⟩

end RegexDiagram
