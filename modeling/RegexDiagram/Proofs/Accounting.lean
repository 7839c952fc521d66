import RegexDiagram.Proofs.Diagnosis

/-!
Accounting for the diagnostics. Every lexeme that is marked as invalid is blamed by one finding, and
a finding blames the lexeme at its position, an empty group also the one that opens it. So the
positions that are reported are those of the invalid lexemes but for the opening parentheses of
empty groups.
-/
namespace RegexDiagram

/-- A finding about a place also blames the parenthesis that opens a group there. -/
def Blames (ps : List Piece) (k i : Nat) : Prop := i = k ∨ Matched ps i k

section Blames

variable {ts : List Token} {counts : Nat → Prop} {f f' : Finding} {i k k' n : Nat} {c c' : Category}

theorem Blames.unique {ps : List Piece} (hd : Defect ps counts k c) (hd' : Defect ps counts k' c')
    (h : Blames ps k i) (h' : Blames ps k' i) : k = k' := by
  rcases h with rfl | h
  · rcases h' with rfl | h'
    · rfl
    · exact absurd hd h'.not_defect
  · rcases h' with rfl | h'
    · exact absurd hd' h.not_defect
    · exact h.right_unique h'

theorem Finding.Reports.mem_lexemes (h : f.Reports ts counts k) (hn : n ∈ f.lexemes) :
    f.lexemes.head? = some n ∨ (f.category = .emptyGroup ∧
      ∃ i o, ts[i]? = some o ∧ o.index = n ∧ Matched (ts.map Token.piece) i k) := by
  cases h with
  | single _ _ _ _ hlexemes =>
    rw [hlexemes, List.mem_singleton] at hn
    exact .inl (by simp [hlexemes, hn])
  | pair _ _ hc _ ho hm hlexemes =>
    rw [hlexemes, List.mem_pair] at hn
    rcases hn with rfl | rfl
    · exact .inl (by simp [hlexemes])
    · exact .inr ⟨hc, _, _, ho, rfl, hm⟩

theorem Finding.Reports.exists_blamed (h : f.Reports ts counts k) (hn : n ∈ f.lexemes) :
    ∃ i t, ts[i]? = some t ∧ t.index = n ∧ Blames (ts.map Token.piece) k i := by
  rcases h.mem_lexemes hn with hhead | ⟨-, i, o, ho, hindex, hm⟩
  · obtain ⟨t, ht, -, hindex⟩ := h.exists_token
    exact ⟨k, t, ht, Option.some.inj (hindex.symm.trans hhead), .inl rfl⟩
  · exact ⟨i, o, ho, hindex, .inr hm⟩

theorem Finding.Reports.nodup_lexemes (hts : (ts.map Token.index).Nodup)
    (h : f.Reports ts counts k) : f.lexemes.Nodup := by
  cases h with
  | single _ _ _ _ hlexemes => simp [hlexemes]
  | pair ht _ _ _ ho hm hlexemes =>
    have hne : ¬_ = _ := fun heq => Nat.ne_of_lt hm.lt (place_unique hts ho ht heq)
    simp [hlexemes, eq_comm, hne]

theorem Finding.Reports.disjoint (hts : (ts.map Token.index).Nodup) (h : f.Reports ts counts k)
    (h' : f'.Reports ts counts k') (hne : k ≠ k') : f.lexemes.Disjoint f'.lexemes := by
  intro n hn hn'
  obtain ⟨i, t, ht, rfl, hi⟩ := h.exists_blamed hn
  obtain ⟨j, u, hu, heq, hj⟩ := h'.exists_blamed hn'
  obtain rfl := place_unique hts hu ht heq
  exact hne (hi.unique h.defect h'.defect hj)

theorem Ledger.nodup_lexemes {places : List Nat} {fs : List Finding}
    (h : Ledger ts counts places fs) (hplaces : places.Nodup) (hts : (ts.map Token.index).Nodup) :
    (fs.flatMap (·.lexemes)).Nodup := by
  obtain ⟨es, hperm, rfl, hes⟩ := h
  have hentries := List.pairwise_map.mp (hperm.nodup_iff.mpr hplaces)
  rw [List.flatMap_map, List.nodup_flatMap]
  exact ⟨fun e he => (hes e he).nodup_lexemes hts,
    hentries.imp_of_mem fun he he' hne => (hes _ he).disjoint hts (hes _ he') hne⟩

theorem Ledger.nodup_heads {places : List Nat} {fs : List Finding}
    (h : Ledger ts counts places fs) (hplaces : places.Nodup) (hts : (ts.map Token.index).Nodup) :
    (fs.map (·.lexemes.head?)).Nodup := by
  obtain ⟨es, hperm, rfl, hes⟩ := h
  have hentries := List.pairwise_map.mp (hperm.nodup_iff.mpr hplaces)
  rw [List.map_map]
  refine List.pairwise_map.mpr (hentries.imp_of_mem fun {e e'} he he' hne heq => hne ?_)
  obtain ⟨t, ht, -, hhead⟩ := (hes e he).exists_token
  obtain ⟨u, hu, -, hhead'⟩ := (hes e' he').exists_token
  exact place_unique hts ht hu (Option.some.inj (hhead.symm.trans (heq.trans hhead')))

theorem Ledger.length_lexemes {places : List Nat} {fs : List Finding}
    (h : Ledger ts counts places fs) : (fs.flatMap (·.lexemes)).length =
      fs.length + (fs.filter (·.category = .emptyGroup)).length := by
  obtain ⟨es, -, rfl, hes⟩ := h
  induction es with
  | nil => rfl
  | cons e es ih =>
    obtain ⟨he, hes⟩ := List.forall_mem_cons.mp hes
    have hrest := ih hes
    simp only [List.map_cons, List.flatMap_cons, List.length_append, List.length_cons]
    cases he with
    | single _ _ hc _ hlexemes =>
      rw [List.filter_cons_of_neg (by simpa using hc), hlexemes, hrest, List.length_singleton]
      omega
    | pair _ _ hc _ _ _ hlexemes =>
      rw [List.filter_cons_of_pos (by simpa using hc), hlexemes, hrest]
      simp only [List.length_cons, List.length_nil]
      omega

end Blames

namespace Analysis

theorem Consistent.index_range {index : Nat} {a : Analysis} (h : a.Consistent index) {l : Lexeme}
    (hl : l ∈ a.lexemes) : index ≤ l.index ∧ l.index < index + a.lexemes.length := by
  rw [← List.mem_range'_1, ← h.numbered, places, List.map_map]
  exact List.mem_map_of_mem hl

theorem Consistent.blamed_range {index : Nat} {a : Analysis} (h : a.Consistent index) {f : Finding}
    (hf : f ∈ a.findings) {i : Nat} (hi : i ∈ f.lexemes) :
    index ≤ i ∧ i < index + a.lexemes.length := by
  rw [← List.mem_range'_1, ← h.numbered]
  exact h.blamed f hf i hi

/-- The lexemes that are marked as invalid are those that the findings blame. -/
def Flagged (a : Analysis) : Prop :=
  ∀ l ∈ a.lexemes, l.invalid = true ↔ ∃ f ∈ a.findings, l.index ∈ f.lexemes

namespace Flagged

variable {index : Nat} {a b : Analysis}

theorem record (h : a.Flagged) (fs : List Finding) : (a.record fs).Flagged := by
  intro l hl
  obtain ⟨m, hm, rfl⟩ := List.mem_map.mp hl
  simp only [findings_record, List.mem_append, or_and_right, exists_or]
  split
  · rename_i hblamed
    simp only [List.contains_iff_mem, List.mem_flatMap] at hblamed
    exact iff_of_true rfl (.inr hblamed)
  · rename_i hblamed
    simp only [List.contains_iff_mem, List.mem_flatMap] at hblamed
    rw [h m hm, or_iff_left hblamed]

theorem append (ha : a.Flagged) (hb : b.Flagged) (hca : a.Consistent index)
    (hcb : b.Consistent (index + a.lexemes.length)) : (a ++ b).Flagged := by
  intro l hl
  simp only [findings_append, List.mem_append, or_and_right, exists_or]
  rcases List.mem_append.mp hl with hl | hl
  · have hrange := hca.index_range hl
    rw [ha l hl, or_iff_left]
    rintro ⟨f, hf, hi⟩
    have hblamed := hcb.blamed_range hf hi
    omega
  · have hrange := hcb.index_range hl
    rw [hb l hl, or_iff_right]
    rintro ⟨f, hf, hi⟩
    have hblamed := hca.blamed_range hf hi
    omega

theorem piece (p : Piece) (pos index : Nat) : (p.analysis pos index).Flagged := by
  refine Flagged.record (fun l hl => ?_) _
  obtain ⟨g, -, rfl⟩ := List.mem_map.mp hl
  simp

theorem ofPieces (ps : List Piece) (pos index : Nat) : (ofPieces pos index ps).Flagged := by
  induction ps generalizing pos index with
  | nil => exact fun l hl => by simp [Analysis.ofPieces] at hl
  | cons p ps ih =>
    refine (piece p pos index).append (ih _ _) (consistent_piece p pos index) ?_
    rw [length_lexemes_analysis]
    exact consistent_ofPieces ps _ _

theorem validate (h : a.Flagged) (hb : a.validate = some b) :
    b.Flagged ∧ places b.lexemes = places a.lexemes := by
  obtain ⟨c, hc, rfl⟩ := Option.map_eq_some_iff.mp hb
  obtain ⟨v, -, rfl⟩ := Option.map_eq_some_iff.mp hc
  exact ⟨Flagged.record (Flagged.record (h.record _) _) _,
    by simp [foldQuantifiers, balanceGroups, Analysis.record]⟩

end Flagged

theorem Consistent.nodup_indexes {index : Nat} {a : Analysis} (h : a.Consistent index) :
    (a.lexemes.map (·.index)).Nodup := by
  have hnumbered := h.numbered
  rw [places, List.map_map] at hnumbered
  exact hnumbered ▸ List.nodup_range'

theorem invalidLexemes_perm {a : Analysis} (ha : a.Flagged) (hc : a.Consistent 0)
    (hnodup : (a.findings.flatMap (·.lexemes)).Nodup) :
    a.invalidLexemes.Perm (a.findings.flatMap (·.lexemes)) := by
  refine (List.perm_ext_iff_of_nodup ((List.filter_sublist.map _).nodup hc.nodup_indexes)
    hnodup).mpr fun i => ?_
  simp only [List.mem_map, List.mem_filter, List.mem_flatMap]
  constructor
  · rintro ⟨l, ⟨hl, hinvalid⟩, rfl⟩
    exact (ha l hl).mp hinvalid
  · rintro ⟨f, hf, hi⟩
    obtain ⟨⟨_, _⟩, hplace, rfl⟩ := List.mem_map.mp (hc.blamed f hf i hi)
    obtain ⟨l, hl, heq⟩ := List.mem_map.mp hplace
    obtain ⟨rfl, rfl⟩ := Prod.mk.inj heq
    exact ⟨l, ⟨hl, (ha l hl).mpr ⟨f, hf, hi⟩⟩, rfl⟩

/-- A lexeme is the opening parenthesis of a pair that is reported as empty. -/
def OpensEmptyGroup (ts : List Token) (a : Analysis) (l : Lexeme) : Prop :=
  ∃ i k o t, ts[i]? = some o ∧ ts[k]? = some t ∧ Matched (ts.map Token.piece) i k ∧
    t.pos ∈ Diagnostic.positionsOf .emptyGroup a.report ∧ o.index = l.index

/-- The findings of an analysis keep a ledger of the tokens `ts`, and its lexemes are marked
accordingly. -/
structure Accounted (ts : List Token) (counts : Nat → Prop) (a : Analysis) : Prop where
  ledger : ∃ ks : List Nat, Ledger ts counts ks a.findings ∧ ks.Nodup
  indexes : (ts.map Token.index).Nodup
  consistent : a.Consistent 0
  standing : ∀ t ∈ ts, (t.index, t.pos) ∈ places a.lexemes
  flagged : a.Flagged

namespace Accounted

variable {ts : List Token} {counts : Nat → Prop} {a : Analysis} {l : Lexeme} {f : Finding}
  {t : Token}

theorem exists_reports (h : a.Accounted ts counts) (hf : f ∈ a.findings) :
    ∃ k, f.Reports ts counts k := by
  obtain ⟨ks, ⟨es, -, heq, hes⟩, -⟩ := h.ledger
  rw [← heq] at hf
  obtain ⟨e, he, rfl⟩ := List.mem_map.mp hf
  exact ⟨e.1, hes e he⟩

theorem exists_lexeme (h : a.Accounted ts counts) (ht : t ∈ ts) :
    ∃ l ∈ a.lexemes, l.index = t.index ∧ l.pos = t.pos ∧
      ∀ m ∈ a.lexemes, m.index = t.index → m = l := by
  obtain ⟨l, hl, heq⟩ := List.mem_map.mp (h.standing t ht)
  obtain ⟨hindex, hpos⟩ := Prod.mk.inj heq
  exact ⟨l, hl, hindex, hpos, fun m hm hm' =>
    List.inj_on_of_nodup_map h.consistent.nodup_indexes hm hl (hm'.trans hindex.symm)⟩

theorem exists_finding (h : a.Accounted ts counts) (hl : l ∈ a.lexemes)
    (hinvalid : l.invalid = true) (hopens : ¬a.OpensEmptyGroup ts l) :
    ∃ f ∈ a.findings, f.lexemes.head? = some l.index ∧ f.pos = l.pos := by
  obtain ⟨f, hf, hblamed⟩ := (h.flagged l hl).mp hinvalid
  obtain ⟨k, hreports⟩ := h.exists_reports hf
  obtain ⟨t, ht, hpos, hhead⟩ := hreports.exists_token
  obtain ⟨m, hm, hindex, hpos', hunique⟩ := h.exists_lexeme (List.mem_of_getElem? ht)
  rcases hreports.mem_lexemes hblamed with hl' | ⟨hc, i, o, ho, hindex', hm'⟩
  · obtain rfl := hunique l hl (Option.some.inj (hl'.symm.trans hhead))
    exact ⟨f, hf, hl', hpos.trans hpos'.symm⟩
  · refine absurd ⟨i, k, o, t, ho, ht, hm', ?_, hindex'⟩ hopens
    rw [report, Diagnostic.positionsOf_report]
    exact List.mem_map.mpr ⟨f, List.mem_filter.mpr ⟨hf, by simpa using hc⟩, hpos⟩

theorem exists_lexeme_of_finding (h : a.Accounted ts counts) (hf : f ∈ a.findings) :
    ∃ l ∈ a.lexemes, l.invalid = true ∧ ¬a.OpensEmptyGroup ts l ∧
      f.lexemes.head? = some l.index ∧ f.pos = l.pos := by
  obtain ⟨k, hreports⟩ := h.exists_reports hf
  obtain ⟨t, ht, hpos, hhead⟩ := hreports.exists_token
  obtain ⟨l, hl, hindex, hpos', -⟩ := h.exists_lexeme (List.mem_of_getElem? ht)
  rw [← hindex] at hhead
  refine ⟨l, hl, (h.flagged l hl).mpr ⟨f, hf, List.mem_of_head? hhead⟩, ?_, hhead,
    hpos.trans hpos'.symm⟩
  rintro ⟨i, m, o, u, ho, -, hm, -, hopens⟩
  obtain rfl := place_unique h.indexes ho ht (hopens.trans hindex)
  exact hm.not_defect hreports.defect

open Classical in
/-- The positions of the findings are those of the lexemes that are marked, but for the opening
parentheses of empty groups. -/
theorem positions_perm (h : a.Accounted ts counts) :
    (a.findings.map (·.pos)).Perm ((a.lexemes.filter fun l =>
      l.invalid = true ∧ ¬a.OpensEmptyGroup ts l).map (·.pos)) := by
  suffices (a.findings.map fun f => (f.lexemes.head?, f.pos)).Perm ((a.lexemes.filter fun l =>
      l.invalid = true ∧ ¬a.OpensEmptyGroup ts l).map fun l => (some l.index, l.pos)) by
    simpa [Function.comp_def] using this.map Prod.snd
  obtain ⟨ks, hledger, hks⟩ := h.ledger
  refine (List.perm_ext_iff_of_nodup ?_ ?_).mpr fun p => ?_
  · refine List.Nodup.of_map Prod.fst ?_
    simpa [Function.comp_def] using hledger.nodup_heads hks h.indexes
  · refine List.Nodup.of_map (fun p : Option Nat × Nat => p.1.getD 0) ?_
    rw [List.map_map]
    exact (List.filter_sublist.map _).nodup h.consistent.nodup_indexes
  · simp only [List.mem_map, List.mem_filter, decide_eq_true_eq]
    constructor
    · rintro ⟨f, hf, rfl⟩
      obtain ⟨l, hl, hinvalid, hopens, hhead, hpos⟩ := h.exists_lexeme_of_finding hf
      exact ⟨l, ⟨hl, hinvalid, hopens⟩, by rw [hhead, hpos]⟩
    · rintro ⟨l, ⟨hl, hinvalid, hopens⟩, rfl⟩
      obtain ⟨f, hf, hhead, hpos⟩ := h.exists_finding hl hinvalid hopens
      exact ⟨f, hf, by rw [hhead, hpos]⟩

end Accounted

theorem exists_accounted (source : List Char) :
    ∃ a counts, (ofSource source).validate = some a ∧
      a.Accounted (ofSource source).tokens counts := by
  obtain ⟨a, us, ha, -, ⟨ks, hledger, hks, -⟩, -⟩ := exists_exact source
  have hconsistent := consistent_ofSource source
  obtain ⟨hflagged, hplaces⟩ := (Flagged.ofPieces (Piece.readAll source) 0 0).validate ha
  exact ⟨a, Stands us, ha,
    { ledger := ⟨ks, hledger, hks⟩
      indexes := nodup_indexes source
      consistent := hconsistent.validate ha
      standing := fun t ht => hplaces ▸ hconsistent.standing t ht
      flagged := hflagged }⟩

open Classical in
/--
No lexeme is blamed twice, and those that are blamed are the invalid ones. The positions that are
reported are those of the invalid lexemes but for the opening parentheses of empty groups, so there
are as many invalid lexemes as there are findings, with empty groups counted twice. Counting the
findings one by one, each category counts as many as it has positions.
-/
theorem diagnostics_account (source : List Char) :
    ∃ a, (ofSource source).validate = some a ∧
      (a.findings.flatMap (·.lexemes)).Nodup ∧
      a.invalidLexemes.Perm (a.findings.flatMap (·.lexemes)) ∧
      (a.report.flatMap (·.positions)).Perm ((a.lexemes.filter fun l =>
        l.invalid = true ∧ ¬a.OpensEmptyGroup (ofSource source).tokens l).map (·.pos)) ∧
      a.invalidLexemes.length = Diagnostic.total a.report +
        Diagnostic.total (a.report.filter (·.category = .emptyGroup)) ∧
      Diagnostic.Tally.recordAll a.findings = a.report.map Diagnostic.tally ∧
      ∀ t ∈ Diagnostic.Tally.recordAll a.findings, t.count = t.positions.length := by
  obtain ⟨a, counts, ha, haccounted⟩ := exists_accounted source
  obtain ⟨ks, hledger, hks⟩ := haccounted.ledger
  have hnodup := hledger.nodup_lexemes hks haccounted.indexes
  have hinvalid := invalidLexemes_perm haccounted.flagged haccounted.consistent hnodup
  have hpositions := Diagnostic.positions_report_perm a.findings
  have htally := Diagnostic.recordAll_eq a.findings
  refine ⟨a, ha, hnodup, hinvalid, hpositions.trans haccounted.positions_perm, ?_, htally, ?_⟩
  · rw [hinvalid.length_eq, hledger.length_lexemes, report, Diagnostic.total_report,
      Diagnostic.total_report_filter]
  · rw [htally, List.forall_mem_map]
    exact fun d _ => rfl

end Analysis
end RegexDiagram
