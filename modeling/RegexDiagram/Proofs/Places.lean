import RegexDiagram.Validation

/-!
Places in an analysis. The lexemes are numbered in order, every token stands at a lexeme, and what
is reported blames lexemes that exist. The value tokens stand at lexemes of their own, in source order.
Validation keeps all of this, because it moves no lexeme and adds only closing parentheses, which
stand where their group opens.
-/
namespace RegexDiagram

namespace Analysis

/-- The lexemes as pairs of an index and a position in the source. -/
def places (ls : List Lexeme) : List (Nat × Nat) := ls.map fun l => (l.index, l.pos)

/-- The lexemes of the value tokens. -/
def valueIndexes (ts : List Token) : List Nat := (ts.filter (·.isValue)).map (·.index)

/-- An analysis whose lexemes are numbered from `index` on. -/
structure Consistent (index : Nat) (a : Analysis) : Prop where
  numbered : (places a.lexemes).map Prod.fst = List.range' index a.lexemes.length
  standing : ∀ t ∈ a.tokens, (t.index, t.pos) ∈ places a.lexemes
  blamed : ∀ f ∈ a.findings, ∀ i ∈ f.lexemes, i ∈ (places a.lexemes).map Prod.fst
  ordered : (valueIndexes a.tokens).Pairwise (· < ·)

@[simp] theorem places_append (ls ms : List Lexeme) : places (ls ++ ms) = places ls ++ places ms :=
  List.map_append

@[simp] theorem places_markInvalid (indexes : List Nat) (ls : List Lexeme) :
    places (Lexeme.markInvalid indexes ls) = places ls := by
  rw [places, Lexeme.markInvalid, List.map_map]
  refine List.map_congr_left fun l _ => ?_
  simp only [Function.comp]
  split <;> rfl

@[simp] theorem length_markInvalid (indexes : List Nat) (ls : List Lexeme) :
    (Lexeme.markInvalid indexes ls).length = ls.length := List.length_map _

theorem valueIndexes_append (ts us : List Token) :
    valueIndexes (ts ++ us) = valueIndexes ts ++ valueIndexes us := by
  simp [valueIndexes]

theorem valueIndexes_cons (t : Token) (ts : List Token) :
    valueIndexes (t :: ts) = (if t.isValue then [t.index] else []) ++ valueIndexes ts := by
  cases h : t.isValue <;> simp [valueIndexes, h]

namespace Consistent

variable {index : Nat} {a b : Analysis}

theorem mem_range (h : a.Consistent index) {t : Token} (ht : t ∈ a.tokens) :
    index ≤ t.index ∧ t.index < index + a.lexemes.length := by
  have hmem := List.mem_map_of_mem (f := Prod.fst) (h.standing t ht)
  rw [h.numbered, List.mem_range'] at hmem
  obtain ⟨i, hi, heq⟩ := hmem
  simp only [Nat.one_mul] at heq
  omega

theorem append (ha : a.Consistent index) (hb : b.Consistent (index + a.lexemes.length)) :
    (a ++ b).Consistent index where
  numbered := by
    simp only [lexemes_append, places_append, List.map_append, ha.numbered, hb.numbered,
      List.length_append]
    exact List.range'_append_1
  standing t ht := by
    rw [lexemes_append, places_append, List.mem_append]
    exact (List.mem_append.mp ht).imp (ha.standing t) (hb.standing t)
  blamed f hf i hi := by
    rw [lexemes_append, places_append, List.map_append, List.mem_append]
    exact (List.mem_append.mp hf).imp (fun h => ha.blamed f h i hi) fun h => hb.blamed f h i hi
  ordered := by
    rw [tokens_append, valueIndexes_append, List.pairwise_append]
    refine ⟨ha.ordered, hb.ordered, ?_⟩
    intro i hi j hj
    simp only [valueIndexes, List.mem_map, List.mem_filter] at hi hj
    obtain ⟨t, ⟨ht, -⟩, rfl⟩ := hi
    obtain ⟨u, ⟨hu, -⟩, rfl⟩ := hj
    have hlt := (ha.mem_range ht).2
    have hle := (hb.mem_range hu).1
    omega

/-- A pass that leaves the places alone and blames only lexemes of tokens. -/
theorem pass (h : a.Consistent index) {ts : List Token} {fs : List Finding}
    (hstanding : ∀ t ∈ ts, ∃ u ∈ a.tokens, u.index = t.index ∧ u.pos = t.pos)
    (hblamed : ∀ f ∈ fs, ∀ i ∈ f.lexemes, ∃ u ∈ a.tokens, u.index = i)
    (hvalues : valueIndexes ts = valueIndexes a.tokens) :
    (({ a with tokens := ts } : Analysis).record fs).Consistent index where
  numbered := by simpa [record] using h.numbered
  standing t ht := by
    obtain ⟨u, hu, hindex, hpos⟩ := hstanding t ht
    simpa [record, hindex, hpos] using h.standing u hu
  blamed f hf i hi := by
    simp only [record, places_markInvalid]
    rcases List.mem_append.mp hf with hf | hf
    · exact h.blamed f hf i hi
    · obtain ⟨u, hu, rfl⟩ := hblamed f hf i hi
      exact List.mem_map_of_mem (h.standing u hu)
  ordered := by simpa [record, hvalues] using h.ordered

end Consistent

theorem places_lexemes (p : Piece) (pos index : Nat) :
    places (p.lexemes pos index) =
      (List.range' 0 p.glyphs.length).map fun i => (index + i, pos + i) := by
  rw [places, Piece.lexemes, List.map_map, ← List.zipIdx_map_snd 0 p.glyphs, List.map_map]
  rfl

theorem consistent_piece (p : Piece) (pos index : Nat) :
    (p.analysis pos index).Consistent index := by
  have hpos := List.length_pos_iff.mpr p.glyphs_ne_nil
  have hfirst : (index, pos) ∈ places (p.lexemes pos index) := by
    rw [places_lexemes]
    exact List.mem_map.mpr ⟨0, List.mem_range'.mpr ⟨0, hpos, rfl⟩, rfl⟩
  refine ⟨?_, ?_, ?_, ?_⟩
  · simp only [Piece.analysis, record, places_markInvalid, length_markInvalid, places_lexemes,
      Piece.lexemes_length, List.map_map]
    refine List.ext_getElem (by simp) fun i hi hi' => ?_
    simp
  · simpa [Piece.analysis, record] using hfirst
  · intro f hf i hi
    have hi : i = index := by
      have hf : f ∈ p.findings pos index := by simpa [Piece.analysis] using hf
      fun_cases Piece.findings p pos index <;> simp_all [Piece.findings]
    simpa [Piece.analysis, record, hi] using List.mem_map_of_mem (f := Prod.fst) hfirst
  · cases h : (p.token pos index).isValue <;>
      simp [Piece.analysis, valueIndexes, h]

theorem consistent_nil (index : Nat) : ({} : Analysis).Consistent index :=
  ⟨rfl, by simp, by simp, List.Pairwise.nil⟩

theorem consistent_ofPieces (ps : List Piece) (pos index : Nat) :
    (ofPieces pos index ps).Consistent index := by
  induction ps generalizing pos index with
  | nil => exact consistent_nil index
  | cons p ps ih =>
    refine (consistent_piece p pos index).append ?_
    have hlength : (p.analysis pos index).lexemes.length = p.glyphs.length := by
      simp [Piece.analysis, record, Piece.lexemes_length]
    rw [hlength]
    exact ih _ _

theorem consistent_ofSource (source : List Char) : (ofSource source).Consistent 0 :=
  consistent_ofPieces _ 0 0

end Analysis

/-- A token stands where one of the given tokens does. -/
def StandsIn (ts : List Token) (t : Token) : Prop := ∃ u ∈ ts, u.index = t.index ∧ u.pos = t.pos

theorem StandsIn.of_mem {ts : List Token} {t : Token} (h : t ∈ ts) : StandsIn ts t :=
  ⟨t, h, rfl, rfl⟩

theorem StandsIn.mono {ts us : List Token} {t : Token} (h : StandsIn ts t) (hs : ts ⊆ us) :
    StandsIn us t := by
  obtain ⟨u, hu, heq⟩ := h
  exact ⟨u, hs hu, heq⟩

namespace Groups

theorem standsIn_balance {ts opened : List Token} {t : Token} (ht : t ∈ (balance opened ts).1) :
    StandsIn (opened ++ ts) t := by
  fun_induction balance opened ts with
  | case1 opened =>
    obtain ⟨u, hu, rfl⟩ := List.mem_map.mp ht
    exact ⟨u, by simpa using hu, rfl, rfl⟩
  | case3 u ts hp ih =>
    rcases List.mem_cons.mp ht with rfl | ht
    · exact ⟨u, by simp, rfl, rfl⟩
    · exact (ih ht).mono (by simp)
  | _ =>
    rename_i ih
    rcases List.mem_cons.mp ht with rfl | ht
    · exact .of_mem (by simp)
    · exact (ih ht).mono (by grind)

theorem mem_of_mem_balance_findings {ts opened : List Token} {f : Finding}
    (hf : f ∈ (balance opened ts).2) : ∀ i ∈ f.lexemes, ∃ u ∈ ts, u.index = i := by
  intro i hi
  fun_induction balance opened ts with
  | case1 => simp at hf
  | case3 u ts hp ih =>
    rcases List.mem_cons.mp hf with rfl | hf
    · exact ⟨u, by simp, by simpa [Finding.unopened, eq_comm] using hi⟩
    · obtain ⟨v, hv, h⟩ := ih hf
      exact ⟨v, List.mem_cons_of_mem _ hv, h⟩
  | _ =>
    rename_i ih
    obtain ⟨v, hv, h⟩ := ih hf
    exact ⟨v, List.mem_cons_of_mem _ hv, h⟩

theorem valueIndexes_balance (opened ts : List Token) :
    Analysis.valueIndexes (balance opened ts).1 = Analysis.valueIndexes ts := by
  fun_induction balance opened ts with
  | case1 opened => simp [Analysis.valueIndexes, Token.isValue, Token.closing, Piece.isValue]
  | case3 u ts hp ih =>
    have hcons := Analysis.valueIndexes_cons u.invalidate (balance [] ts).1
    rw [ih] at hcons
    exact hcons.trans (Analysis.valueIndexes_cons u ts).symm
  | _ =>
    rename_i ih
    simp only [Prod.map_fst, Analysis.valueIndexes_cons, ih]

end Groups

namespace EmptyOperands

/-- All tokens that a search remembers are among the given ones. -/
def Search.Within (ts : List Token) (s : Search) : Prop :=
  (∀ a, s.level.alternation = some a → a.token ∈ ts) ∧
    ∀ g ∈ s.groups, g.opening.token ∈ ts ∧ ∀ a, g.outer.alternation = some a → a.token ∈ ts

/-- What is found blames only lexemes of the given tokens. -/
def Verdict.Within (ts : List Token) (v : Verdict) : Prop :=
  ∀ f ∈ v.findings, ∀ i ∈ f.lexemes, ∃ u ∈ ts, u.index = i

theorem Level.within_ending {ts : List Token} {l : Level}
    (h : ∀ a, l.alternation = some a → a.token ∈ ts) : l.ending.Within ts := by
  intro f hf i hi
  cases ha : l.alternation with
  | none => simp [Level.ending, ha] at hf
  | some a =>
    cases he : l.termEmpty with
    | false => simp [Level.ending, ha, he] at hf
    | true =>
      obtain rfl : f = .alternationBeforeNothing a.token := by
        simpa [Level.ending, ha, he] using hf
      exact ⟨a.token, h a ha, by simpa [Finding.alternationBeforeNothing, eq_comm] using hi⟩

theorem Group.within_verdict {ts : List Token} {g : Group} {p : Placed} (content : Level)
    (hg : g.opening.token ∈ ts) (hp : p.token ∈ ts) : (g.verdict content p).Within ts := by
  intro f hf i hi
  simp only [Group.verdict] at hf
  split at hf
  · split at hf
    · obtain rfl := List.mem_singleton.mp hf
      exact ⟨_, hg, by simpa [Finding.emptyOpenGroup, eq_comm] using hi⟩
    · obtain rfl := List.mem_singleton.mp hf
      rcases List.mem_cons.mp hi with rfl | hi
      · exact ⟨_, hp, rfl⟩
      · exact ⟨_, hg, by simpa [eq_comm] using hi⟩
  · split at hf
    · obtain rfl := List.mem_singleton.mp hf
      exact ⟨_, hg, by simpa [Finding.openGroup, eq_comm] using hi⟩
    · simp at hf

theorem Verdict.within_empty (ts : List Token) : Verdict.Within ts {} := by
  simp [Verdict.Within]

theorem Search.Within.step {ts : List Token} {s : Search} {p : Placed} {r : Search × Verdict}
    (hs : s.Within ts) (hp : p.token ∈ ts) (h : s.step p = some r) :
    r.1.Within ts ∧ r.2.Within ts := by
  have keep {l : Level} (hl : ∀ a, l.alternation = some a → a.token ∈ ts)
      (hr : some ({ s with level := l }, ({} : Verdict)) = some r) :
      r.1.Within ts ∧ r.2.Within ts := by
    obtain rfl := Option.some.inj hr
    exact ⟨⟨hl, hs.2⟩, Verdict.within_empty ts⟩
  have drop {f : Finding} (hf : f.lexemes = [p.token.index])
      (hr : some (s, (⟨[p.place], [f]⟩ : Verdict)) = some r) :
      r.1.Within ts ∧ r.2.Within ts := by
    obtain rfl := Option.some.inj hr
    refine ⟨hs, fun g hg i hi => ⟨p.token, hp, ?_⟩⟩
    obtain rfl := List.mem_singleton.mp hg
    simpa [hf, eq_comm] using hi
  by_cases hv : p.token.invalid
  · exact keep hs.1 (by simpa [Search.step, hv] using h)
  · simp only [Search.step, hv, Bool.false_eq_true, if_false] at h
    cases hpiece : p.token.piece with
    | value v =>
      exact keep (l := { s.level with termEmpty := false, exprEmpty := false }) hs.1
        (by simpa [hpiece] using h)
    | alternation =>
      cases he : s.level.termEmpty with
      | true => exact drop rfl (by simpa [hpiece, he] using h)
      | false =>
        refine keep (l := { s.level with termEmpty := true, alternation := some p }) ?_
          (by simpa [hpiece, he] using h)
        intro a h'
        obtain ⟨⟩ := h'
        exact hp
    | quantifier q =>
      cases he : s.level.termEmpty with
      | true => exact drop rfl (by simpa [hpiece, he] using h)
      | false => exact keep hs.1 (by simpa [hpiece, he] using h)
    | groupOpen =>
      simp only [hpiece, Option.some.injEq] at h
      subst h
      exact ⟨⟨nofun, List.forall_mem_cons.mpr ⟨⟨hp, hs.1⟩, hs.2⟩⟩, Verdict.within_empty ts⟩
    | groupClose =>
      cases hgs : s.groups with
      | nil => simp [hpiece, hgs] at h
      | cons g gs =>
        simp only [hpiece, hgs, Option.some.injEq] at h
        subst h
        have hgroups := hs.2
        rw [hgs, List.forall_mem_cons] at hgroups
        obtain ⟨⟨hopening, houter⟩, hgs⟩ := hgroups
        refine ⟨⟨houter, hgs⟩, fun f hf => ?_⟩
        rcases List.mem_append.mp hf with hf | hf
        · exact Group.within_verdict s.level hopening hp f hf
        · exact Level.within_ending hs.1 f hf

theorem Search.Within.run {ts us : List Token} {s : Search} {place : Nat} {v : Verdict}
    (hs : s.Within ts) (hus : us ⊆ ts) (h : s.run place us = some v) : v.Within ts := by
  induction us generalizing s place v with
  | nil =>
    obtain rfl : s.level.ending = v := by simpa [Search.run] using h
    exact Level.within_ending hs.1
  | cons t us ih =>
    obtain ⟨ht, hus⟩ := List.cons_subset.mp hus
    simp only [Search.run, Option.bind_eq_some_iff, Option.map_eq_some_iff] at h
    obtain ⟨r, hr, w, hw, rfl⟩ := h
    obtain ⟨hr₁, hr₂⟩ := hs.step ht hr
    intro f hf
    rcases List.mem_append.mp hf with hf | hf
    · exact hr₂ f hf
    · exact ih hr₁ hus hw f hf

theorem standsIn_invalidate {places : List Nat} {ts : List Token} {t : Token}
    (ht : t ∈ invalidate places ts) : StandsIn ts t := by
  obtain ⟨i, hi, rfl⟩ := List.mem_mapIdx.mp ht
  refine ⟨ts[i], List.getElem_mem hi, ?_⟩
  split <;> exact ⟨rfl, rfl⟩

theorem valueIndexes_mapIdx (f : Nat → Token → Token)
    (hf : ∀ i t, (f i t).isValue = t.isValue ∧ (f i t).index = t.index) (ts : List Token) :
    Analysis.valueIndexes (ts.mapIdx f) = Analysis.valueIndexes ts := by
  induction ts generalizing f with
  | nil => rfl
  | cons t ts ih =>
    rw [List.mapIdx_cons, Analysis.valueIndexes_cons, Analysis.valueIndexes_cons, (hf 0 t).1,
      (hf 0 t).2, ih _ fun i => hf (i + 1)]

theorem valueIndexes_invalidate (places : List Nat) (ts : List Token) :
    Analysis.valueIndexes (invalidate places ts) = Analysis.valueIndexes ts := by
  refine valueIndexes_mapIdx _ (fun i t => ?_) ts
  split <;> exact ⟨rfl, rfl⟩

end EmptyOperands

namespace QuantifierChains

theorem standsIn_fold {q : Option Quantifier} {ts : List Token} {t : Token}
    (ht : t ∈ (fold q ts).tokens) : StandsIn ts t := by
  fun_induction fold q ts with
  | case1 => simp at ht
  | _ =>
    rename_i ih
    rcases List.mem_cons.mp ht with rfl | ht
    · exact ⟨_, List.mem_cons_self, rfl, rfl⟩
    · exact (ih ht).mono (List.subset_cons_self _ _)

theorem mem_of_mem_fold_findings {q : Option Quantifier} {ts : List Token} {f : Finding}
    (hf : f ∈ (fold q ts).findings) : ∀ i ∈ f.lexemes, ∃ u ∈ ts, u.index = i := by
  intro i hi
  fun_induction fold q ts with
  | case1 => simp at hf
  | case3 t ts ht r q hp rest ih =>
    rcases List.mem_cons.mp hf with rfl | hf
    · exact ⟨t, by simp, by simpa [Finding.quantifierChain, eq_comm] using hi⟩
    · obtain ⟨v, hv, h⟩ := ih hf
      exact ⟨v, List.mem_cons_of_mem _ hv, h⟩
  | _ =>
    rename_i ih
    obtain ⟨v, hv, h⟩ := ih hf
    exact ⟨v, List.mem_cons_of_mem _ hv, h⟩

theorem valueIndexes_fold (q : Option Quantifier) (ts : List Token) :
    Analysis.valueIndexes (fold q ts).tokens = Analysis.valueIndexes ts := by
  fun_induction fold q ts with
  | case1 => rfl
  | case3 t ts ht r q hp rest ih =>
    have hcons := Analysis.valueIndexes_cons t.invalidate (fold (some (q.fold r)) ts).tokens
    rw [ih] at hcons
    exact hcons.trans (Analysis.valueIndexes_cons t ts).symm
  | case4 t ts ht r hp rest ih =>
    have ht : t.isValue = false := by simp [Token.isValue, Piece.isValue, hp]
    simp only [Folded.restart, Analysis.valueIndexes_cons, rest, ih, ht]
    rfl
  | _ =>
    rename_i ih
    simp only [Folded.cons, Folded.restart, Analysis.valueIndexes_cons, ih]

end QuantifierChains

namespace Analysis.Consistent

variable {index : Nat} {a b : Analysis}

theorem balanceGroups (h : a.Consistent index) : a.balanceGroups.Consistent index :=
  h.pass (fun _ ht => Groups.standsIn_balance ht)
    (fun _ hf => Groups.mem_of_mem_balance_findings hf) (Groups.valueIndexes_balance [] a.tokens)

theorem dropEmptyOperands (h : a.Consistent index) (hb : a.dropEmptyOperands = some b) :
    b.Consistent index := by
  obtain ⟨v, hv, rfl⟩ := Option.map_eq_some_iff.mp hb
  have hwithin : EmptyOperands.Search.Within a.tokens {} := ⟨nofun, by simp⟩
  exact h.pass (fun _ ht => EmptyOperands.standsIn_invalidate ht)
    (hwithin.run (List.Subset.refl _) hv) (EmptyOperands.valueIndexes_invalidate _ _)

theorem foldQuantifiers (h : a.Consistent index) : a.foldQuantifiers.Consistent index :=
  h.pass (fun _ ht => QuantifierChains.standsIn_fold ht)
    (fun _ hf => QuantifierChains.mem_of_mem_fold_findings hf)
    (QuantifierChains.valueIndexes_fold none a.tokens)

theorem validate (h : a.Consistent index) (hb : a.validate = some b) : b.Consistent index := by
  obtain ⟨c, hc, rfl⟩ := Option.map_eq_some_iff.mp hb
  exact (h.balanceGroups.dropEmptyOperands hc).foldQuantifiers

end Analysis.Consistent

end RegexDiagram
