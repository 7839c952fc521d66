import RegexDiagram.Proofs.Accounting

/-!
Whatever is ruled out is blamed. A token of the source that validation rules out has a finding that
blames its lexeme, so that the lexeme is marked. Values are never ruled out, and the other tokens
have one lexeme each. So every lexeme that is not marked is one of a token that is left.
-/
namespace RegexDiagram

open List (Forall₂)

/-! ## What the search rules out -/

namespace EmptyOperands

variable {P : Placed → Prop} {p : Placed} {s : Search} {l : Level} {g : Group} {v w : Verdict}

/-- All tokens that a level remembers have a property. -/
def Level.Remembers (P : Placed → Prop) (l : Level) : Prop := ∀ a ∈ l.alternation, P a

structure Group.Remembers (P : Placed → Prop) (g : Group) : Prop where
  opening : P g.opening
  outer : g.outer.Remembers P

/-- All tokens that a search remembers have a property. -/
structure Search.Remembers (P : Placed → Prop) (s : Search) : Prop where
  level : s.level.Remembers P
  groups : ∀ g ∈ s.groups, g.Remembers P

/-- What is ruled out are tokens with a property, and the findings blame them, unless they have been
added. -/
def Verdict.Blames (P : Placed → Prop) (v : Verdict) : Prop :=
  ∀ k ∈ v.places, ∃ p : Placed, P p ∧ p.place = k ∧
    (p.token.added = true ∨ ∃ f ∈ v.findings, p.token.index ∈ f.lexemes)

theorem Verdict.blames_empty (P : Placed → Prop) : Blames P ({} : Verdict) := by
  simp [Blames]

theorem Verdict.blames_single {f : Finding} (hp : P p) (hf : p.token.index ∈ f.lexemes) :
    Blames P ⟨[p.place], [f]⟩ := by
  intro k hk
  obtain rfl := List.mem_singleton.mp hk
  exact ⟨p, hp, rfl, .inr ⟨f, List.mem_singleton_self f, hf⟩⟩

theorem Verdict.Blames.append (hv : v.Blames P) (hw : w.Blames P) : (v ++ w).Blames P := by
  intro k hk
  rcases List.mem_append.mp hk with hk | hk
  · obtain ⟨p, hp, hplace, hblamed⟩ := hv k hk
    exact ⟨p, hp, hplace, hblamed.imp_right fun ⟨f, hf, hi⟩ => ⟨f, List.mem_append_left _ hf, hi⟩⟩
  · obtain ⟨p, hp, hplace, hblamed⟩ := hw k hk
    exact ⟨p, hp, hplace, hblamed.imp_right fun ⟨f, hf, hi⟩ => ⟨f, List.mem_append_right _ hf, hi⟩⟩

theorem Level.Remembers.ending (h : l.Remembers P) : l.ending.Blames P := by
  unfold Level.ending
  split
  · rename_i a ha
    split
    · exact Verdict.blames_single (h a ha) List.mem_cons_self
    · exact Verdict.blames_empty P
  · exact Verdict.blames_empty P

theorem Group.Remembers.verdict (h : g.Remembers P) (hp : P p) (content : Level) :
    (g.verdict content p).Blames P := by
  unfold Group.verdict
  split
  · intro k hk
    rcases List.mem_pair.mp hk with rfl | rfl
    · refine ⟨g.opening, h.opening, rfl, .inr ⟨_, List.mem_singleton_self _, ?_⟩⟩
      split <;> simp [Finding.emptyOpenGroup, Finding.emptyGroup]
    · cases hadded : p.token.added with
      | true => exact ⟨p, hp, rfl, .inl hadded⟩
      | false =>
        refine ⟨p, hp, rfl, .inr ⟨_, List.mem_singleton_self _, ?_⟩⟩
        simp [Finding.emptyGroup]
  · split
    · intro k hk
      simp at hk
    · exact Verdict.blames_empty P

theorem Level.Remembers.see (h : l.Remembers P) (hp : P p) :
    (l.see p).1.Remembers P ∧ (l.see p).2.Blames P := by
  have hkept : Level.Remembers P { l with termEmpty := true, alternation := some p } := by
    intro a ha
    obtain rfl := Option.some.inj ha
    exact hp
  unfold Level.see
  split
  · exact ⟨h, Verdict.blames_empty P⟩
  · split
    · exact ⟨h, Verdict.blames_empty P⟩
    · split
      · exact ⟨h, Verdict.blames_single hp List.mem_cons_self⟩
      · exact ⟨hkept, Verdict.blames_empty P⟩
    · split
      · exact ⟨h, Verdict.blames_single hp List.mem_cons_self⟩
      · exact ⟨h, Verdict.blames_empty P⟩
    · exact ⟨h, Verdict.blames_empty P⟩

/-- One step remembers nothing but the token, and rules out nothing but what it remembers. -/
theorem Search.Remembers.step {r : Search × Verdict} (h : s.Remembers P) (hp : P p)
    (hr : s.step p = some r) : r.1.Remembers P ∧ r.2.Blames P := by
  by_cases ho : p.token.Opens
  · obtain rfl := Option.some.inj ((step_opens s ho).symm.trans hr)
    exact ⟨⟨fun a ha => by simp at ha, List.forall_mem_cons.mpr ⟨⟨hp, h.level⟩, h.groups⟩⟩,
      Verdict.blames_empty P⟩
  · by_cases hc : p.token.Closes
    · obtain ⟨l, groups⟩ := s
      cases groups with
      | nil => simp [Search.step, hc.1, hc.2] at hr
      | cons g gs =>
        obtain rfl := Option.some.inj ((step_closes l g gs hc).symm.trans hr)
        obtain ⟨hg, hgs⟩ := List.forall_mem_cons.mp h.groups
        exact ⟨⟨hg.outer, hgs⟩, (hg.verdict hp l).append h.level.ending⟩
    · obtain rfl := Option.some.inj ((step_leaf s ho hc).symm.trans hr)
      obtain ⟨hlevel, hverdict⟩ := h.level.see hp
      exact ⟨⟨hlevel, h.groups⟩, hverdict⟩

theorem Search.Remembers.run {ts : List Token} {place : Nat} (h : s.Remembers P)
    (hts : ∀ (k : Nat) (t : Token), ts[k]? = some t → P ⟨place + k, t⟩)
    (hv : s.run place ts = some v) : v.Blames P := by
  induction ts generalizing s place v with
  | nil =>
    obtain rfl : s.level.ending = v := by simpa [Search.run] using hv
    exact h.level.ending
  | cons t ts ih =>
    simp only [Search.run, Option.bind_eq_some_iff, Option.map_eq_some_iff] at hv
    obtain ⟨r, hr, w, hw, rfl⟩ := hv
    obtain ⟨hremembers, hblames⟩ := h.step (hts 0 t rfl) hr
    refine hblames.append (ih hremembers (fun k u hu => ?_) hw)
    rw [Nat.add_assoc, Nat.add_comm 1]
    exact hts (k + 1) u hu

end EmptyOperands

/-! ## What is ruled out at all -/

namespace Analysis

variable {a b : Analysis} {source : List Char}

/-- Every token that has been ruled out is blamed, unless it has been added. -/
def Blamed (a : Analysis) : Prop :=
  ∀ t ∈ a.tokens, t.invalid = true → t.added = false → ∃ f ∈ a.findings, t.index ∈ f.lexemes

namespace Blamed

theorem append (ha : a.Blamed) (hb : b.Blamed) : (a ++ b).Blamed := by
  intro t ht hinvalid hadded
  rcases List.mem_append.mp ht with ht | ht
  · obtain ⟨f, hf, hi⟩ := ha t ht hinvalid hadded
    exact ⟨f, List.mem_append_left _ hf, hi⟩
  · obtain ⟨f, hf, hi⟩ := hb t ht hinvalid hadded
    exact ⟨f, List.mem_append_right _ hf, hi⟩

theorem piece (p : Piece) (pos index : Nat) : (p.analysis pos index).Blamed := by
  intro t ht hinvalid _
  obtain rfl : t = p.token pos index := by simpa [Piece.analysis] using ht
  obtain rfl := (p.invalid_token_iff pos index).mp hinvalid
  exact ⟨_, List.mem_singleton_self _, List.mem_singleton_self _⟩

theorem ofPieces (ps : List Piece) (pos index : Nat) : (ofPieces pos index ps).Blamed := by
  induction ps generalizing pos index with
  | nil => exact fun t ht => by simp [Analysis.ofPieces] at ht
  | cons p ps ih => exact (piece p pos index).append (ih _ _)

/-- A pass blames what it rules out. -/
theorem pass (h : a.Blamed) {ts : List Token} {fs : List Finding}
    (hts : ∀ t ∈ ts, t.invalid = true → t.added = false →
      t ∈ a.tokens ∨ ∃ f ∈ fs, t.index ∈ f.lexemes) :
    (({ a with tokens := ts } : Analysis).record fs).Blamed := by
  intro t ht hinvalid hadded
  rcases hts t ht hinvalid hadded with hold | ⟨f, hf, hi⟩
  · obtain ⟨f, hf, hi⟩ := h t hold hinvalid hadded
    exact ⟨f, List.mem_append_left _ hf, hi⟩
  · exact ⟨f, List.mem_append_right _ hf, hi⟩

end Blamed
end Analysis

theorem Groups.blamed_balance {opened ts : List Token} {t : Token}
    (ht : t ∈ (balance opened ts).1) (hadded : t.added = false) :
    t ∈ ts ∨ ∃ f ∈ (balance opened ts).2, t.index ∈ f.lexemes := by
  fun_induction balance opened ts with
  | case1 opened =>
    obtain ⟨o, -, rfl⟩ := List.mem_map.mp ht
    simp [Token.closing] at hadded
  | case3 u ts hp ih =>
    rcases List.mem_cons.mp ht with rfl | ht
    · exact .inr ⟨_, List.mem_cons_self, List.mem_singleton_self _⟩
    · refine (ih ht).imp (List.mem_cons_of_mem u) fun h => ?_
      obtain ⟨f, hf, hi⟩ := h
      exact ⟨f, List.mem_cons_of_mem _ hf, hi⟩
  | _ =>
    rename_i ih
    rcases List.mem_cons.mp ht with rfl | ht
    · exact .inl List.mem_cons_self
    · exact (ih ht).imp_left (List.mem_cons_of_mem _)

theorem QuantifierChains.blamed_fold {q : Option Quantifier} {ts : List Token} {t : Token}
    (ht : t ∈ (fold q ts).tokens) (hinvalid : t.invalid = true) :
    t ∈ ts ∨ ∃ f ∈ (fold q ts).findings, t.index ∈ f.lexemes := by
  fun_induction fold q ts with
  | case1 => simp at ht
  | case3 u ts hu r q hp rest ih =>
    rcases List.mem_cons.mp ht with rfl | ht
    · exact .inr ⟨_, List.mem_cons_self, List.mem_singleton_self _⟩
    · refine (ih ht).imp (List.mem_cons_of_mem u) fun h => ?_
      obtain ⟨f, hf, hi⟩ := h
      exact ⟨f, List.mem_cons_of_mem _ hf, hi⟩
  | case4 u ts hu r hp rest ih =>
    rcases List.mem_cons.mp ht with rfl | ht
    · exact absurd hinvalid hu
    · exact (ih ht).imp_left (List.mem_cons_of_mem u)
  | _ =>
    rename_i ih
    rcases List.mem_cons.mp ht with rfl | ht
    · exact .inl List.mem_cons_self
    · exact (ih ht).imp_left (List.mem_cons_of_mem _)

namespace Analysis

variable {a b : Analysis} {source : List Char}

theorem Blamed.dropEmptyOperands (h : a.Blamed) (hb : a.dropEmptyOperands = some b) :
    b.Blamed := by
  obtain ⟨v, hv, rfl⟩ := Option.map_eq_some_iff.mp hb
  have hempty : EmptyOperands.Search.Remembers (fun p => a.tokens[p.place]? = some p.token) {} :=
    ⟨fun a ha => by simp at ha, by simp⟩
  have hblames := hempty.run (fun k t ht => by simpa using ht) hv
  refine h.pass fun t ht hinvalid hadded => ?_
  obtain ⟨k, hk, rfl⟩ := List.mem_mapIdx.mp ht
  by_cases hplace : v.places.contains k = true
  · rw [if_pos hplace] at hadded ⊢
    obtain ⟨p, hp, rfl, hblamed⟩ := hblames k (List.contains_iff_mem.mp hplace)
    rw [← Option.some.inj ((List.getElem?_eq_getElem hk).symm.trans hp)] at hblamed
    exact .inr (hblamed.resolve_left (by simpa [Token.invalidate] using hadded))
  · rw [if_neg hplace]
    exact .inl (List.getElem_mem hk)

theorem blamed_validate (ha : (ofSource source).validate = some a) : a.Blamed := by
  obtain ⟨b, hb, rfl⟩ := Option.map_eq_some_iff.mp ha
  have hbalanced : (ofSource source).balanceGroups.Blamed :=
    (Blamed.ofPieces (Piece.readAll source) 0 0).pass fun _ ht _ hadded =>
      Groups.blamed_balance ht hadded
  exact (hbalanced.dropEmptyOperands hb).pass fun _ ht hinvalid _ =>
    QuantifierChains.blamed_fold ht hinvalid

/-! ## Lexemes that are not marked -/

theorem span_eq_of_frame {t u : Token} (h : u.frame = t.frame) : u.span = t.span := by
  have hindex : u.index = t.index := congrArg (·.2.1) h
  have hlast : u.last = t.last := congrArg (·.2.2.1) h
  rw [Token.span, Token.span, hindex, hlast]

theorem last_eq_none {t : Token} (ht : t ∈ (ofSource source).tokens)
    (h : t.isValue = false ∨ t.piece = .value .danglingEscape) : t.last = none := by
  obtain ⟨p, -, pos, index, rfl⟩ := exists_of_mem_tokens ht
  fun_cases Piece.token p pos index with
  | case1 b => simp [Token.isValue, Piece.isValue, Piece.token] at h
  | case2 => rfl

/-- A lexeme that is not marked belongs to a token that is left. -/
theorem exists_valid_of_mem_lexemes (ha : (ofSource source).validate = some a) {l : Lexeme}
    (hl : l ∈ a.lexemes) (hvalid : l.invalid = false) :
    ∃ t ∈ a.valid, t.added = false ∧ l.index ∈ t.span := by
  obtain ⟨b, us, left, hb, hrevised, hus, -⟩ := exists_revision source
  obtain rfl := Option.some.inj (ha.symm.trans hb)
  obtain ⟨hflagged, hplaces⟩ := (Flagged.ofPieces (Piece.readAll source) 0 0).validate ha
  have hconsistent := (consistent_ofSource source).validate ha
  have hrange : l.index ∈ (ofSource source).tokens.flatMap Token.span := by
    have hspan : (ofSource source).tokens.flatMap Token.span =
        List.range' 0 (ofSource source).lexemes.length := span_ofPieces _ 0 0
    have hlength : a.lexemes.length = (ofSource source).lexemes.length := by
      simpa [places, ofSource] using congrArg List.length hplaces
    rw [hspan, List.mem_range'_1, ← hlength]
    exact hconsistent.index_range hl
  obtain ⟨t, ht, hspan⟩ := List.mem_flatMap.mp hrange
  have hfirst := Token.Revises.forall₂_trans (List.forall₂_take_append a.tokens us _ hrevised) hus
  obtain ⟨u, hu, hrevises⟩ : ∃ u ∈ a.tokens, u.Revises t := by
    obtain ⟨k, hk, rfl⟩ := List.getElem_of_mem ht
    have hk' : k < (a.tokens.take us.length).length := hfirst.length_eq ▸ hk
    exact ⟨_, List.mem_of_mem_take (List.getElem_mem hk'), hfirst.get hk' hk⟩
  have hadded : u.added = false :=
    (congrArg (·.2.2.2) hrevises.frame).trans (flags_of_mem_ofSource ht).1
  rw [← span_eq_of_frame hrevises.frame] at hspan
  refine ⟨u, mem_valid.mpr ⟨hu, ?_⟩, hadded, hspan⟩
  by_contra hruledOut
  have hinvalid : u.invalid = true := by simpa using hruledOut
  have hlast : u.last = none := by
    refine (congrArg (·.2.2.1) hrevises.frame).trans (last_eq_none ht ?_)
    cases hvalue : t.isValue with
    | false => exact .inl rfl
    | true =>
      obtain rfl := hrevises.value hvalue
      exact .inr ((flags_of_mem_ofSource ht).2.mp hinvalid)
  have hindex : l.index = u.index := by simpa [Token.span, hlast] using hspan
  obtain ⟨f, hf, hblamed⟩ := blamed_validate ha u hu hinvalid hadded
  rw [← hindex] at hblamed
  simp [(hflagged l hl).mpr ⟨f, hf, hblamed⟩] at hvalid

end Analysis
end RegexDiagram
