import RegexDiagram.Proofs.Emptiness

/-!
What the search for empty operands reports. Alternations that may turn out to have nothing behind
them and groups that may not be closed are pending. A step settles some of the places that were
pending in front of it and the place it is at, the others are pending after it, and the end settles
all that are left. To settle places is to report the defects that are due at them.
-/
namespace RegexDiagram

/-- Tokens as they are read: none has been added, and only a dangling escape is ruled out. -/
def AsRead (ts : List Token) : Prop :=
  ∀ t ∈ ts, t.added = false ∧ (t.invalid = true ↔ t.piece = .value .danglingEscape)

theorem Analysis.asRead_ofSource (source : List Char) : AsRead (ofSource source).tokens :=
  fun _ => flags_of_mem_ofSource

namespace EmptyOperands

variable {ts : List Token} {places places' : List Nat} {start k : Nat}
  {t : Token} {s : Search} {l : Level} {g : Group}

/-- A verdict reports what is due at the places, and rules out those quantifiers among them that
have nothing in front of them. -/
structure Verdict.Settles (ts : List Token) (places : List Nat) (v : Verdict) : Prop where
  ledger : ∀ counts,
    Ledger ts counts (due (ts.map Token.piece) counts searchCategories places) v.findings
  quantifiers : ∀ m, QuantifierAt (ts.map Token.piece) m →
    (m ∈ v.places ↔ m ∈ places ∧ ¬ValueBefore (ts.map Token.piece) m)

namespace Verdict.Settles

variable {v w : Verdict}

theorem empty (ts : List Token) : Settles ts [] ({} : Verdict) :=
  ⟨fun counts => .nil ts counts, by simp⟩

theorem append (h : v.Settles ts places) (h' : w.Settles ts places') :
    (v ++ w).Settles ts (places ++ places') where
  ledger counts := by
    rw [due_append]
    exact (h.ledger counts).append (h'.ledger counts)
  quantifiers m hm := by
    rw [places_append, List.mem_append, List.mem_append, h.quantifiers m hm, h'.quantifiers m hm,
      or_and_right]

theorem perm (h : v.Settles ts places) (hp : places.Perm places') :
    v.Settles ts places' where
  ledger counts := (h.ledger counts).perm (due_perm hp)
  quantifiers m hm := by rw [h.quantifiers m hm, hp.mem_iff]

theorem silent (h : ∀ counts, ∀ c ∈ searchCategories, ¬Defect (ts.map Token.piece) counts k c) :
    Settles ts [k] ({} : Verdict) where
  ledger counts := by
    rw [due_of_not_defect (h counts)]
    exact .nil ts counts
  quantifiers m hm := by
    suffices m = k → ValueBefore (ts.map Token.piece) m by simpa using this
    rintro rfl
    by_contra hbefore
    exact h (fun _ => True) .quantifierOfNothing (by simp [searchCategories]) ⟨hm, hbefore⟩

/-- The places that are ruled out may be more than the one that is reported, if no quantifier is
among them. -/
theorem reported {f : Finding} {ks : List Nat} (h : ∀ counts, f.Reports ts counts k)
    (hc : f.category ∈ searchCategories)
    (hks : ∀ m, QuantifierAt (ts.map Token.piece) m →
      (m ∈ ks ↔ m = k ∧ ¬ValueBefore (ts.map Token.piece) m)) :
    Settles ts [k] ⟨ks, [f]⟩ where
  ledger counts := by
    rw [due_of_defect hc (h counts).defect]
    exact .single (h counts)
  quantifiers m hm := by rw [List.mem_singleton, hks m hm]

theorem reported_alone {f : Finding} (h : ∀ counts, f.Reports ts counts k)
    (hc : f.category ∈ searchCategories)
    (hk : QuantifierAt (ts.map Token.piece) k → ¬ValueBefore (ts.map Token.piece) k) :
    Settles ts [k] ⟨[k], [f]⟩ := by
  refine reported h hc fun m hm => ?_
  simp only [List.mem_singleton, iff_self_and]
  rintro rfl
  exact hk hm

end Verdict.Settles

/-- A level has ended by the place `k`: what counts as behind its last alternation is what there has
been since. -/
def Level.EndsBy (ts : List Token) (k : Nat) (l : Level) : Prop :=
  ∀ a, l.alternation = some a → (ValueAfter (ts.map Token.piece) a.place ↔
    ValueBetween (ts.map Token.piece) (a.place + 1) k)

theorem Level.At.endsBy_length (h : l.At ts start k)
    (hunclosed : ∀ x, Encloses (ts.map Token.piece) x k → Unclosed (ts.map Token.piece) x) :
    l.EndsBy ts ts.length := by
  intro a ha
  have hlevel := h.same a ha
  simpa using valueAfter_iff_of_unclosed fun x hx => hunclosed x ((hlevel x).mp hx)

/-- At the end of a level it is known whether its last alternation has something behind it. -/
theorem Level.Knows.settles_ending (h : l.Knows ts start k) (hends : l.EndsBy ts k) :
    l.ending.Settles ts l.pending := by
  cases ha : l.alternation with
  | none =>
    simp only [ending, pending, ha]
    exact .empty ts
  | some a =>
    obtain ⟨htoken, hpiece, hbefore⟩ := h.token a ha
    have hp : (ts.map Token.piece)[a.place]? = some .alternation := hpiece ▸ getElem?_piece htoken
    have hterm : l.termEmpty = false ↔ ValueAfter (ts.map Token.piece) a.place := by
      rw [h.term, hends a ha, begin, ha]
    have hquantifier : ¬QuantifierAt (ts.map Token.piece) a.place := by
      rintro ⟨q, hq⟩
      simp [hp] at hq
    simp only [ending, pending, ha, Option.toList_some, List.map_cons, List.map_nil]
    cases he : l.termEmpty with
    | true =>
      have hnone : ¬ValueAfter (ts.map Token.piece) a.place := by simp [← hterm, he]
      have hreports (counts : Nat → Prop) :
          (Finding.alternationBeforeNothing a.token).Reports ts counts a.place :=
        .single htoken ⟨hp, hbefore, hnone⟩ (by simp [Finding.alternationBeforeNothing]) rfl rfl
      exact .reported_alone hreports
        (by simp [Finding.alternationBeforeNothing, searchCategories]) hquantifier.elim
    | false =>
      refine .silent fun _ c _ hd => ?_
      rcases hd.eq_or_eq hp rfl with rfl | rfl
      · exact hd.2 hbefore
      · exact hd.2.2 (hterm.mp he)

/-- A group that is closed is reported, at its closing parenthesis, if it has no value. -/
theorem Group.settles_matched {content : Level} (ho : ts[g.opening.place]? = some g.opening.token)
    (hm : Matched (ts.map Token.piece) g.opening.place k) (ht : ts[k]? = some t)
    (hadded : t.added = false) (hcontent : content.exprEmpty = false ↔
      ValueBetween (ts.map Token.piece) (g.opening.place + 1) k) :
    (g.verdict content ⟨k, t⟩).Settles ts [k] := by
  cases he : content.exprEmpty with
  | true =>
    have hnone : ¬ValueBetween (ts.map Token.piece) (g.opening.place + 1) k := by
      simp [← hcontent, he]
    have hreports (counts : Nat → Prop) :
        (Finding.emptyGroup g.opening.token t).Reports ts counts k :=
      .pair ht ⟨g.opening.place, hm, hnone⟩ rfl rfl ho hm rfl
    simp only [Group.verdict, he, hadded, if_true, Bool.false_eq_true, if_false]
    refine .reported hreports (by simp [Finding.emptyGroup, searchCategories]) ?_
    rintro m ⟨q, hq⟩
    have hopening : m ≠ g.opening.place := fun heq => by simp [heq, hm.opening] at hq
    have hclosing : m ≠ k := fun heq => by simp [heq, hm.closing] at hq
    simp [hopening, hclosing]
  | false =>
    simp only [Group.verdict, he, hadded, Bool.false_eq_true, if_false]
    refine .silent fun _ c hc hd => ?_
    rcases hd.eq_or_eq hm.closing rfl with rfl | rfl
    · simp [searchCategories] at hc
    · obtain ⟨i, hi, hnone⟩ := hd
      obtain rfl := hm.left_unique hi
      exact hnone (hcontent.mp he)

/-- A group that is not closed is always reported, at its opening parenthesis. -/
theorem Group.settles_unclosed {content : Level} {p : Placed}
    (ho : ts[g.opening.place]? = some g.opening.token)
    (hu : Unclosed (ts.map Token.piece) g.opening.place) (hp : ts.length ≤ p.place)
    (hadded : p.token.added = true) (hcontent : content.exprEmpty = false ↔
      ValueBetween (ts.map Token.piece) (g.opening.place + 1) ts.length) :
    (g.verdict content p).Settles ts [g.opening.place] := by
  have hquantifier (ks : List Nat) (hks : ∀ m ∈ ks, m = g.opening.place ∨ m = p.place) (m : Nat)
      (hm : QuantifierAt (ts.map Token.piece) m) :
      m ∈ ks ↔ m = g.opening.place ∧ ¬ValueBefore (ts.map Token.piece) m := by
    obtain ⟨q, hq⟩ := hm
    have hopening : m ≠ g.opening.place := fun heq => by simp [heq, hu.opening] at hq
    have hlt := (List.getElem?_eq_some_iff.mp hq).1
    rw [List.length_map] at hlt
    have hclosing : m ≠ p.place := by omega
    exact iff_of_false (fun hmem => (hks m hmem).elim hopening hclosing) (hopening ·.1)
  cases he : content.exprEmpty with
  | true =>
    have hnone : ¬ValueBetween (ts.map Token.piece) (g.opening.place + 1) ts.length := by
      simp [← hcontent, he]
    have hreports (counts : Nat → Prop) :
        (Finding.emptyOpenGroup g.opening.token).Reports ts counts g.opening.place :=
      .single ho ⟨hu, by simpa using hnone⟩ (by simp [Finding.emptyOpenGroup]) rfl rfl
    simp only [Group.verdict, he, hadded, if_true]
    exact .reported hreports (by simp [Finding.emptyOpenGroup, searchCategories])
      (hquantifier _ (by simp))
  | false =>
    have hreports (counts : Nat → Prop) :
        (Finding.openGroup g.opening.token).Reports ts counts g.opening.place :=
      .single ho ⟨hu, by simpa using hcontent.mp he⟩ (by simp [Finding.openGroup]) rfl rfl
    simp only [Group.verdict, he, hadded, Bool.false_eq_true, if_false, if_true]
    exact .reported hreports (by simp [Finding.openGroup, searchCategories])
      (hquantifier _ (by simp))

/-- Where the level inside the innermost group begins. -/
def begins : List Group → Nat
  | [] => 0
  | g :: _ => g.opening.place + 1

/-- What is known of the levels around the groups. -/
def Around (ts : List Token) : List Group → Prop
  | [] => True
  | g :: groups =>
      ts[g.opening.place]? = some g.opening.token ∧
        g.outer.At ts (begins groups) g.opening.place ∧ Around ts groups

namespace Search

/-- The places that may yet turn out to have a defect, though the search is past them. -/
def pending (s : Search) : List Nat :=
  s.level.pending ++ s.groups.flatMap fun g => g.opening.place :: g.outer.pending

/-- What is known in front of the place `k`. -/
structure At (ts : List Token) (k : Nat) (s : Search) : Prop where
  opened : Opened (ts.map Token.piece) k (s.groups.map (·.opening.place))
  level : s.level.At ts (begins s.groups) k
  around : Around ts s.groups

/-- A step from the place `k` knows what there is to know at the next place, and settles what is no
longer pending. -/
def Advances (ts : List Token) (k : Nat) (s : Search) (r : Option (Search × Verdict)) : Prop :=
  ∃ (s' : Search) (v : Verdict) (settled : List Nat), r = some (s', v) ∧ s'.At ts (k + 1) ∧
    (k :: s.pending).Perm (settled ++ s'.pending) ∧ v.Settles ts settled

theorem at_zero (ts : List Token) : At ts 0 {} :=
  ⟨.zero _, Level.at_start ts (not_valueBefore_zero _), trivial⟩

theorem At.advances_silent (h : s.At ts k)
    (hopened : Opened (ts.map Token.piece) (k + 1) (s.groups.map (·.opening.place)))
    (hl : l.At ts (begins s.groups) (k + 1)) (hpending : l.pending = s.level.pending)
    (hsilent : ∀ counts, ∀ c ∈ searchCategories, ¬Defect (ts.map Token.piece) counts k c) :
    s.Advances ts k (some ({ s with level := l }, {})) :=
  ⟨_, _, [k], rfl, ⟨hopened, hl, h.around⟩, by simp [pending, hpending], .silent hsilent⟩

theorem At.advances_unopened (h : s.At ts k) (hk : Unopened (ts.map Token.piece) k) :
    s.Advances ts k (s.step ⟨k, t.invalidate⟩) := by
  have hstep : s.step ⟨k, t.invalidate⟩ = some ({ s with level := s.level }, {}) := by
    simp [step, Token.invalidate]
  have hgroups : s.groups = [] := by
    cases hgs : s.groups with
    | nil => rfl
    | cons g groups =>
      have hopened := h.opened
      rw [hgs, List.map_cons] at hopened
      exact absurd (hopened.matched hk.closing) (hk.not_matched _)
  have hopened : Opened (ts.map Token.piece) k [] := by simpa [hgroups] using h.opened
  have hnext := hopened.unmatched hk.closing
  rw [hstep]
  refine h.advances_silent (by simpa [hgroups] using hnext) ?_ rfl fun _ c hc hd => ?_
  · exact h.level.pass (hnext.encloses_iff hopened) (not_valueAt hk.closing rfl)
      (by simp [hk.closing])
  · rcases hd.eq_or_eq hk.closing rfl with rfl | rfl
    · simp [searchCategories] at hc
    · obtain ⟨i, hi, -⟩ := hd
      exact hk.not_matched i hi

theorem At.advances_value (h : s.At ts k) {v : Value}
    (hp : (ts.map Token.piece)[k]? = some (.value v)) (hpiece : t.piece = .value v)
    (hinvalid : t.invalid = true ↔ v = .danglingEscape) :
    s.Advances ts k (s.step ⟨k, t⟩) := by
  have hopened := h.opened.other hp rfl
  have hlevel := hopened.encloses_iff h.opened
  have hsilent : ∀ counts, ∀ c ∈ searchCategories, ¬Defect (ts.map Token.piece) counts k c := by
    intro counts c hc hd
    rcases hd.eq_or_eq hp rfl with rfl | rfl <;> simp [searchCategories] at hc
  cases hi : t.invalid with
  | true =>
    have hstep : s.step ⟨k, t⟩ = some ({ s with level := s.level }, {}) := by simp [step, hi]
    have hv : ¬ValueAt (ts.map Token.piece) k := by
      rintro ⟨w, hw, hne⟩
      obtain rfl := Piece.value.inj (Option.some.inj (hp.symm.trans hw))
      exact hne (hinvalid.mp hi)
    rw [hstep]
    exact h.advances_silent hopened (h.level.pass hlevel hv (by simp [hp])) rfl hsilent
  | false =>
    have hstep : s.step ⟨k, t⟩ = some ({ s with
        level := { s.level with termEmpty := false, exprEmpty := false } }, {}) := by
      simp [step, hi, hpiece]
    have hv : ValueAt (ts.map Token.piece) k :=
      ⟨v, hp, fun heq => by simp [hinvalid.mpr heq] at hi⟩
    rw [hstep]
    exact h.advances_silent hopened (h.level.value hlevel hv (by simp [hp])) rfl hsilent

theorem At.advances_quantifier (h : s.At ts k) {q : Quantifier} (ht : ts[k]? = some t)
    (hpiece : t.piece = .quantifier q) (hvalid : t.invalid = false) :
    s.Advances ts k (s.step ⟨k, t⟩) := by
  have hp : (ts.map Token.piece)[k]? = some (.quantifier q) := hpiece ▸ getElem?_piece ht
  have hopened := h.opened.other hp rfl
  have hl := h.level.pass (hopened.encloses_iff h.opened) (not_valueAt hp rfl) (by simp [hp])
  have hbefore := h.level.termEmpty_iff
  cases he : s.level.termEmpty with
  | true =>
    have hstep : s.step ⟨k, t⟩ = some (s, ⟨[k], [.quantifierOfNothing t]⟩) := by
      simp [step, hvalid, hpiece, he]
    have hreports (counts : Nat → Prop) : (Finding.quantifierOfNothing t).Reports ts counts k :=
      .single ht ⟨⟨q, hp⟩, hbefore.mp he⟩ (by simp [Finding.quantifierOfNothing]) rfl rfl
    exact ⟨_, _, [k], hstep, ⟨hopened, hl, h.around⟩, .refl _, .reported_alone hreports
      (by simp [Finding.quantifierOfNothing, searchCategories]) fun _ => hbefore.mp he⟩
  | false =>
    have hstep : s.step ⟨k, t⟩ = some ({ s with level := s.level }, {}) := by
      simp [step, hvalid, hpiece, he]
    rw [hstep]
    refine h.advances_silent hopened hl rfl fun _ c hc hd => ?_
    rcases hd.eq_or_eq hp rfl with rfl | rfl
    · simp [searchCategories] at hc
    · simp [hbefore.mpr hd.2] at he

theorem At.advances_alternation (h : s.At ts k) (ht : ts[k]? = some t)
    (hpiece : t.piece = .alternation) (hvalid : t.invalid = false) :
    s.Advances ts k (s.step ⟨k, t⟩) := by
  have hp : (ts.map Token.piece)[k]? = some .alternation := hpiece ▸ getElem?_piece ht
  have hopened := h.opened.other hp rfl
  have hlevel := hopened.encloses_iff h.opened
  have hbefore := h.level.termEmpty_iff
  cases he : s.level.termEmpty with
  | true =>
    have hstep : s.step ⟨k, t⟩ = some (s, ⟨[k], [.alternationAfterNothing t]⟩) := by
      simp [step, hvalid, hpiece, he]
    have hnone := hbefore.mp he
    have hreports (counts : Nat → Prop) : (Finding.alternationAfterNothing t).Reports ts counts k :=
      .single ht ⟨hp, hnone⟩ (by simp [Finding.alternationAfterNothing]) rfl rfl
    exact ⟨_, _, [k], hstep, ⟨hopened, h.level.passAlternation hp hlevel hnone, h.around⟩, .refl _,
      .reported_alone hreports (by simp [Finding.alternationAfterNothing, searchCategories])
        fun _ => hnone⟩
  | false =>
    have hvalue : ValueBefore (ts.map Token.piece) k := by
      by_contra hnone
      simp [hbefore.mpr hnone] at he
    have hstep : s.step ⟨k, t⟩ = some ({ s with
        level := { s.level with termEmpty := true, alternation := some ⟨k, t⟩ } }, {}) := by
      simp [step, hvalid, hpiece, he]
    refine ⟨_, _, s.level.pending, hstep,
      ⟨hopened, h.level.alternate ht hpiece hlevel hvalue, h.around⟩, ?_, ?_⟩
    · simp only [pending]
      exact List.perm_middle.symm
    · have hending : s.level.ending = {} := by
        cases ha : s.level.alternation <;> simp [Level.ending, ha, he]
      rw [← hending]
      exact h.level.toKnows.settles_ending fun a ha => by
        have hvalue : ValueBetween (ts.map Token.piece) (a.place + 1) k := by
          have hterm := h.level.term.mp he
          rwa [Level.begin, ha] at hterm
        exact iff_of_true (hvalue.valueAfter (h.level.same a ha)) hvalue

theorem At.advances_opening (h : s.At ts k) (ht : ts[k]? = some t) (hopens : t.Opens) :
    s.Advances ts k (s.step ⟨k, t⟩) := by
  have hp : (ts.map Token.piece)[k]? = some .groupOpen := hopens.1 ▸ getElem?_piece ht
  have hopened := h.opened.opening hp
  have hencloses := (hopened.mem_iff k).mp List.mem_cons_self
  exact ⟨_, _, [], step_opens s hopens,
    ⟨hopened, Level.at_start ts (not_valueBefore_succ (.inl hencloses)), ht, h.level, h.around⟩,
    .refl _, .empty ts⟩

theorem At.advances_closing (h : s.At ts k) (ht : ts[k]? = some t) (hcloses : t.Closes)
    (hadded : t.added = false) (hk : ¬Unopened (ts.map Token.piece) k) :
    s.Advances ts k (s.step ⟨k, t⟩) := by
  have hp : (ts.map Token.piece)[k]? = some .groupClose := hcloses.1 ▸ getElem?_piece ht
  obtain ⟨l, groups⟩ := s
  obtain ⟨hopened, hl, haround⟩ := h
  cases groups with
  | nil => exact absurd (hopened.unopened hp) hk
  | cons g groups =>
    obtain ⟨ho, houter, haround⟩ := haround
    have hm := hopened.matched hp
    refine ⟨_, _, [g.opening.place] ++ ([k] ++ l.pending), step_closes l g groups hcloses,
      ⟨hopened.closing hp, houter.resume hm hl.expr, haround⟩, ?_, ?_⟩
    · have hpending : (g.resume l).pending = g.outer.pending := rfl
      simp only [pending, hpending, List.flatMap_cons, List.cons_append, List.nil_append]
      exact @List.perm_middle _ g.opening.place (k :: l.pending) _
    · have hnone : Verdict.Settles ts [g.opening.place] ({} : Verdict) :=
        .silent fun _ c _ => hm.not_defect
      have hending : l.ending.Settles ts l.pending :=
        hl.toKnows.settles_ending fun a ha => hm.valueAfter_iff (hl.same a ha)
      exact hnone.append ((g.settles_matched ho hm ht hadded hl.expr).append hending)

/-- What any token does that balancing has left valid. -/
theorem At.advances (h : s.At ts k) (hts : AsRead ts) (ht : ts[k]? = some t)
    (hk : ¬Unopened (ts.map Token.piece) k) : s.Advances ts k (s.step ⟨k, t⟩) := by
  obtain ⟨hadded, hinvalid⟩ := hts t (List.mem_of_getElem? ht)
  have hvalid (hp : t.piece ≠ .value .danglingEscape) : t.invalid = false := by
    rw [← Bool.not_eq_true, hinvalid]
    exact hp
  cases hpiece : t.piece with
  | value v =>
    refine h.advances_value (hpiece ▸ getElem?_piece ht) hpiece ?_
    rw [hinvalid, hpiece, Piece.value.injEq]
  | quantifier q => exact h.advances_quantifier ht hpiece (hvalid (by simp [hpiece]))
  | alternation => exact h.advances_alternation ht hpiece (hvalid (by simp [hpiece]))
  | groupOpen => exact h.advances_opening ht ⟨hpiece, hvalid (by simp [hpiece])⟩
  | groupClose => exact h.advances_closing ht ⟨hpiece, hvalid (by simp [hpiece])⟩ hadded hk

theorem Advances.run {u : Token} {us : List Token} {more : List Nat}
    (h : s.Advances ts k (s.step ⟨k, u⟩))
    (hnext : ∀ s' : Search, s'.At ts (k + 1) →
      ∃ v, s'.run (k + 1) us = some v ∧ v.Settles ts (s'.pending ++ more)) :
    ∃ v, s.run k (u :: us) = some v ∧ v.Settles ts (s.pending ++ k :: more) := by
  obtain ⟨s', v, settled, hstep, hs', hperm, hv⟩ := h
  obtain ⟨w, hw, hsettles⟩ := hnext s' hs'
  refine ⟨v ++ w, by simp [Search.run, hstep, hw], (hv.append hsettles).perm ?_⟩
  have hfront : (settled ++ (s'.pending ++ more)).Perm (k :: s.pending ++ more) := by
    rw [← List.append_assoc]
    exact hperm.symm.append_right more
  exact hfront.trans List.perm_middle.symm

theorem settles_end {groups : List Group} {left : List Token} {place : Nat}
    (hl : l.Knows ts (begins groups) ts.length) (hends : l.EndsBy ts ts.length)
    (haround : Around ts groups)
    (hunclosed : ∀ g ∈ groups, Unclosed (ts.map Token.piece) g.opening.place)
    (hlength : left.length = groups.length) (hplace : ts.length ≤ place) :
    ∃ v, Search.run ⟨l, groups⟩ place (left.map Token.closing) = some v ∧
      v.Settles ts (pending ⟨l, groups⟩) := by
  induction groups generalizing l left place with
  | nil =>
    obtain rfl := List.length_eq_zero_iff.mp hlength
    refine ⟨_, rfl, ?_⟩
    simpa [pending] using hl.settles_ending hends
  | cons g groups ih =>
    obtain ⟨o, left, rfl⟩ := List.exists_cons_of_length_eq_add_one hlength
    obtain ⟨ho, houter, haround⟩ := haround
    obtain ⟨hu, hunclosed⟩ := List.forall_mem_cons.mp hunclosed
    have hlt : g.opening.place < ts.length := (List.getElem?_eq_some_iff.mp ho).1
    have hresume := houter.toKnows.resume hlt hl.expr (not_valueAt hu.opening rfl)
    obtain ⟨v, hv, hsettles⟩ := ih hresume (houter.endsBy_length fun x hx => hu.of_encloses hx)
      haround hunclosed (by simpa using hlength) (Nat.le_succ_of_le hplace)
    have hstep := step_closes l g groups (p := ⟨place, o.closing⟩) o.closes_closing
    have hverdict : (g.verdict l ⟨place, o.closing⟩ ++ l.ending).Settles ts
        ([g.opening.place] ++ l.pending) :=
      (g.settles_unclosed ho hu hplace rfl hl.expr).append (hl.settles_ending hends)
    refine ⟨g.verdict l ⟨place, o.closing⟩ ++ l.ending ++ v, by simp [Search.run, hstep, hv],
      (hverdict.append hsettles).perm ?_⟩
    have hpending : (g.resume l).pending = g.outer.pending := rfl
    simp only [pending, hpending, List.flatMap_cons, List.cons_append, List.nil_append]
    exact List.perm_middle.symm

/-- Going through balanced tokens, the search settles all places. -/
theorem At.settles {rest left : List Token} {stack : List Nat} (h : s.At ts k) (hts : AsRead ts)
    (hrest : ts.drop k = rest) (hk : k + rest.length = ts.length)
    (hopened : Opened (ts.map Token.piece) ts.length stack) (hlength : left.length = stack.length) :
    ∃ v, s.run k (Groups.balanced (ts.map Token.piece) k rest ++ left.map Token.closing) = some v ∧
      v.Settles ts (s.pending ++ List.range' k rest.length) := by
  induction rest generalizing k s with
  | nil =>
    obtain rfl : k = ts.length := hk
    have hgroups : left.length = s.groups.length := by
      rw [hlength, hopened.length_eq h.opened, List.length_map]
    have hpieces : (ts.map Token.piece).length = ts.length := List.length_map _
    have hopen : Opened (ts.map Token.piece) (ts.map Token.piece).length
        (s.groups.map (·.opening.place)) := hpieces ▸ h.opened
    have hends := h.level.endsBy_length fun x hx =>
      hopen.unclosed_iff.mp ((h.opened.mem_iff x).mpr hx)
    simpa [Groups.balanced] using settles_end h.level.toKnows hends h.around
      (fun g hg => hopen.unclosed_iff.mp (List.mem_map_of_mem hg)) hgroups (Nat.le_refl _)
  | cons t rest ih =>
    obtain ⟨ht, hrest⟩ := getElem?_of_drop hrest
    rw [List.length_cons] at hk
    have hnext (s' : Search) (hs' : s'.At ts (k + 1)) := ih hs' hrest (by omega)
    rw [List.length_cons, List.range'_succ]
    by_cases hu : Unopened (ts.map Token.piece) k
    · rw [Groups.balanced_of_unopened hu]
      exact (h.advances_unopened hu).run hnext
    · rw [Groups.balanced_of_not_unopened hu]
      exact (h.advances hts ht hu).run hnext

end Search
end EmptyOperands
end RegexDiagram
