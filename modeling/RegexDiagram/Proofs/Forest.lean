import RegexDiagram.Validation

/-!
Nested tokens. Balancing makes the tokens of a regex a forest: rows of single tokens and groups,
each group with the row inside it. The search for empty operands then goes through one row at a time, and
its verdict on a token depends only on the row that the token is in: on whether a value came before
it in its alternative, and on whether one comes after it.
-/
namespace RegexDiagram

namespace Token

def Opens (t : Token) : Prop := t.piece = .groupOpen ∧ t.invalid = false

def Closes (t : Token) : Prop := t.piece = .groupClose ∧ t.invalid = false

/-- A parenthesis has not been ruled out. -/
def Unjudged (t : Token) : Prop := t.piece = .groupOpen ∨ t.piece = .groupClose → t.invalid = false

theorem closes_closing (t : Token) : t.closing.Closes := ⟨rfl, rfl⟩

end Token

inductive Forest
  | nil
  | leaf (t : Token) (rest : Forest)
  | group (opening closing : Token) (content rest : Forest)

namespace Forest

/-- The tokens in source order. -/
def tokens : Forest → List Token
  | nil => []
  | leaf t rest => t :: rest.tokens
  | group opening closing content rest =>
      opening :: (content.tokens ++ closing :: rest.tokens)

/-- The parentheses that count are those of the groups. -/
def Nested : Forest → Prop
  | nil => True
  | leaf t rest => ¬t.Opens ∧ ¬t.Closes ∧ rest.Nested
  | group opening closing content rest =>
      opening.Opens ∧ closing.Closes ∧ content.Nested ∧ rest.Nested

end Forest

namespace Groups

open Forest

/-- The rows that follow the closing parentheses of the open groups, innermost first. -/
abbrev Tails := List (Token × Forest)

def Tails.tokens (tails : Tails) : List Token := tails.flatMap fun p => p.1 :: p.2.tokens

/-- Balancing closes each open group and makes a forest of what comes before and in between. -/
theorem balance_nested (ts opened : List Token) (hts : ∀ t ∈ ts, t.Unjudged)
    (hopened : ∀ t ∈ opened, t.Opens) :
    ∃ (f : Forest) (tails : Tails), (balance opened ts).1 = f.tokens ++ tails.tokens ∧
      tails.length = opened.length ∧ f.Nested ∧ ∀ p ∈ tails, p.1.Closes ∧ p.2.Nested := by
  induction ts generalizing opened with
  | nil =>
    refine ⟨.nil, opened.map fun t => (t.closing, .nil), ?_, by simp, trivial, ?_⟩
    · simp [balance, Forest.tokens, Tails.tokens, List.flatMap_map, ← List.map_eq_flatMap]
    · intro p hp
      obtain ⟨t, -, rfl⟩ := List.mem_map.mp hp
      exact ⟨t.closes_closing, trivial⟩
  | cons t ts ih =>
    obtain ⟨ht, hts⟩ := List.forall_mem_cons.mp hts
    have hleaf : ∀ (s : Token) (opened' : List Token), (∀ t ∈ opened', t.Opens) → ¬s.Opens →
        ¬s.Closes → ∃ (f : Forest) (tails : Tails),
          s :: (balance opened' ts).1 = f.tokens ++ tails.tokens ∧
            tails.length = opened'.length ∧ f.Nested ∧ ∀ p ∈ tails, p.1.Closes ∧ p.2.Nested := by
      intro s opened' hopened' hs hs'
      obtain ⟨f, tails, heq, hlength, hf, htails⟩ := ih opened' hts hopened'
      exact ⟨.leaf s f, tails, by rw [heq]; rfl, hlength, ⟨hs, hs', hf⟩, htails⟩
    cases hp : t.piece with
    | groupOpen =>
      have hopens : t.Opens := ⟨hp, ht (.inl hp)⟩
      obtain ⟨f, tails, heq, hlength, hf, htails⟩ :=
        ih (t :: opened) hts (List.forall_mem_cons.mpr ⟨hopens, hopened⟩)
      obtain ⟨⟨closing, rest⟩, tails, rfl⟩ := List.exists_cons_of_length_eq_add_one hlength
      obtain ⟨⟨hclosing, hrest⟩, htails⟩ := List.forall_mem_cons.mp htails
      refine ⟨.group t closing f rest, tails, ?_, by simpa using hlength,
        ⟨hopens, hclosing, hf, hrest⟩, htails⟩
      simp [balance, hp, heq, Forest.tokens, Tails.tokens]
    | groupClose =>
      cases opened with
      | nil =>
        simpa [balance, hp] using hleaf t.invalidate [] hopened
          (fun h => by simp [Token.Opens, Token.invalidate] at h)
          (fun h => by simp [Token.Closes, Token.invalidate] at h)
      | cons o opened =>
        obtain ⟨-, hopened⟩ := List.forall_mem_cons.mp hopened
        obtain ⟨f, tails, heq, hlength, hf, htails⟩ := ih opened hts hopened
        refine ⟨.nil, (t, f) :: tails, ?_, by simp [hlength], trivial,
          List.forall_mem_cons.mpr ⟨⟨⟨hp, ht (.inr hp)⟩, hf⟩, htails⟩⟩
        simp [balance, hp, heq, Forest.tokens, Tails.tokens]
    | _ =>
      simpa [balance, hp] using hleaf t opened hopened (fun h => by simp [Token.Opens, hp] at h)
        (fun h => by simp [Token.Closes, hp] at h)

theorem exists_forest (ts : List Token) (hts : ∀ t ∈ ts, t.Unjudged) :
    ∃ f : Forest, (balance [] ts).1 = f.tokens ∧ f.Nested := by
  obtain ⟨f, tails, heq, hlength, hf, -⟩ := balance_nested ts [] hts (by simp)
  obtain rfl := List.length_eq_zero_iff.mp hlength
  exact ⟨f, by simpa [Tails.tokens] using heq, hf⟩

end Groups

namespace EmptyOperands

theorem verdict_append_assoc (v w x : Verdict) : v ++ w ++ x = v ++ (w ++ x) := by
  show Verdict.mk ((v.places ++ w.places) ++ x.places) ((v.findings ++ w.findings) ++ x.findings) =
    Verdict.mk (v.places ++ (w.places ++ x.places)) (v.findings ++ (w.findings ++ x.findings))
  rw [List.append_assoc, List.append_assoc]

@[simp] theorem places_append (v w : Verdict) : (v ++ w).places = v.places ++ w.places := rfl

@[simp] theorem findings_append (v w : Verdict) :
    (v ++ w).findings = v.findings ++ w.findings := rfl

@[simp] theorem empty_append (v : Verdict) : {} ++ v = v := rfl

/-- What a token that is no parenthesis changes about its level, and the verdict on it. -/
def Level.see (l : Level) (p : Placed) : Level × Verdict :=
  if p.token.invalid then (l, {})
  else
    match p.token.piece with
    | .value _ => ({ l with termEmpty := false, exprEmpty := false }, {})
    | .alternation =>
        if l.termEmpty then (l, ⟨[p.place], [.alternationAfterNothing p.token]⟩)
        else ({ l with termEmpty := true, alternation := some p }, {})
    | .quantifier _ =>
        if l.termEmpty then (l, ⟨[p.place], [.quantifierOfNothing p.token]⟩) else (l, {})
    | _ => (l, {})

theorem step_leaf (s : Search) {p : Placed} (ho : ¬p.token.Opens) (hc : ¬p.token.Closes) :
    s.step p = some ({ s with level := (s.level.see p).1 }, (s.level.see p).2) := by
  by_cases hv : p.token.invalid
  · simp [Search.step, Level.see, hv]
  · cases hp : p.token.piece with
    | groupOpen => exact absurd ⟨hp, by simpa using hv⟩ ho
    | groupClose => exact absurd ⟨hp, by simpa using hv⟩ hc
    | value v => simp [Search.step, Level.see, hv, hp]
    | alternation => cases h : s.level.termEmpty <;> simp [Search.step, Level.see, hv, hp, h]
    | quantifier q => cases h : s.level.termEmpty <;> simp [Search.step, Level.see, hv, hp, h]

theorem step_opens (s : Search) {p : Placed} (h : p.token.Opens) :
    s.step p = some ({ level := {}, groups := ⟨p, s.level⟩ :: s.groups }, {}) := by
  simp [Search.step, h.1, h.2]

theorem step_closes (l : Level) (g : Group) (gs : List Group) {p : Placed} (h : p.token.Closes) :
    Search.step ⟨l, g :: gs⟩ p = some (⟨g.resume l, gs⟩, g.verdict l p ++ l.ending) := by
  simp [Search.step, h.1, h.2]

end EmptyOperands

namespace Forest

open EmptyOperands

/-- The level after a row of tokens that starts at `place`, and the verdict on them. -/
def search (l : Level) (place : Nat) : Forest → Level × Verdict
  | nil => (l, {})
  | leaf t rest =>
      let r := l.see ⟨place, t⟩
      let s := rest.search r.1 (place + 1)
      (s.1, r.2 ++ s.2)
  | group opening closing content rest =>
      let inner := content.search {} (place + 1)
      let g : Group := ⟨⟨place, opening⟩, l⟩
      let p : Placed := ⟨place + 1 + content.tokens.length, closing⟩
      let s := rest.search (g.resume inner.1) (p.place + 1)
      (s.1, inner.2 ++ (g.verdict inner.1 p ++ inner.1.ending) ++ s.2)

theorem run_tokens (f : Forest) (hf : f.Nested) (l : Level) (gs : List Group) (place : Nat)
    (rest : List Token) :
    Search.run ⟨l, gs⟩ place (f.tokens ++ rest) =
      (Search.run ⟨(f.search l place).1, gs⟩ (place + f.tokens.length) rest).map
        ((f.search l place).2 ++ ·) := by
  induction f generalizing l gs place rest with
  | nil => simp [tokens, search]
  | leaf t tail ih =>
    obtain ⟨ho, hc, htail⟩ := hf
    have hstep := step_leaf ⟨l, gs⟩ (p := ⟨place, t⟩) ho hc
    simp only [tokens, List.cons_append, Search.run, hstep, Option.bind_some, ih htail, search,
      Option.map_map, List.length_cons, Nat.add_assoc, Nat.add_comm 1]
    congr 1
    funext v
    exact (verdict_append_assoc _ _ v).symm
  | group opening closing content tail ihc iht =>
    obtain ⟨ho, hc, hcontent, htail⟩ := hf
    have hopen := step_opens ⟨l, gs⟩ (p := ⟨place, opening⟩) ho
    simp only [tokens, List.cons_append, List.append_assoc, Search.run, hopen, Option.bind_some,
      ihc hcontent, step_closes _ _ _ (p := ⟨_, closing⟩) hc, iht htail, search, Option.map_map]
    congr 1
    · funext v
      simp only [Function.comp, empty_append, verdict_append_assoc]
    · congr 1
      simp only [List.length_cons, List.length_append]
      omega

/-- There is a value at any depth. -/
def hasValue : Forest → Bool
  | nil => false
  | leaf t rest => (!t.invalid && t.isValue) || rest.hasValue
  | group _ _ content rest => content.hasValue || rest.hasValue

/--
Which tokens are ruled out, given whether the current alternative is empty so far. An alternation
needs a value on both sides, a quantifier one in front, and a group one inside.
-/
def ruledOut : Bool → Forest → List Bool
  | _, nil => []
  | empty, leaf t rest =>
      if t.invalid then false :: rest.ruledOut empty
      else
        match t.piece with
        | .value _ => false :: rest.ruledOut false
        | .alternation => (empty || !rest.hasValue) :: rest.ruledOut true
        | .quantifier _ => empty :: rest.ruledOut empty
        | _ => false :: rest.ruledOut empty
  | empty, group _ _ content rest =>
      (!content.hasValue) :: (content.ruledOut true ++
        (!content.hasValue) :: rest.ruledOut (empty && !content.hasValue))

theorem length_ruledOut (f : Forest) (empty : Bool) :
    (f.ruledOut empty).length = f.tokens.length := by
  induction f generalizing empty with
  | nil => rfl
  | leaf t rest ih =>
    simp only [ruledOut, tokens]
    split
    · simp [ih]
    · split <;> simp [ih]
  | group opening closing content rest ihc ihr => simp [ruledOut, tokens, ihc, ihr]

/-- The places from `place` on that flags mark. -/
def Marks (place : Nat) (flags : List Bool) (i : Nat) : Prop :=
  ∃ j, flags[j]? = some true ∧ i = place + j

@[simp] theorem marks_nil (place i : Nat) : ¬Marks place [] i := by
  rintro ⟨j, hj, -⟩
  simp at hj

theorem marks_append (place : Nat) (flags flags' : List Bool) (i : Nat) :
    Marks place (flags ++ flags') i ↔
      Marks place flags i ∨ Marks (place + flags.length) flags' i := by
  constructor
  · intro h
    obtain ⟨j, hj, rfl⟩ := h
    rcases Nat.lt_or_ge j flags.length with hlt | hge
    · exact .inl ⟨j, by rwa [List.getElem?_append_left hlt] at hj, rfl⟩
    · exact .inr ⟨j - flags.length, by rwa [List.getElem?_append_right hge] at hj, by omega⟩
  · intro h
    rcases h with ⟨j, hj, rfl⟩ | ⟨j, hj, rfl⟩
    · obtain ⟨hlt, -⟩ := List.getElem?_eq_some_iff.mp hj
      exact ⟨j, by rwa [List.getElem?_append_left hlt], rfl⟩
    · refine ⟨flags.length + j, ?_, by omega⟩
      rw [List.getElem?_append_right (by omega)]
      simpa using hj

theorem marks_cons (place : Nat) (b : Bool) (flags : List Bool) (i : Nat) :
    Marks place (b :: flags) i ↔ (b = true ∧ i = place) ∨ Marks (place + 1) flags i := by
  rw [← List.singleton_append, marks_append]
  refine or_congr ⟨?_, ?_⟩ Iff.rfl
  · intro h
    obtain ⟨j, hj, rfl⟩ := h
    cases j with
    | zero => exact ⟨by simpa using hj, rfl⟩
    | succ j => simp at hj
  · intro h
    obtain ⟨rfl, rfl⟩ := h
    exact ⟨0, rfl, rfl⟩

theorem exprEmpty_see (l : Level) (p : Placed) :
    (l.see p).1.exprEmpty = (l.exprEmpty && !(!p.token.invalid && p.token.isValue)) := by
  by_cases hv : p.token.invalid
  · simp [Level.see, hv]
  · cases hp : p.token.piece with
    | value v => simp [Level.see, hv, hp, Token.isValue, Piece.isValue]
    | alternation =>
      cases h : l.termEmpty <;> simp [Level.see, hv, hp, h, Token.isValue, Piece.isValue]
    | quantifier q =>
      cases h : l.termEmpty <;> simp [Level.see, hv, hp, h, Token.isValue, Piece.isValue]
    | _ => simp [Level.see, hv, hp, Token.isValue, Piece.isValue]

theorem exprEmpty_search (f : Forest) (l : Level) (place : Nat) :
    (f.search l place).1.exprEmpty = (l.exprEmpty && !f.hasValue) := by
  induction f generalizing l place with
  | nil => simp [search, hasValue]
  | leaf t rest ih =>
    rw [search, ih, hasValue, exprEmpty_see, Bool.not_or, Bool.and_assoc]
  | group opening closing content rest ihc ihr =>
    simp [search, ihr, hasValue, Group.resume, ihc, Bool.and_assoc]

/-- The last alternation of a level so far, in case that it ends up with nothing after it. -/
def Trailing (l : Level) (f : Forest) (i : Nat) : Prop :=
  l.termEmpty = true ∧ f.hasValue = false ∧ ∃ a, l.alternation = some a ∧ i = a.place

theorem mem_places_verdict (g : Group) (content : Level) (p : Placed) (i : Nat) :
    i ∈ (g.verdict content p).places ↔
      content.exprEmpty = true ∧ (i = g.opening.place ∨ i = p.place) := by
  cases he : content.exprEmpty <;> cases ha : p.token.added <;> simp [Group.verdict, he, ha]

/-- The verdict on a row whose level ends with it. -/
theorem mem_places_search (f : Forest) (hf : f.Nested) (l : Level) (place i : Nat) :
    i ∈ (f.search l place).2.places ++ (f.search l place).1.ending.places ↔
      Marks place (f.ruledOut l.termEmpty) i ∨ Trailing l f i := by
  induction f generalizing l place with
  | nil =>
    cases ha : l.alternation <;> cases he : l.termEmpty <;>
      simp [search, ruledOut, Level.ending, Trailing, hasValue, ha, he]
  | leaf t rest ih =>
    obtain ⟨ho, hc, hrest⟩ := hf
    simp only [search, places_append, List.append_assoc, List.mem_append] at ih ⊢
    rw [ih hrest]
    by_cases hv : t.invalid
    · simp [Level.see, ruledOut, Trailing, hasValue, marks_cons, hv]
    · cases hp : t.piece with
      | value v =>
        simp [Level.see, ruledOut, Trailing, hasValue, marks_cons, hv, hp, Token.isValue,
          Piece.isValue]
      | alternation =>
        cases he : l.termEmpty with
        | true =>
          simp [Level.see, ruledOut, Trailing, hasValue, marks_cons, hv, hp, he, Token.isValue,
            Piece.isValue, or_assoc]
        | false =>
          simp [Level.see, ruledOut, Trailing, hasValue, marks_cons, hv, hp, he, Token.isValue,
            Piece.isValue, or_comm]
      | quantifier q =>
        cases he : l.termEmpty <;>
          simp [Level.see, ruledOut, Trailing, hasValue, marks_cons, hv, hp, he, Token.isValue,
            Piece.isValue, or_assoc]
      | groupOpen => exact absurd ⟨hp, by simpa using hv⟩ ho
      | groupClose => exact absurd ⟨hp, by simpa using hv⟩ hc
  | group opening closing content rest ihc ihr =>
    obtain ⟨-, -, hcontent, hrest⟩ := hf
    have hempty := exprEmpty_search content {} (place + 1)
    have hinner := ihc hcontent {} (place + 1)
    have hresume :
        (Group.resume ⟨⟨place, opening⟩, l⟩ (content.search {} (place + 1)).1).termEmpty =
          (l.termEmpty && !content.hasValue) := by
      simp [Group.resume, hempty]
    have htrailing : Trailing (Group.resume ⟨⟨place, opening⟩, l⟩ (content.search {} (place + 1)).1)
        rest i ↔ Trailing l (group opening closing content rest) i := by
      simp only [Trailing, hresume, hasValue]
      simp [Group.resume, and_assoc]
    have hnone : ¬Trailing {} content i := by simp [Trailing]
    simp only [search, places_append, List.append_assoc, List.mem_append] at ihr hinner ⊢
    simp only [hnone, or_false] at hinner
    rw [ihr hrest, htrailing, hresume, mem_places_verdict, hempty]
    simp only [ruledOut, marks_cons, marks_append, length_ruledOut, Bool.true_and,
      Bool.not_eq_true']
    rw [← hinner, and_or_left]
    simp only [or_assoc, or_left_comm]

end Forest
end RegexDiagram
