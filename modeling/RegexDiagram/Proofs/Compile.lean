import RegexDiagram.Compiled
import RegexDiagram.Proofs.Order
import RegexDiagram.Proofs.Placement
import RegexDiagram.Proofs.Places
import RegexDiagram.Proofs.Stack
import RegexDiagram.Proofs.Survivors

/-!
Compiling succeeds on every source. What validation leaves of a source are the tokens of a syntax
tree, and each stage of compiling is known on trees. Lookups that the stages make without a check
find what they look for: lexemes, the ends of groups, the ends of fragments and places.
-/
namespace RegexDiagram

theorem RepairedText.run_symbols {l : Precedence} (t : Tree l) (texts : List (List Char))
    (rest : List Symbol) :
    run texts (t.symbols ++ rest) = run (t.tokens.flatMap Token.label :: texts) rest := by
  induction t generalizing texts rest with
  | value tok v hv =>
    simp [Tree.symbols, Tree.tokens, run, step, hv, Token.label, Piece.label]
  | group opening closing ho hc body ih =>
    rw [Tree.symbols, List.append_assoc, ih]
    simp [Tree.tokens, run, step, ho, hc, Token.label, Piece.label, Piece.text]
  | quantified a tok q hq hl ih =>
    rw [Tree.symbols, List.append_assoc, ih]
    simp [Tree.tokens, run, step, hq, Token.label, Piece.label, Piece.text]
  | concat f g hl ihf ihg =>
    rw [Tree.symbols, List.append_assoc, List.append_assoc, ihf, ihg]
    simp [Tree.tokens, run, step]
  | alternation e tok ht g ihe ihg =>
    rw [Tree.symbols, List.append_assoc, List.append_assoc, ihe, ihg]
    simp [Tree.tokens, run, step, ht, Token.label, Piece.label, Piece.text]

namespace Expression

theorem run_symbols (A : Expression) :
    ∃ texts, RepairedText.run [] A.symbols = some texts ∧
      texts.getLast?.getD [] = A.tokens.flatMap Token.label := by
  cases A with
  | none => exact ⟨[], rfl, rfl⟩
  | some e =>
    refine ⟨[e.tokens.flatMap Token.label], ?_, rfl⟩
    rw [← List.append_nil (symbols (some e))]
    exact RepairedText.run_symbols e [] []

theorem ofTokens_tokens (A : Expression) (h : ∀ t ∈ A.tokens, t.invalid = false) :
    ∃ groups, ReversePolish.ofTokens A.tokens = .ok ⟨A.symbols, groups⟩ := by
  cases A with
  | none => exact ⟨[], rfl⟩
  | some e => exact ⟨e.extents, e.ofTokens_tokens h⟩

end Expression

/-- What one mark leaves alone is left alone by any number of them. -/
theorem Lexeme.foldl_keeps {α β : Type} (mark : Lexeme → α → Lexeme) (f : Lexeme → β)
    (h : ∀ l x, f (mark l x) = f l) (xs : List α) (l : Lexeme) : f (xs.foldl mark l) = f l := by
  induction xs generalizing l with
  | nil => rfl
  | cons x xs ih => rw [List.foldl_cons, ih, h]

namespace Analysis

theorem places_stamps {α : Type} (stamp : Lexeme → α → Lexeme)
    (h : ∀ l x, (stamp l x).index = l.index ∧ (stamp l x).pos = l.pos) (xs : List α)
    (ls : List Lexeme) : places (ls.map fun l => xs.foldl stamp l) = places ls := by
  rw [places, List.map_map]
  refine List.map_congr_left fun l _ => ?_
  refine Lexeme.foldl_keeps stamp (fun l => (l.index, l.pos)) (fun l x => ?_) xs l
  rw [(h l x).1, (h l x).2]

theorem places_markGroups (r : ReversePolish.Ordered) (ls : List Lexeme) :
    places (r.markGroups ls) = places ls := by
  refine places_stamps _ (fun l e => ?_) r.groups ls
  unfold ReversePolish.stamp
  split <;> exact ⟨rfl, rfl⟩

theorem places_markOperands (spans : List Construction.Span) (ls : List Lexeme) :
    places (Construction.markOperands spans ls) = places ls := by
  refine places_stamps _ (fun l s => ?_) spans ls
  unfold Construction.stamp
  split <;> exact ⟨rfl, rfl⟩

theorem Consistent.mark {index : Nat} {a : Analysis} (h : a.Consistent index) {ls : List Lexeme}
    (hls : places ls = places a.lexemes) :
    ({ a with lexemes := ls } : Analysis).Consistent index := by
  have hlength : ls.length = a.lexemes.length := by
    simpa [places] using congrArg List.length hls
  exact ⟨by simpa [hls, hlength] using h.numbered, by simpa [hls] using h.standing,
    by simpa [hls] using h.blamed, h.ordered⟩

theorem Consistent.getElem? {a : Analysis} (h : a.Consistent 0) {i : Nat} {l : Lexeme}
    (hl : a.lexemes[i]? = some l) : l.index = i := by
  obtain ⟨hlt, rfl⟩ := List.getElem?_eq_some_iff.mp hl
  have hi := congrArg (·[i]?) h.numbered
  simpa [places, hlt] using hi

theorem Consistent.placed {a : Analysis} (h : a.Consistent 0) :
    Construction.Placed a.lexemes a.tokens := by
  intro t ht
  obtain ⟨l, hl, heq⟩ := List.mem_map.mp (h.standing t ht)
  obtain ⟨i, hi⟩ := List.mem_iff_getElem?.mp hl
  obtain ⟨hindex, hpos⟩ := Prod.mk.inj heq
  refine ⟨l, ?_, hpos⟩
  rw [← hindex, h.getElem? hi]
  exact hi

end Analysis

/-- What a regex is compiled to, given its syntax tree. -/
structure Compiled.Realizes (c : Compiled) (A : Expression) : Prop where
  tokens : A.tokens = c.analysis.valid
  consistent : c.analysis.Consistent 0
  symbols : c.symbols = A.symbols
  automaton : c.automaton = A.automaton
  drawing : ∃ p, Graph.Placed c.automaton p ∧ c.graph = Graph.draw c.automaton p
  repaired : c.repaired = A.tokens.flatMap Token.label

theorem Compiled.Realizes.placed {c : Compiled} {A : Expression} (h : c.Realizes A) :
    Construction.Placed c.lexemes A.tokens := by
  intro t ht
  rw [h.tokens] at ht
  exact h.consistent.placed t (Analysis.mem_valid.mp ht).1

theorem Expression.eq_of_tokens {A B : Expression} {lexemes : List Lexeme}
    (h : B.tokens = A.tokens) (hvalid : ∀ t ∈ A.tokens, t.invalid = false)
    (hplaced : Construction.Placed lexemes A.tokens) :
    A.symbols = B.symbols ∧ A.automaton = B.automaton := by
  obtain ⟨groupsA, hA⟩ := A.ofTokens_tokens hvalid
  obtain ⟨groupsB, hB⟩ := B.ofTokens_tokens (h ▸ hvalid)
  rw [h, hA] at hB
  have hsymbols : A.symbols = B.symbols :=
    (ReversePolish.Ordered.mk.inj (Except.ok.inj hB)).1
  have hbuiltA := A.ofSymbols_symbols hplaced
  have hbuiltB := B.ofSymbols_symbols (h ▸ hplaced : Construction.Placed lexemes B.tokens)
  rw [← hsymbols, hbuiltA] at hbuiltB
  exact ⟨hsymbols, Except.ok.inj (Construction.Built.mk.inj hbuiltB).1⟩

theorem Compiled.Realizes.of_tokens {c : Compiled} {A B : Expression} (h : c.Realizes A)
    (hB : B.tokens = c.analysis.valid) : c.Realizes B := by
  have htokens : B.tokens = A.tokens := hB.trans h.tokens.symm
  have hvalid : ∀ t ∈ A.tokens, t.invalid = false := by
    rw [h.tokens]
    exact fun t ht => (Analysis.mem_valid.mp ht).2
  obtain ⟨hsymbols, hautomaton⟩ := Expression.eq_of_tokens htokens hvalid h.placed
  exact
    { tokens := hB
      consistent := h.consistent
      symbols := h.symbols.trans hsymbols
      automaton := h.automaton.trans hautomaton
      drawing := h.drawing
      repaired := by rw [h.repaired, htokens] }

open Analysis in
/-- Every source is compiled, by way of its validation, to what its syntax tree makes of it. -/
theorem exists_compile_validated (source : List Char) :
    ∃ c a A, compile source = .ok c ∧ (Analysis.ofSource source).validate = some a ∧
      c.analysis.valid = a.valid ∧ c.Realizes A := by
  obtain ⟨a, ha, A, hA⟩ := Analysis.exists_validate source
  have hconsistent := (Analysis.consistent_ofSource source).validate ha
  have hvalid : ∀ t ∈ A.tokens, t.invalid = false := by
    rw [hA]
    exact fun t ht => (mem_valid.mp ht).2
  obtain ⟨groups, hgroups⟩ := A.ofTokens_tokens hvalid
  rw [hA] at hgroups
  let r : ReversePolish.Ordered := ⟨A.symbols, groups⟩
  have hordered : Compiled.ordered source =
      .ok ({ a with lexemes := r.markGroups a.lexemes }, A.symbols) := by
    simp only [Compiled.ordered, ha, hgroups, r]
  have hmarked := hconsistent.mark (places_markGroups r a.lexemes)
  have hplaced : Construction.Placed (r.markGroups a.lexemes) A.tokens := by
    rw [hA]
    exact fun t ht => hmarked.placed t (mem_valid.mp ht).1
  have hbuilt := A.ofSymbols_symbols hplaced
  obtain ⟨p, hp, hgraph⟩ := Graph.ofAutomaton_automaton A
  obtain ⟨texts, htexts, hrepaired⟩ := A.run_symbols
  have hrepair : RepairedText.ofSymbols A.symbols = some (A.tokens.flatMap Token.label) := by
    rw [RepairedText.ofSymbols, htexts, Option.map_some, hrepaired]
  let c : Compiled :=
    { source := source
      analysis := { a with lexemes := Construction.markOperands A.spans (r.markGroups a.lexemes) }
      symbols := A.symbols
      automaton := A.automaton
      graph := Graph.draw A.automaton p
      repaired := A.tokens.flatMap Token.label }
  refine ⟨c, a, A, ?_, ha, rfl, hA, ?_, rfl, rfl, ⟨p, hp, rfl⟩, rfl⟩
  · rw [compile, hordered]
    simp only [Except.bind, Compiled.ofSymbols, hbuilt, hgraph, hrepair, c]
  · exact hmarked.mark (places_markOperands A.spans (r.markGroups a.lexemes))

theorem exists_compile (source : List Char) : ∃ c A, compile source = .ok c ∧ c.Realizes A := by
  obtain ⟨c, -, A, hc, -, -, hA⟩ := exists_compile_validated source
  exact ⟨c, A, hc, hA⟩

/--
Every lookup that compiling does not check finds something: lexemes by the indexes of tokens and
findings, the end of each group, the ends of the fragments that quantifiers mark and operators link,
and the places from and to which lines are drawn. No symbol lacks an operand.
-/
structure Compiled.Sound (c : Compiled) : Prop where
  numbered : ∀ (i : Nat) (l : Lexeme), c.lexemes[i]? = some l → l.index = i
  tokens : ∀ t ∈ c.analysis.tokens, t.index < c.lexemes.length
  findings : ∀ f ∈ c.analysis.findings, ∀ i ∈ f.lexemes, i < c.lexemes.length
  symbols : ∀ t, .token t ∈ c.symbols → t.index < c.lexemes.length
  groups : ∀ t, .token t ∈ c.symbols → t.piece = .groupOpen →
    ∃ last, t.last = some last ∧ last < c.lexemes.length
  fragments : ∀ xs ys, c.symbols = xs ++ ys →
    ∃ stack, (Construction.run c.lexemes [Construction.firstFragment] xs).outcome = .ok stack ∧
      ∀ f ∈ stack, f.WellFormed
  drawing : ∃ placed, Graph.Placed c.automaton placed ∧ c.graph = Graph.draw c.automaton placed
  repair : RepairedText.ofSymbols c.symbols = some c.repaired

theorem Tree.index_of_mem_symbols {l : Precedence} {t : Tree l} {tok : Token} {n : Nat}
    (ht : ∀ u ∈ t.tokens, u.index < n) (h : .token tok ∈ t.symbols) :
    tok.index < n ∧ (tok.piece = .groupOpen → ∃ last, tok.last = some last ∧ last < n) := by
  induction t with
  | value u v hv =>
    obtain rfl : tok = u := by simpa [symbols] using h
    exact ⟨ht tok (by simp [tokens]), fun hp => by simp [hv] at hp⟩
  | group opening closing ho hc body ih =>
    simp only [tokens, List.forall_mem_cons, List.forall_mem_append, List.mem_singleton,
      forall_eq] at ht
    obtain ⟨hopening, hbody, hclosing⟩ := ht
    rcases List.mem_append.mp h with h | h
    · exact ih hbody h
    · obtain rfl := Symbol.token.inj (List.mem_singleton.mp h)
      exact ⟨hopening, fun _ => ⟨closing.index, rfl, hclosing⟩⟩
  | quantified a u q hq hl ih =>
    simp only [tokens, List.forall_mem_append, List.mem_singleton, forall_eq] at ht
    rcases List.mem_append.mp h with h | h
    · exact ih ht.1 h
    · obtain rfl := Symbol.token.inj (List.mem_singleton.mp h)
      exact ⟨ht.2, fun hp => by simp [hq] at hp⟩
  | concat f g hl ihf ihg =>
    simp only [tokens, List.forall_mem_append] at ht
    simp only [symbols, List.mem_append, List.mem_singleton, reduceCtorEq, or_false] at h
    exact h.elim (ihf ht.1) (ihg ht.2)
  | alternation e u hu g ihe ihg =>
    simp only [tokens, List.forall_mem_append, List.forall_mem_cons] at ht
    obtain ⟨he, hu', hg⟩ := ht
    simp only [symbols, List.mem_append, List.mem_singleton] at h
    rcases h with (h | h) | h
    · exact ihe he h
    · exact ihg hg h
    · obtain rfl := Symbol.token.inj h
      exact ⟨hu', fun hp => by simp [hu] at hp⟩

/-- Every source is compiled, and no lookup on the way fails. -/
theorem compile_succeeds (source : List Char) : ∃ c, compile source = .ok c ∧ c.Sound := by
  obtain ⟨c, A, hc, h⟩ := exists_compile source
  have htokens (t : Token) (ht : t ∈ c.analysis.tokens) : t.index < c.lexemes.length := by
    simpa [Compiled.lexemes] using (h.consistent.mem_range ht).2
  have hvalid : ∀ t ∈ A.tokens, t ∈ c.analysis.tokens := by
    rw [h.tokens]
    exact fun t ht => (Analysis.mem_valid.mp ht).1
  have hsymbols (t : Token) (ht : .token t ∈ c.symbols) : t.index < c.lexemes.length ∧
      (t.piece = .groupOpen → ∃ last, t.last = some last ∧ last < c.lexemes.length) := by
    rw [h.symbols] at ht
    cases A with
    | none => simp [Expression.symbols] at ht
    | some e => exact Tree.index_of_mem_symbols (fun u hu => htokens u (hvalid u hu)) ht
  have hbuilt := A.ofSymbols_symbols h.placed
  obtain ⟨texts, htexts, hrepaired⟩ := A.run_symbols
  refine ⟨c, hc, ⟨fun _ _ => h.consistent.getElem?, htokens, ?_, fun t ht => (hsymbols t ht).1,
    fun t ht => (hsymbols t ht).2, ?_, h.drawing, ?_⟩⟩
  · intro f hf i hi
    have hmem := h.consistent.blamed f hf i hi
    rw [h.consistent.numbered, List.mem_range'_1] at hmem
    simpa [Compiled.lexemes] using hmem
  · intro xs ys hxs
    have hrun : ∃ stack,
        (Construction.run c.lexemes [Construction.firstFragment] (xs ++ ys)).outcome =
          .ok stack := by
      rw [← hxs, h.symbols]
      cases hr : (Construction.run c.lexemes [Construction.firstFragment] A.symbols).outcome with
      | ok stack => exact ⟨stack, rfl⟩
      | error e => simp [Automaton.ofSymbols, hr, Except.bind, Except.map] at hbuilt
    obtain ⟨_, hrun⟩ := hrun
    obtain ⟨stack, hstack⟩ := Construction.exists_run_of_append hrun
    refine ⟨stack, hstack, Construction.run_wellFormed ?_ hstack⟩
    exact List.forall_mem_singleton.mpr (Fragment.single_wellFormed _ _)
  · rw [RepairedText.ofSymbols, h.symbols, htexts, Option.map_some, hrepaired, h.repaired]

end RegexDiagram
