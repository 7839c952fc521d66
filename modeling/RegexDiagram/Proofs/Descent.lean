import RegexDiagram.Proofs.Repair

/-!
Recursive descent. Tokens are read by the grammar: an atom is a value or an expression in
parentheses, a factor an atom with the quantifier behind it, a term all factors up to the next token
that starts none, and an expression all terms with alternations in between, the operators
associating to the left. Read this way the tokens of a tree give back the tree, so a tree is
determined by its tokens; and the order into which valid tokens are put is the postfix listing of
the tree that is read off them.
-/
namespace RegexDiagram

namespace Token

/-- A value or an opening parenthesis: the tokens that factors start with. -/
def startsFactor (t : Token) : Bool :=
  match t.piece with
  | .value _ => true
  | .groupOpen => true
  | _ => false

/-- A value, a quantifier or a closing parenthesis: the tokens that factors end with. -/
def endsFactor (t : Token) : Bool :=
  match t.piece with
  | .value _ => true
  | .quantifier _ => true
  | .groupClose => true
  | _ => false

end Token

namespace Descent

/-- A tree that has been read, and fewer than `bound` tokens behind it. -/
structure Reading (l : Precedence) (bound : Nat) where
  tree : Tree l
  rest : List Token
  short : rest.length < bound

namespace Reading

variable {l : Precedence} {m n : Nat}

/-- The tree and the tokens behind it. -/
def outcome (r : Reading l n) : Tree l × List Token := (r.tree, r.rest)

def mono (r : Reading l m) (h : m ≤ n) : Reading l n :=
  ⟨r.tree, r.rest, Nat.lt_of_lt_of_le r.short h⟩

@[simp] theorem outcome_mono (r : Reading l m) (h : m ≤ n) : (r.mono h).outcome = r.outcome := rfl

/-- The group around an expression, if a closing parenthesis is behind it. -/
def close (opening : Token) (ho : opening.piece = .groupOpen) (r : Reading .expr n) :
    Option (Reading .atom n) :=
  match hrest : r.rest with
  | [] => none
  | closing :: rest =>
      if hc : closing.piece = .groupClose then
        some ⟨.group opening closing ho hc r.tree, rest, by
          have := r.short
          simp only [hrest, List.length_cons] at this
          omega⟩
      else none

/-- The factor that an atom is part of: with its quantifier, if there is one behind it. -/
def quantify (r : Reading .atom n) : Reading .factor n :=
  match hrest : r.rest with
  | [] => ⟨.ofAtom r.tree, r.rest, r.short⟩
  | t :: rest =>
      match ht : t.piece with
      | .quantifier q => ⟨.quantified r.tree t q ht (by decide), rest, by
          have := r.short
          simp only [hrest, List.length_cons] at this
          omega⟩
      | _ => ⟨.ofAtom r.tree, r.rest, r.short⟩

end Reading

mutual

def readAtom (ts : List Token) : Option (Reading .atom ts.length) :=
  match ts with
  | [] => none
  | t :: rest =>
      match ht : t.piece with
      | .value v => some ⟨.value t v ht, rest, Nat.lt_succ_self _⟩
      | .groupOpen => (readExpr rest).bind fun r => (r.mono (Nat.le_succ _)).close t ht
      | _ => none
termination_by (ts.length, 0)

def readFactor (ts : List Token) : Option (Reading .factor ts.length) :=
  (readAtom ts).map Reading.quantify
termination_by (ts.length, 1)

/-- Reads on from a term. -/
def readFactors (f : Tree .term) (ts : List Token) : Option (Reading .term (ts.length + 1)) :=
  if ts.head?.any Token.startsFactor then
    (readFactor ts).bind fun r =>
      have := r.short
      (readFactors (.concat f r.tree (.inl rfl)) r.rest).map (·.mono (by omega))
  else some ⟨f, ts, Nat.lt_succ_self _⟩
termination_by (ts.length, 2)

def readTerm (ts : List Token) : Option (Reading .term ts.length) :=
  (readFactor ts).bind fun r =>
    have := r.short
    (readFactors (.ofFactor (by decide) r.tree) r.rest).map (·.mono (by omega))
termination_by (ts.length, 2)

/-- Reads on from an expression. -/
def readTerms (e : Tree .expr) (ts : List Token) : Option (Reading .expr (ts.length + 1)) :=
  match ts with
  | [] => some ⟨e, [], Nat.one_pos⟩
  | t :: rest =>
      if ht : t.piece = .alternation then
        (readTerm rest).bind fun r =>
          have hshorter := r.short
          have hbound : r.rest.length + 1 ≤ (t :: rest).length + 1 := by
            rw [List.length_cons]
            omega
          (readTerms (.alternation e t ht r.tree) r.rest).map (·.mono hbound)
      else some ⟨e, t :: rest, Nat.lt_succ_self _⟩
termination_by (ts.length, 2)

def readExpr (ts : List Token) : Option (Reading .expr ts.length) :=
  (readTerm ts).bind fun r =>
    have := r.short
    (readTerms (.ofTerm r.tree) r.rest).map (·.mono (by omega))
termination_by (ts.length, 3)

end

variable {l : Precedence} {m n : Nat} {ts rest : List Token}

theorem map_outcome_mono (x : Option (Reading l m)) (h : m ≤ n) :
    (x.map (·.mono h)).map Reading.outcome = x.map Reading.outcome := by
  rw [Option.map_map]
  rfl

theorem exists_reading {x : Option (Reading l n)} {t : Tree l}
    (h : x.map Reading.outcome = some (t, rest)) : ∃ hshort, x = some ⟨t, rest, hshort⟩ := by
  obtain ⟨⟨t', rest', hshort⟩, hx, hr⟩ := Option.map_eq_some_iff.mp h
  obtain ⟨rfl, rfl⟩ := Prod.mk.inj hr
  exact ⟨hshort, hx⟩

theorem readAtom_value {t : Token} {v : Value} (hv : t.piece = .value v) (rest : List Token) :
    (readAtom (t :: rest)).map Reading.outcome = some (.value t v hv, rest) := by
  rw [readAtom]
  split
  · next v' hv' =>
    obtain rfl : v = v' := by simpa [hv] using hv'
    rfl
  · next ho => simp [hv] at ho
  · next h _ => exact absurd hv (h v)

theorem readAtom_group {opening closing : Token} (ho : opening.piece = .groupOpen)
    (hc : closing.piece = .groupClose) {e : Tree .expr}
    (h : (readExpr ts).map Reading.outcome = some (e, closing :: rest)) :
    (readAtom (opening :: ts)).map Reading.outcome =
      some (.group opening closing ho hc e, rest) := by
  obtain ⟨hshort, hread⟩ := exists_reading h
  rw [readAtom]
  split
  · next v hv => simp [ho] at hv
  · simp [hread, Reading.mono, Reading.close, Reading.outcome, hc]
  · next _ h => exact absurd ho h

/-- No quantifier comes next. -/
def Unquantified (ts : List Token) : Prop := ts.head?.any Token.isQuantifier = false

/-- No factor comes next. -/
def Ended (ts : List Token) : Prop := ts.head?.any Token.startsFactor = false

theorem readFactor_of_atom {a : Tree .atom}
    (h : (readAtom ts).map Reading.outcome = some (a, rest)) (hrest : Unquantified rest) :
    (readFactor ts).map Reading.outcome = some (.ofAtom a, rest) := by
  obtain ⟨hshort, hread⟩ := exists_reading h
  rw [readFactor, hread]
  cases rest with
  | nil => rfl
  | cons t rest =>
    have ht : ∀ q, t.piece ≠ .quantifier q := by
      intro q hq
      simp [Unquantified, Token.isQuantifier, Piece.isQuantifier, hq] at hrest
    simp only [Option.map_some, Reading.quantify]
    rfl

theorem readFactor_of_quantified {a : Tree .atom} {t : Token} {q : Quantifier}
    (hq : t.piece = .quantifier q)
    (h : (readAtom ts).map Reading.outcome = some (a, t :: rest)) :
    (readFactor ts).map Reading.outcome = some (.quantified a t q hq (by decide), rest) := by
  obtain ⟨hshort, hread⟩ := exists_reading h
  rw [readFactor, hread]
  simp only [Option.map_some, Reading.quantify]
  split
  · next q' hq' =>
    obtain rfl : q = q' := by simpa [hq] using hq'
    rfl
  · next h => exact absurd hq (h q)

theorem readFactors_of_ended (f : Tree .term) (h : Ended ts) :
    (readFactors f ts).map Reading.outcome = some (f, ts) := by
  rw [readFactors, if_neg (by simpa [Ended] using h)]
  rfl

theorem readFactors_of_factor (f : Tree .term) {g : Tree .factor}
    (hts : ts.head?.any Token.startsFactor = true)
    (h : (readFactor ts).map Reading.outcome = some (g, rest)) :
    (readFactors f ts).map Reading.outcome =
      (readFactors (.concat f g (.inl rfl)) rest).map Reading.outcome := by
  obtain ⟨hshort, hread⟩ := exists_reading h
  rw [readFactors, if_pos hts, hread]
  exact map_outcome_mono ..

theorem readTerm_of_factor {f : Tree .factor}
    (h : (readFactor ts).map Reading.outcome = some (f, rest)) :
    (readTerm ts).map Reading.outcome =
      (readFactors (.ofFactor (by decide) f) rest).map Reading.outcome := by
  obtain ⟨hshort, hread⟩ := exists_reading h
  rw [readTerm, hread]
  exact map_outcome_mono ..

theorem readTerms_of_ended (e : Tree .expr)
    (h : ts.head?.all (·.piece ≠ .alternation) = true) :
    (readTerms e ts).map Reading.outcome = some (e, ts) := by
  rw [readTerms.eq_def]
  cases ts with
  | nil => rfl
  | cons t ts =>
    have ht : t.piece ≠ .alternation := by simpa using h
    simp only [dif_neg ht]
    rfl

theorem readTerms_of_term (e : Tree .expr) {t : Token} (ht : t.piece = .alternation)
    {g : Tree .term} (h : (readTerm ts).map Reading.outcome = some (g, rest)) :
    (readTerms e (t :: ts)).map Reading.outcome =
      (readTerms (.alternation e t ht g) rest).map Reading.outcome := by
  obtain ⟨hshort, hread⟩ := exists_reading h
  rw [readTerms, dif_pos ht, hread]
  exact map_outcome_mono ..

theorem readExpr_of_term {f : Tree .term}
    (h : (readTerm ts).map Reading.outcome = some (f, rest)) :
    (readExpr ts).map Reading.outcome =
      (readTerms (.ofTerm f) rest).map Reading.outcome := by
  obtain ⟨hshort, hread⟩ := exists_reading h
  rw [readExpr, hread]
  exact map_outcome_mono ..

/-- What reading makes of the tokens of a tree, whatever may be behind it. A term or an expression
goes on for as long as it can. -/
def Recovers : {l : Precedence} → Tree l → Prop
  | .atom, a => ∀ rest, (readAtom (a.tokens ++ rest)).map Reading.outcome = some (a, rest)
  | .factor, f => ∀ rest, Unquantified rest →
      (readFactor (f.tokens ++ rest)).map Reading.outcome = some (f, rest)
  | .term, f => ∀ rest, Unquantified rest →
      (readTerm (f.tokens ++ rest)).map Reading.outcome =
        (readFactors f rest).map Reading.outcome
  | .expr, e => ∀ rest, Unquantified rest → Ended rest →
      (readExpr (e.tokens ++ rest)).map Reading.outcome = (readTerms e rest).map Reading.outcome

theorem Recovers.ofAtom {a : Tree .atom} (h : Recovers a) : Recovers (Tree.ofAtom a) := by
  intro rest hrest
  rw [Tree.tokens_ofAtom]
  exact readFactor_of_atom (h rest) hrest

theorem Recovers.ofTerm {f : Tree .term} (h : Recovers f) : Recovers (Tree.ofTerm f) := by
  intro rest hrest hended
  rw [Tree.tokens_ofTerm]
  exact readExpr_of_term ((h rest hrest).trans (readFactors_of_ended f hended))

theorem Recovers.ofFactor {f : Tree .factor} (h : Recovers f) (hl : l ≠ .atom) :
    Recovers (Tree.ofFactor hl f) := by
  have hterm : Recovers (Tree.ofFactor (l := .term) (by decide) f) := by
    intro rest hrest
    rw [Tree.tokens_ofFactor]
    exact readTerm_of_factor (h rest hrest)
  cases l with
  | atom => exact absurd rfl hl
  | factor =>
    have hf : Tree.ofFactor hl f = f := by
      cases f with
      | concat f g hl => exact absurd hl (by decide)
      | _ => rfl
    rwa [hf]
  | term => exact hterm
  | expr =>
    have hf : Tree.ofFactor hl f = Tree.ofTerm (Tree.ofFactor (by decide) f) := by
      cases f with
      | concat f g hl => exact absurd hl (by decide)
      | _ => rfl
    rw [hf]
    exact hterm.ofTerm

end Descent

namespace Tree

open Descent

variable {l : Precedence}

theorem exists_first_token (t : Tree l) :
    ∃ s rest, t.tokens = s :: rest ∧ s.startsFactor = true := by
  induction t with
  | value t v hv => exact ⟨t, [], rfl, by simp [Token.startsFactor, hv]⟩
  | group opening closing ho hc body _ =>
    exact ⟨opening, _, rfl, by simp [Token.startsFactor, ho]⟩
  | quantified a t q hq hl ih =>
    obtain ⟨s, rest, hs, hstart⟩ := ih
    exact ⟨s, rest ++ [t], by rw [tokens, hs, List.cons_append], hstart⟩
  | concat f g hl ihf _ =>
    obtain ⟨s, rest, hs, hstart⟩ := ihf
    exact ⟨s, rest ++ g.tokens, by rw [tokens, hs, List.cons_append], hstart⟩
  | alternation e t ht g ihe _ =>
    obtain ⟨s, rest, hs, hstart⟩ := ihe
    exact ⟨s, rest ++ t :: g.tokens, by rw [tokens, hs, List.cons_append], hstart⟩

theorem exists_last_token (t : Tree l) :
    ∃ init s, t.tokens = init ++ [s] ∧ s.endsFactor = true := by
  induction t with
  | value t v hv => exact ⟨[], t, rfl, by simp [Token.endsFactor, hv]⟩
  | group opening closing ho hc body _ =>
    exact ⟨opening :: body.tokens, closing, rfl, by simp [Token.endsFactor, hc]⟩
  | quantified a t q hq hl _ => exact ⟨a.tokens, t, rfl, by simp [Token.endsFactor, hq]⟩
  | concat f g hl _ ihg =>
    obtain ⟨init, s, hs, hend⟩ := ihg
    exact ⟨f.tokens ++ init, s, by rw [tokens, hs, List.append_assoc], hend⟩
  | alternation e t ht g _ ihg =>
    obtain ⟨init, s, hs, hend⟩ := ihg
    exact ⟨e.tokens ++ t :: init, s, by rw [tokens, hs, List.append_assoc, List.cons_append], hend⟩

theorem recovers (t : Tree l) : Recovers t := by
  induction t with
  | @value l t v hv =>
    have hatom : Recovers (value t v hv : Tree .atom) := readAtom_value hv
    by_cases hl : l = .atom
    · subst hl
      exact hatom
    · exact hatom.ofAtom.ofFactor hl
  | @group l opening closing ho hc body ih =>
    have hatom : Recovers (group opening closing ho hc body : Tree .atom) := by
      intro rest
      have hbody := ih (closing :: rest)
        (by simp [Unquantified, Token.isQuantifier, Piece.isQuantifier, hc])
        (by simp [Ended, Token.startsFactor, hc])
      have hend : (readTerms body (closing :: rest)).map Reading.outcome =
          some (body, closing :: rest) :=
        readTerms_of_ended body (by simp [hc])
      rw [tokens, List.cons_append, List.append_assoc]
      exact readAtom_group ho hc (hbody.trans hend)
    by_cases hl : l = .atom
    · subst hl
      exact hatom
    · exact hatom.ofAtom.ofFactor hl
  | @quantified l a t q hq hl ih =>
    have hfactor : Recovers (quantified a t q hq (by decide) : Tree .factor) := by
      intro rest _
      rw [tokens, List.append_assoc]
      exact readFactor_of_quantified hq (ih (t :: rest))
    exact hfactor.ofFactor hl
  | @concat l f g hl ihf ihg =>
    have hterm : Recovers (concat f g (.inl rfl) : Tree .term) := by
      intro rest hrest
      obtain ⟨s, ts, hs, hstart⟩ := g.exists_first_token
      have hnext : Unquantified (g.tokens ++ rest) := by
        cases hp : s.piece <;>
          simp_all [Unquantified, Token.isQuantifier, Piece.isQuantifier, Token.startsFactor]
      rw [tokens, List.append_assoc, ihf _ hnext]
      exact readFactors_of_factor f (by simp [hs, hstart]) (ihg rest hrest)
    rcases hl with rfl | rfl
    · exact hterm
    · exact hterm.ofTerm
  | alternation e t ht g ihe ihg =>
    intro rest hrest hended
    have hterm := (ihg rest hrest).trans (readFactors_of_ended g hended)
    rw [tokens, List.append_assoc, List.cons_append,
      ihe _ (by simp [Unquantified, Token.isQuantifier, Piece.isQuantifier, ht])
        (by simp [Ended, Token.startsFactor, ht])]
    exact readTerms_of_term e ht hterm

end Tree

namespace Expression

open Descent

/-- Reads a whole regex. -/
def read (ts : List Token) : Option Expression :=
  if ts = [] then some none
  else
    match (readExpr ts).map Reading.outcome with
    | some (e, []) => some (some e)
    | _ => none

theorem read_tokens (A : Expression) : read A.tokens = some A := by
  cases A with
  | none => rfl
  | some e =>
    obtain ⟨s, rest, hs, -⟩ := e.exists_first_token
    have hread : (readExpr e.tokens).map Reading.outcome = some (e, []) := by
      have h := e.recovers [] rfl rfl
      rw [List.append_nil] at h
      exact h.trans (readTerms_of_ended e rfl)
    have hne : tokens (some e) ≠ [] := by simp [tokens, hs]
    rw [read, if_neg hne, tokens, hread]

/-- A regex is determined by its tokens. -/
theorem tokens_injective {A B : Expression} (h : A.tokens = B.tokens) : A = B := by
  have hread := A.read_tokens
  rw [h, B.read_tokens] at hread
  exact (Option.some.inj hread).symm

end Expression

/-- A token apart from where the group that it opens ends. -/
def Token.unended (t : Token) : Token := { t with last := none }

/-- The number of factors that directly follow another one. -/
def junctions : List Token → Nat
  | s :: t :: ts => (if s.endsFactor && t.startsFactor then 1 else 0) + junctions (t :: ts)
  | _ => 0

theorem junctions_append (xs ys : List Token) (s t : Token) :
    junctions (xs ++ [s] ++ t :: ys) = junctions (xs ++ [s]) +
      (if s.endsFactor && t.startsFactor then 1 else 0) + junctions (t :: ys) := by
  induction xs with
  | nil => simp [junctions]
  | cons x xs ih =>
    cases xs with
    | nil => simp_all [junctions, Nat.add_assoc]
    | cons x' xs => simp_all [junctions, Nat.add_assoc]

namespace Tree

variable {l : Precedence}

theorem junctions_tokens_append (t : Tree l) (u : Token) (us : List Token) :
    junctions (t.tokens ++ u :: us) =
      junctions t.tokens + (if u.startsFactor then 1 else 0) + junctions (u :: us) := by
  obtain ⟨init, s, hs, hend⟩ := t.exists_last_token
  rw [hs, junctions_append, hend, Bool.true_and]

theorem count_concat (t : Tree l) : t.symbols.count .concat = junctions t.tokens := by
  have hne (u : Token) : (Symbol.concat == Symbol.token u) = false := by simp
  induction t with
  | value t v hv => simp [symbols, tokens, junctions]
  | group opening closing ho hc body ih =>
    obtain ⟨s, rest, hs, -⟩ := body.exists_first_token
    have hstart : opening.endsFactor = false := by simp [Token.endsFactor, ho]
    have hend : closing.startsFactor = false := by simp [Token.startsFactor, hc]
    have hbody : junctions (opening :: (body.tokens ++ [closing])) =
        junctions (body.tokens ++ [closing]) := by
      simp [hs, junctions, hstart]
    rw [tokens, hbody, junctions_tokens_append, hend]
    simpa [symbols, junctions] using ih
  | quantified a t q hq hl ih =>
    have hend : t.startsFactor = false := by simp [Token.startsFactor, hq]
    rw [tokens, junctions_tokens_append, hend]
    simpa [symbols, junctions] using ih
  | concat f g hl ihf ihg =>
    obtain ⟨s, rest, hs, hstart⟩ := g.exists_first_token
    have hg := ihg
    rw [hs] at hg
    rw [tokens, hs, junctions_tokens_append, hstart, ← hg]
    simp [symbols, ihf]
    omega
  | alternation e t ht g ihe ihg =>
    obtain ⟨s, rest, hs, -⟩ := g.exists_first_token
    have hstart : t.endsFactor = false := by simp [Token.endsFactor, ht]
    have hend : t.startsFactor = false := by simp [Token.startsFactor, ht]
    have hg : junctions (t :: g.tokens) = junctions g.tokens := by
      simp [hs, junctions, hstart]
    rw [tokens, junctions_tokens_append, hend, hg]
    simp [symbols, ihe, ihg]

theorem perm_symbols (t : Tree l) :
    ((t.symbols.filterMap Symbol.token?).map Token.unended).Perm
      ((t.tokens.filter (·.piece ≠ .groupClose)).map Token.unended) := by
  induction t with
  | value t v hv => simp [symbols, tokens, Symbol.token?, hv]
  | @group l opening closing ho hc body ih =>
    have hsymbols : ((group opening closing ho hc body : Tree l).symbols.filterMap
        Symbol.token?).map Token.unended =
          (body.symbols.filterMap Symbol.token?).map Token.unended ++ [opening.unended] := by
      simp [symbols, Symbol.token?, Token.unended]
    have htokens : ((group opening closing ho hc body : Tree l).tokens.filter
        (·.piece ≠ .groupClose)).map Token.unended =
          opening.unended ::
            (body.tokens.filter (·.piece ≠ .groupClose)).map Token.unended := by
      simp [tokens, ho, hc]
    rw [hsymbols, htokens]
    exact (List.perm_append_singleton ..).trans (ih.cons _)
  | quantified a t q hq hl ih =>
    simpa [symbols, tokens, Symbol.token?, hq] using ih.append_right [t.unended]
  | concat f g hl ihf ihg =>
    have hconcat : [Symbol.concat].filterMap Symbol.token? = [] := rfl
    simpa [symbols, tokens, hconcat] using ihf.append ihg
  | alternation e t ht g ihe ihg =>
    have hright := (List.perm_append_singleton t.unended _).trans (ihg.cons t.unended)
    simpa [symbols, tokens, Symbol.token?, ht] using ihe.append hright

end Tree

theorem Expression.count_concat (A : Expression) :
    A.symbols.count .concat = junctions A.tokens := by
  cases A with
  | none => rfl
  | some e => exact e.count_concat

theorem Expression.perm_symbols (A : Expression) :
    ((A.symbols.filterMap Symbol.token?).map Token.unended).Perm
      ((A.tokens.filter (·.piece ≠ .groupClose)).map Token.unended) := by
  cases A with
  | none => exact .nil
  | some e => exact e.perm_symbols

/--
The valid tokens are put into the postfix listing of the tree that recursive descent reads off them,
which is the only tree with these tokens. It has one concatenation for each factor that directly
follows another one, and lists every other token once, except that closing parentheses are listed
with their groups.
-/
theorem order_lists_tree (source : List Char) :
    ∃ c a A groups, compile source = .ok c ∧ (Analysis.ofSource source).validate = some a ∧
      Expression.read a.valid = some A ∧ A.tokens = a.valid ∧
      (∀ B : Expression, B.tokens = a.valid → B = A) ∧
      ReversePolish.ofTokens a.valid = .ok ⟨A.symbols, groups⟩ ∧ c.symbols = A.symbols ∧
      c.symbols.count .concat = junctions a.valid ∧
      ((c.symbols.filterMap Symbol.token?).map Token.unended).Perm
        ((a.valid.filter (·.piece ≠ .groupClose)).map Token.unended) := by
  obtain ⟨c, a, A, hc, ha, -, hA, htokens, -⟩ := exists_stages source
  have hvalid : ∀ t ∈ A.tokens, t.invalid = false := by
    rw [htokens]
    exact fun t ht => (Analysis.mem_valid.mp ht).2
  obtain ⟨groups, hgroups⟩ := A.ofTokens_tokens hvalid
  have hread := A.read_tokens
  have hcount := A.count_concat
  have hperm := A.perm_symbols
  rw [htokens] at hgroups hread hcount hperm
  rw [← hA.symbols] at hcount hperm
  exact ⟨c, a, A, groups, hc, ha, hread, htokens,
    fun B hB => Expression.tokens_injective (hB.trans htokens.symm), hgroups, hA.symbols, hcount,
    hperm⟩

end RegexDiagram
