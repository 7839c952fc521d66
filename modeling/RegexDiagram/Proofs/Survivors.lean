import RegexDiagram.Proofs.Forest
import RegexDiagram.Proofs.Tree

/-!
The tokens that survive validation. The search for empty operands leaves each level of a forest
either without any token or well formed but for chains of quantifiers; folding the chains makes it
the row of tokens of a syntax tree.
-/
namespace RegexDiagram

def Token.judge (t : Token) (out : Bool) : Token := if out then t.invalidate else t

namespace Forest

open EmptyOperands

/-- The tokens after the search for empty operands. -/
def judged (empty : Bool) (f : Forest) : List Token :=
  List.zipWith Token.judge f.tokens (f.ruledOut empty)

end Forest

namespace EmptyOperands

theorem invalidate_eq (places : List Nat) (ts : List Token) (flags : List Bool)
    (hlength : flags.length = ts.length) (h : ∀ i, i ∈ places ↔ Forest.Marks 0 flags i) :
    invalidate places ts = List.zipWith Token.judge ts flags := by
  apply List.ext_getElem (by simp [invalidate, hlength])
  intro i hi hi'
  have hlt : i < flags.length := by
    rw [List.length_zipWith] at hi'
    omega
  have hflag : i ∈ places ↔ flags[i] = true := by
    rw [h]
    constructor
    · intro h'
      obtain ⟨j, hj, hij⟩ := h'
      obtain rfl : i = j := by omega
      exact (List.getElem?_eq_some_iff.mp hj).2
    · intro hi
      exact ⟨i, List.getElem?_eq_some_iff.mpr ⟨_, hi⟩, by omega⟩
  simp [invalidate, Token.judge, hflag]

end EmptyOperands

/-- What the search for empty operands makes of balanced tokens. -/
theorem Analysis.dropEmptyOperands_of_nested (a : Analysis) (f : Forest) (hf : f.Nested)
    (ha : a.tokens = f.tokens) :
    a.dropEmptyOperands = some (({ a with tokens := f.judged true } : Analysis).record
      ((f.search {} 0).2 ++ (f.search {} 0).1.ending).findings) := by
  have hrun := f.run_tokens hf {} [] 0 []
  simp only [List.append_nil, EmptyOperands.Search.run] at hrun
  have hmem := f.mem_places_search hf {} 0
  have hnone (i : Nat) : ¬Forest.Trailing {} f i := by simp [Forest.Trailing]
  simp only [hnone, or_false] at hmem
  simp only [dropEmptyOperands, ha, hrun, Option.map_some, Forest.judged]
  rw [EmptyOperands.invalidate_eq _ _ _ (f.length_ruledOut true)
    (by simpa only [EmptyOperands.places_append] using hmem)]

/-- What the row of valid tokens so far admits next. -/
inductive Phase
  /-- An alternative starts. -/
  | start
  /-- An atom has ended. -/
  | atom
  /-- A quantifier has ended. -/
  | quantified
deriving DecidableEq

/--
The valid tokens from some point to the end of a level. With `chains`, a quantifier may follow
another one.
-/
inductive Follows (chains : Bool) : Phase → List Token → Prop
  | nil {p : Phase} (hp : p ≠ .start) : Follows chains p []
  | value {p : Phase} {t : Token} {v : Value} {ts : List Token} (hv : t.piece = .value v)
      (ht : t.invalid = false) (h : Follows chains .atom ts) : Follows chains p (t :: ts)
  | group {p : Phase} {opening closing : Token} {content ts : List Token} (ho : opening.Opens)
      (hc : closing.Closes) (hcontent : Follows chains .start content)
      (h : Follows chains .atom ts) : Follows chains p (opening :: (content ++ closing :: ts))
  | alternation {p : Phase} {t : Token} {ts : List Token} (hp : p ≠ .start)
      (ha : t.piece = .alternation) (ht : t.invalid = false) (h : Follows chains .start ts) :
      Follows chains p (t :: ts)
  | quantifier {p : Phase} {t : Token} {q : Quantifier} {ts : List Token}
      (hp : p = .atom ∨ p = .quantified ∧ chains = true) (hq : t.piece = .quantifier q)
      (ht : t.invalid = false) (h : Follows chains .quantified ts) : Follows chains p (t :: ts)

namespace Forest

/-- The tokens that the search for empty operands leaves valid. -/
def survivors (empty : Bool) (f : Forest) : List Token := (f.judged empty).filter (!·.invalid)

theorem judged_group (empty : Bool) (opening closing : Token) (content rest : Forest) :
    (group opening closing content rest).judged empty =
      opening.judge (!content.hasValue) :: (content.judged true ++
        closing.judge (!content.hasValue) :: rest.judged (empty && !content.hasValue)) := by
  simp only [judged, tokens, ruledOut, List.zipWith_cons_cons]
  rw [List.zipWith_append (content.length_ruledOut true).symm]
  rfl

theorem survivors_group_of_hasValue (empty : Bool) {opening closing : Token} {content : Forest}
    (rest : Forest) (ho : opening.Opens) (hc : closing.Closes) (h : content.hasValue = true) :
    (group opening closing content rest).survivors empty =
      opening :: (content.survivors true ++ closing :: rest.survivors false) := by
  simp [survivors, judged_group, h, Token.judge, ho.2, hc.2]

theorem survivors_group_of_not_hasValue (empty : Bool) (opening closing : Token) {content : Forest}
    (rest : Forest) (h : content.hasValue = false) :
    (group opening closing content rest).survivors empty =
      content.survivors true ++ rest.survivors empty := by
  simp [survivors, judged_group, h, Token.judge, Token.invalidate]

theorem survivors_leaf_of_invalid (empty : Bool) {t : Token} (rest : Forest)
    (ht : t.invalid = true) : (leaf t rest).survivors empty = rest.survivors empty := by
  simp [survivors, judged, tokens, ruledOut, ht, Token.judge]

theorem survivors_leaf_value (empty : Bool) {t : Token} {v : Value} (rest : Forest)
    (hv : t.piece = .value v) (ht : t.invalid = false) :
    (leaf t rest).survivors empty = t :: rest.survivors false := by
  simp [survivors, judged, tokens, ruledOut, ht, hv, Token.judge]

theorem survivors_leaf_alternation (empty : Bool) {t : Token} (rest : Forest)
    (ha : t.piece = .alternation) (ht : t.invalid = false) :
    (leaf t rest).survivors empty =
      if empty || !rest.hasValue then rest.survivors true else t :: rest.survivors true := by
  cases h : empty || !rest.hasValue <;>
    simp [survivors, judged, tokens, ruledOut, ht, ha, h, Token.judge, Token.invalidate]

theorem survivors_leaf_quantifier (empty : Bool) {t : Token} {q : Quantifier} (rest : Forest)
    (hq : t.piece = .quantifier q) (ht : t.invalid = false) :
    (leaf t rest).survivors empty =
      if empty then rest.survivors empty else t :: rest.survivors empty := by
  cases empty <;>
    simp [survivors, judged, tokens, ruledOut, ht, hq, Token.judge, Token.invalidate]

/-- Where no value comes, nothing survives at the start of an alternative. -/
theorem survivors_of_not_hasValue (f : Forest) (hf : f.Nested) (h : f.hasValue = false) :
    f.survivors true = [] := by
  induction f with
  | nil => rfl
  | leaf t rest ih =>
    obtain ⟨ho, hc, hrest⟩ := hf
    simp only [hasValue, Bool.or_eq_false_iff] at h
    by_cases ht : t.invalid
    · rw [survivors_leaf_of_invalid true rest ht, ih hrest h.2]
    · have hvalid : t.invalid = false := by simpa using ht
      cases hp : t.piece with
      | value v => simp [hvalid, Token.isValue, Piece.isValue, hp] at h
      | alternation =>
        rw [survivors_leaf_alternation true rest hp hvalid, Bool.true_or, if_pos rfl,
          ih hrest h.2]
      | quantifier q =>
        rw [survivors_leaf_quantifier true rest hp hvalid, if_pos rfl, ih hrest h.2]
      | groupOpen => exact absurd ⟨hp, hvalid⟩ ho
      | groupClose => exact absurd ⟨hp, hvalid⟩ hc
  | group opening closing content rest ihc ihr =>
    obtain ⟨-, -, hcontent, hrest⟩ := hf
    simp only [hasValue, Bool.or_eq_false_iff] at h
    rw [survivors_group_of_not_hasValue true opening closing rest h.1, ihc hcontent h.1,
      ihr hrest h.2, List.append_nil]

/-- What survives of a level that holds a value, or goes on after one, is well formed. -/
theorem follows_survivors (f : Forest) (hf : f.Nested) (p : Phase)
    (h : p = .start → f.hasValue = true) :
    Follows true p (f.survivors (p = .start)) := by
  induction f generalizing p with
  | nil => exact .nil fun hp => Bool.false_ne_true (h hp)
  | leaf t rest ih =>
    obtain ⟨ho, hc, hrest⟩ := hf
    by_cases ht : t.invalid
    · rw [survivors_leaf_of_invalid _ rest ht]
      exact ih hrest p (by simpa [hasValue, ht] using h)
    · have hvalid : t.invalid = false := by simpa using ht
      cases hp : t.piece with
      | value v =>
        rw [survivors_leaf_value _ rest hp hvalid]
        exact .value hp hvalid (ih hrest .atom (by simp))
      | alternation =>
        have hrestValue : p = .start → rest.hasValue = true := by
          simpa [hasValue, Token.isValue, hp, Piece.isValue] using h
        rw [survivors_leaf_alternation _ rest hp hvalid]
        by_cases hstart : p = .start
        · subst hstart
          exact ih hrest .start hrestValue
        · cases hv : rest.hasValue with
          | true =>
            have hfollows := ih hrest .start fun _ => hv
            simpa [hstart] using Follows.alternation hstart hp hvalid hfollows
          | false =>
            simpa [hstart, survivors_of_not_hasValue rest hrest hv] using Follows.nil hstart
      | quantifier q =>
        have hrestValue : p = .start → rest.hasValue = true := by
          simpa [hasValue, Token.isValue, hp, Piece.isValue] using h
        rw [survivors_leaf_quantifier _ rest hp hvalid]
        by_cases hstart : p = .start
        · subst hstart
          exact ih hrest .start hrestValue
        · have hchain : p = .atom ∨ p = .quantified ∧ true = true := by
            cases p <;> simp_all
          simpa [hstart] using Follows.quantifier hchain hp hvalid (ih hrest .quantified (by simp))
      | groupOpen => exact absurd ⟨hp, hvalid⟩ ho
      | groupClose => exact absurd ⟨hp, hvalid⟩ hc
  | group opening closing content rest ihc ihr =>
    obtain ⟨ho, hc, hcontent, hrest⟩ := hf
    cases hv : content.hasValue with
    | true =>
      rw [survivors_group_of_hasValue _ rest ho hc hv]
      exact .group ho hc (ihc hcontent .start fun _ => hv) (ihr hrest .atom (by simp))
    | false =>
      rw [survivors_group_of_not_hasValue _ opening closing rest hv,
        survivors_of_not_hasValue content hcontent hv]
      exact ihr hrest p (by simpa [hasValue, hv] using h)

end Forest

namespace QuantifierChains

/-- The tokens that folding leaves valid. -/
def folded (q : Option Quantifier) (ts : List Token) : List Token :=
  (fold q ts).tokens.filter (!·.invalid)

variable {t : Token} {ts : List Token} {q r : Quantifier}

theorem fold_invalid (q : Option Quantifier) (ht : t.invalid = true) :
    fold q (t :: ts) = (fold q ts).cons t := by
  simp [fold, ht]

theorem fold_other (q : Option Quantifier) (ht : t.invalid = false)
    (hp : t.isQuantifier = false) : fold q (t :: ts) = (fold none ts).restart q t := by
  cases h : t.piece with
  | quantifier r => simp [Token.isQuantifier, Piece.isQuantifier, h] at hp
  | _ => cases q <;> simp [fold, ht, h]

theorem fold_first (ht : t.invalid = false) (hr : t.piece = .quantifier r) :
    fold none (t :: ts) = (fold (some r) ts).restart none
      { t with piece := .quantifier ((fold (some r) ts).chain.getD r) } := by
  simp [fold, ht, hr]

theorem fold_next (ht : t.invalid = false) (hr : t.piece = .quantifier r) :
    fold (some q) (t :: ts) =
      { (fold (some (q.fold r)) ts).cons t.invalidate with
        findings := .quantifierChain q t :: (fold (some (q.fold r)) ts).findings } := by
  simp [fold, ht, hr, Folded.cons]

theorem folded_invalid (q : Option Quantifier) (ht : t.invalid = true) :
    folded q (t :: ts) = folded q ts := by
  simp [folded, fold_invalid q ht, Folded.cons, ht]

theorem folded_other (q : Option Quantifier) (ht : t.invalid = false)
    (hp : t.isQuantifier = false) : folded q (t :: ts) = t :: folded none ts := by
  simp [folded, fold_other q ht hp, Folded.restart, ht]

theorem folded_first (ht : t.invalid = false) (hr : t.piece = .quantifier r) :
    folded none (t :: ts) =
      { t with piece := .quantifier ((fold (some r) ts).chain.getD r) } :: folded (some r) ts := by
  simp [folded, fold_first ht hr, Folded.restart, ht]

theorem folded_next (ht : t.invalid = false) (hr : t.piece = .quantifier r) :
    folded (some q) (t :: ts) = folded (some (q.fold r)) ts := by
  simp [folded, fold_next ht hr, Folded.cons, Token.invalidate]

theorem fold_cons_congr (x : Token) {xs ys zs : List Token}
    (h : ∀ q, (fold q xs).chain = (fold q ys).chain ∧ folded q xs = folded q ys ++ zs)
    (q : Option Quantifier) : (fold q (x :: xs)).chain = (fold q (x :: ys)).chain ∧
      folded q (x :: xs) = folded q (x :: ys) ++ zs := by
  by_cases hx : x.invalid
  · rw [fold_invalid q hx, fold_invalid q hx, folded_invalid q hx, folded_invalid q hx]
    exact h q
  · have hvalid : x.invalid = false := by simpa using hx
    cases hp : x.piece with
    | quantifier r =>
      cases q with
      | none =>
        obtain ⟨hchain, htokens⟩ := h (some r)
        rw [fold_first hvalid hp, fold_first hvalid hp, folded_first hvalid hp,
          folded_first hvalid hp, hchain, htokens]
        exact ⟨rfl, rfl⟩
      | some q =>
        obtain ⟨hchain, htokens⟩ := h (some (q.fold r))
        rw [fold_next hvalid hp, fold_next hvalid hp, folded_next hvalid hp,
          folded_next hvalid hp, htokens]
        exact ⟨hchain, rfl⟩
    | _ =>
      have hother : x.isQuantifier = false := by simp [Token.isQuantifier, Piece.isQuantifier, hp]
      rw [fold_other q hvalid hother, fold_other q hvalid hother, folded_other q hvalid hother,
        folded_other q hvalid hother, (h none).2]
      exact ⟨rfl, rfl⟩

theorem folded_valid (q : Option Quantifier) (ts : List Token) :
    (fold q ts).chain = (fold q (ts.filter (!·.invalid))).chain ∧
      folded q ts = folded q (ts.filter (!·.invalid)) := by
  induction ts generalizing q with
  | nil => exact ⟨rfl, rfl⟩
  | cons t ts ih =>
    by_cases ht : t.invalid
    · rw [List.filter_cons_of_neg (by simp [ht]), fold_invalid q ht, folded_invalid q ht]
      exact ih q
    · rw [List.filter_cons_of_pos (by simpa using ht)]
      have htail (q : Option Quantifier) :
          (fold q ts).chain = (fold q (ts.filter (!·.invalid))).chain ∧
            folded q ts = folded q (ts.filter (!·.invalid)) ++ [] := by
        simpa only [List.append_nil] using ih q
      simpa only [List.append_nil] using fold_cons_congr t htail q

/-- A token that is no quantifier separates the chains in front from those behind. -/
theorem folded_append (q : Option Quantifier) (xs : List Token) (ht : t.invalid = false)
    (hp : t.isQuantifier = false) :
    (fold q (xs ++ t :: ts)).chain = (fold q xs).chain ∧
      folded q (xs ++ t :: ts) = folded q xs ++ t :: folded none ts := by
  induction xs generalizing q with
  | nil =>
    rw [List.nil_append, fold_other q ht hp, folded_other q ht hp]
    exact ⟨rfl, rfl⟩
  | cons x xs ih => exact fold_cons_congr x ih q

theorem follows_folded {p : Phase} (h : Follows true p ts) (q : Option Quantifier)
    (hq : q.isSome ↔ p = .quantified) : Follows false p (folded q ts) := by
  induction h generalizing q with
  | nil hp => exact .nil hp
  | value hv ht _ ih =>
    rw [folded_other q ht (by simp [Token.isQuantifier, Piece.isQuantifier, hv])]
    exact .value hv ht (ih none (by simp))
  | @group p opening closing content ts ho hc _ _ ihc ih =>
    have hclosing : closing.isQuantifier = false := by
      simp [Token.isQuantifier, Piece.isQuantifier, hc.1]
    rw [folded_other q ho.2 (by simp [Token.isQuantifier, Piece.isQuantifier, ho.1]),
      (folded_append none content hc.2 hclosing).2]
    exact .group ho hc (ihc none (by simp)) (ih none (by simp))
  | alternation hp ha ht _ ih =>
    rw [folded_other q ht (by simp [Token.isQuantifier, Piece.isQuantifier, ha])]
    exact .alternation hp ha ht (ih none (by simp))
  | @quantifier p t r ts hp hr ht _ ih =>
    cases q with
    | none =>
      have hatom : p = .atom := by
        rcases hp with hp | ⟨rfl, -⟩
        · exact hp
        · simp at hq
      rw [folded_first ht hr]
      exact .quantifier (.inl hatom) rfl ht (ih (some r) (by simp))
    | some q =>
      obtain rfl : p = .quantified := by simpa using hq
      rw [folded_next ht hr]
      exact ih _ (by simp)

end QuantifierChains

namespace Tree

def ofAtom : Tree .atom → Tree .factor
  | value t v hv => value t v hv
  | group opening closing ho hc body => group opening closing ho hc body
  | quantified _ _ _ _ hl => absurd rfl hl
  | concat _ _ hl => absurd hl (by decide)

@[simp] theorem tokens_ofAtom (a : Tree .atom) : (ofAtom a).tokens = a.tokens := by
  cases a with
  | quantified a t q hq hl => exact absurd rfl hl
  | concat f g hl => exact absurd hl (by decide)
  | _ => rfl

def ofFactor {l : Precedence} (hl : l ≠ .atom) : Tree .factor → Tree l
  | value t v hv => value t v hv
  | group opening closing ho hc body => group opening closing ho hc body
  | quantified a t q hq _ => quantified a t q hq hl
  | concat _ _ hl => absurd hl (by decide)

@[simp] theorem tokens_ofFactor {l : Precedence} (hl : l ≠ .atom) (f : Tree .factor) :
    (ofFactor hl f).tokens = f.tokens := by
  cases f with
  | concat f g hl => exact absurd hl (by decide)
  | _ => rfl

theorem expr_ne_atom : Precedence.expr ≠ .atom := by decide

def ofTerm : Tree .term → Tree .expr
  | value t v hv => value t v hv
  | group opening closing ho hc body => group opening closing ho hc body
  | quantified a t q hq _ => quantified a t q hq expr_ne_atom
  | concat f g _ => concat f g (.inr rfl)

@[simp] theorem tokens_ofTerm (f : Tree .term) : (ofTerm f).tokens = f.tokens := by
  cases f <;> rfl

/-- One more factor after an expression joins its last term. -/
def snoc : Tree .expr → Tree .factor → Tree .expr
  | value t v hv, f => concat (value t v hv) f (.inr rfl)
  | group opening closing ho hc body, f => concat (group opening closing ho hc body) f (.inr rfl)
  | quantified a t q hq _, f => concat (quantified a t q hq (by decide)) f (.inr rfl)
  | concat g h _, f => concat (concat g h (.inl rfl)) f (.inr rfl)
  | alternation e t ht g, f => alternation e t ht (concat g f (.inl rfl))

@[simp] theorem tokens_snoc (e : Tree .expr) (f : Tree .factor) :
    (e.snoc f).tokens = e.tokens ++ f.tokens := by
  cases e <;> simp [snoc, tokens]

/-- Some tokens followed by any factor are an expression. -/
def Attaches (pre : List Token) : Prop :=
  ∀ f : Tree .factor, ∃ e : Tree .expr, e.tokens = pre ++ f.tokens

theorem attaches_nil : Attaches [] := fun f =>
  ⟨ofFactor (by decide) f, tokens_ofFactor (by decide) f⟩

theorem attaches_tokens (e : Tree .expr) : Attaches e.tokens := fun f => ⟨e.snoc f, tokens_snoc e f⟩

theorem attaches_alternation (e : Tree .expr) {t : Token} (ht : t.piece = .alternation) :
    Attaches (e.tokens ++ [t]) := fun f =>
  ⟨alternation e t ht (ofFactor (by decide) f), by simp [tokens]⟩

/-- The phase in which some tokens leave their level. -/
def Leaves (pre : List Token) : Phase → Prop
  | .start => Attaches pre
  | .atom => ∃ (pre' : List Token) (a : Tree .atom), Attaches pre' ∧ pre = pre' ++ a.tokens
  | .quantified => ∃ e : Tree .expr, e.tokens = pre

theorem Leaves.exists_tree {pre : List Token} {p : Phase} (h : Leaves pre p) (hp : p ≠ .start) :
    ∃ e : Tree .expr, e.tokens = pre := by
  cases p with
  | start => exact absurd rfl hp
  | atom =>
    obtain ⟨pre', a, hpre', rfl⟩ := h
    obtain ⟨e, he⟩ := hpre' (ofAtom a)
    exact ⟨e, by rw [he, tokens_ofAtom]⟩
  | quantified => exact h

theorem Leaves.attaches {pre : List Token} {p : Phase} (h : Leaves pre p) : Attaches pre := by
  by_cases hp : p = .start
  · subst hp
    exact h
  · obtain ⟨e, rfl⟩ := h.exists_tree hp
    exact attaches_tokens e

end Tree

/-- Tokens without chains of quantifiers are those of a syntax tree. -/
theorem Follows.exists_tree {p : Phase} {ts : List Token} (h : Follows false p ts)
    (pre : List Token) (hpre : Tree.Leaves pre p) : ∃ e : Tree .expr, e.tokens = pre ++ ts := by
  induction h generalizing pre with
  | nil hp => simpa using hpre.exists_tree hp
  | @value p t v ts hv ht _ ih =>
    obtain ⟨e, he⟩ := ih (pre ++ [t]) ⟨pre, .value t v hv, hpre.attaches, rfl⟩
    exact ⟨e, by simpa using he⟩
  | @group p opening closing content ts ho hc _ _ ihc ih =>
    obtain ⟨body, hbody⟩ := ihc [] Tree.attaches_nil
    obtain ⟨e, he⟩ := ih (pre ++ opening :: (content ++ [closing]))
      ⟨pre, .group opening closing ho.1 hc.1 body, hpre.attaches, by simp [Tree.tokens, hbody]⟩
    exact ⟨e, by simpa using he⟩
  | @alternation p t ts hp ha ht _ ih =>
    obtain ⟨e, rfl⟩ := hpre.exists_tree hp
    obtain ⟨e', he'⟩ := ih (e.tokens ++ [t]) (Tree.attaches_alternation e ha)
    exact ⟨e', by simpa using he'⟩
  | @quantifier p t q ts hp hq ht _ ih =>
    obtain rfl : p = .atom := by simpa using hp
    obtain ⟨pre', a, hpre', rfl⟩ := hpre
    obtain ⟨e, he⟩ := hpre' (.quantified a t q hq (by decide))
    obtain ⟨e', he'⟩ := ih e.tokens ⟨e, rfl⟩
    exact ⟨e', by simpa [he, Tree.tokens] using he'⟩

/-- A level without chains is an expression, if a value survives at all. -/
theorem Forest.exists_expression (f : Forest) (hf : f.Nested) :
    ∃ A : Expression, A.tokens = QuantifierChains.folded none (f.judged true) := by
  rw [(QuantifierChains.folded_valid none (f.judged true)).2]
  cases hv : f.hasValue with
  | false =>
    have hnone : (f.judged true).filter (!·.invalid) = [] := f.survivors_of_not_hasValue hf hv
    exact ⟨none, by rw [hnone]; rfl⟩
  | true =>
    have hfollows := f.follows_survivors hf .start fun _ => hv
    obtain ⟨e, he⟩ := (QuantifierChains.follows_folded hfollows none (by simp)).exists_tree
      [] Tree.attaches_nil
    exact ⟨some e, he⟩

theorem Analysis.unjudged_ofPieces (ps : List Piece) (pos index : Nat) :
    ∀ t ∈ (ofPieces pos index ps).tokens, t.Unjudged := by
  induction ps generalizing pos index with
  | nil => simp [ofPieces]
  | cons p ps ih =>
    intro t ht
    rcases List.mem_append.mp ht with ht | ht
    · obtain rfl : t = p.token pos index := by simpa [Piece.analysis] using ht
      intro hp
      rw [Piece.piece_token] at hp
      rcases hp with rfl | rfl <;> rfl
    · exact ih _ _ t ht

/-- Validation of a source succeeds, and what it leaves valid is a regex without defects. -/
theorem Analysis.exists_validate (source : List Char) :
    ∃ a, (ofSource source).validate = some a ∧ ∃ A : Expression, A.tokens = a.valid := by
  obtain ⟨f, htokens, hf⟩ := Groups.exists_forest (ofSource source).tokens
    (unjudged_ofPieces _ 0 0)
  refine ⟨_, by rw [validate, dropEmptyOperands_of_nested _ f hf htokens, Option.map_some], ?_⟩
  exact f.exists_expression hf

end RegexDiagram
