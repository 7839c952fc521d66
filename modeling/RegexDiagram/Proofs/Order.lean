import RegexDiagram.ReversePolish
import RegexDiagram.Proofs.Tree

/-!
Reverse Polish notation of a syntax tree. What ordering makes of the tokens of a tree is the tree
read operands first, under any operators that wait on the stack. When the last token of a tree has
been read, some of its operators still wait; these are split off, and the end of the level emits
them.
-/
namespace RegexDiagram

open ReversePolish

namespace ReversePolish

/-- Puts symbols and groups in front of what the rest yields. -/
def Ordered.before (symbols : List Symbol) (groups : List Extent) (r : Ordered) : Ordered :=
  ⟨symbols ++ r.symbols, groups ++ r.groups⟩

theorem Ordered.before_before (s t : List Symbol) (g h : List Extent) (r : Ordered) :
    (r.before t h).before s g = r.before (s ++ t) (g ++ h) := by
  simp only [before, List.append_assoc]

theorem map_before_map (x : Except Error Ordered) (s t : List Symbol) (g h : List Extent) :
    (x.map (·.before t h)).map (·.before s g) = x.map (·.before (s ++ t) (g ++ h)) := by
  cases x with
  | error e => rfl
  | ok r => exact congrArg Except.ok (Ordered.before_before s t g h r)

theorem startFactor_false (ops : List Operator) : startFactor false ops = ([], ops) := rfl

theorem startFactor_true {ops ops' : List Operator} {symbols : List Symbol}
    (h : popConcat ops = (symbols, ops')) : startFactor true ops = (symbols, .concat :: ops') := by
  simp only [startFactor, h, if_true]

theorem order_value {t : Token} {v : Value} (hv : t.piece = .value v) (ht : t.invalid = false)
    (ops : List Operator) (follows : Bool) (rest : List Symbol) :
    order ops follows (.token t :: rest) = (order (startFactor follows ops).2 true rest).map
      (·.before ((startFactor follows ops).1 ++ [.token t]) []) := by
  simp only [order, ht, hv]
  rfl

theorem order_alternation {t : Token} (hp : t.piece = .alternation) (ht : t.invalid = false)
    (ops : List Operator) (follows : Bool) (rest : List Symbol) :
    order ops follows (.token t :: rest) =
      (order (.alternation t :: (endTerm ops).2) false rest).map (·.before (endTerm ops).1 []) := by
  simp only [order, ht, hp]
  rfl

theorem order_quantifier {t : Token} {q : Quantifier} (hq : t.piece = .quantifier q)
    (ht : t.invalid = false) (ops : List Operator) (follows : Bool) (rest : List Symbol) :
    order ops follows (.token t :: rest) = (order ops true rest).map (·.before [.token t] []) := by
  simp only [order, ht, hq]
  rfl

theorem order_groupOpen {t : Token} (hp : t.piece = .groupOpen) (ht : t.invalid = false)
    (ops : List Operator) (follows : Bool) (rest : List Symbol) :
    order ops follows (.token t :: rest) =
      (order (.group t :: (startFactor follows ops).2) false rest).map
        (·.before (startFactor follows ops).1 []) := by
  simp only [order, ht, hp]
  rfl

theorem order_groupClose {t g : Token} {symbols : List Symbol} {ops ops' : List Operator}
    (hp : t.piece = .groupClose) (ht : t.invalid = false)
    (hops : endTerm ops = (symbols, .group g :: ops')) (follows : Bool) (rest : List Symbol) :
    order ops follows (.token t :: rest) = (order ops' true rest).map
      (·.before (symbols ++ [.token { g with last := some t.index }]) [⟨g.index, t.index⟩]) := by
  simp only [order, ht, hp, hops]
  rfl

/-- The symbols of operators, the one on top of the stack first. -/
def Operator.symbol : Operator → Symbol
  | concat => .concat
  | alternation t => .token t
  | group t => .token t

/-- No operator on top waits for a right operand. -/
def Settled (ops : List Operator) : Prop := endTerm ops = ([], ops)

theorem settled_nil : Settled [] := rfl

theorem settled_group (t : Token) (ops : List Operator) : Settled (.group t :: ops) := rfl

theorem Settled.popConcat_eq {ops : List Operator} (h : Settled ops) :
    popConcat ops = ([], ops) := by
  cases ops with
  | nil => rfl
  | cons op ops =>
    cases op with
    | concat => simp [Settled, endTerm, popConcat] at h
    | alternation t => rfl
    | group t => rfl

theorem Settled.popAlternation_eq {ops : List Operator} (h : Settled ops) :
    popAlternation ops = ([], ops) := by
  have hops : endTerm ops = ([], ops) := h
  simpa [endTerm, h.popConcat_eq, Prod.ext_iff] using hops

end ReversePolish

namespace Tree

variable {l : Precedence}

/-- What the groups enclose, the first to be closed first. -/
def extents : {l : Precedence} → Tree l → List Extent
  | _, value _ _ _ => []
  | _, group opening closing _ _ body => body.extents ++ [⟨opening.index, closing.index⟩]
  | _, quantified a _ _ _ _ => a.extents
  | _, concat f g _ => f.extents ++ g.extents
  | _, alternation e _ _ g => e.extents ++ g.extents

/-- The operators that wait when the last token has been read. -/
def pending : {l : Precedence} → Tree l → List Operator
  | _, concat _ _ _ => [.concat]
  | _, alternation _ t _ g => g.pending ++ [.alternation t]
  | _, _ => []

/-- The symbols that have been emitted by then. -/
def emitted : {l : Precedence} → Tree l → List Symbol
  | _, concat f g _ => f.symbols ++ g.symbols
  | _, alternation e _ _ g => e.symbols ++ g.emitted
  | _, t => t.symbols

theorem emitted_pending (t : Tree l) : t.emitted ++ t.pending.map Operator.symbol = t.symbols := by
  induction t with
  | alternation e t ht g _ ih =>
    simp only [emitted, pending, symbols, List.map_append, List.append_assoc, ← ih]
    rfl
  | _ => simp [emitted, pending, symbols, Operator.symbol]

theorem pending_of_tight (t : Tree l) (hl : l = .atom ∨ l = .factor) : t.pending = [] := by
  cases t with
  | concat f g hf => rcases hl with rfl | rfl <;> simp at hf
  | alternation e t ht g => simp at hl
  | _ => rfl

theorem emitted_of_tight (t : Tree l) (hl : l = .atom ∨ l = .factor) : t.emitted = t.symbols := by
  rw [← t.emitted_pending, t.pending_of_tight hl, List.map_nil, List.append_nil]

theorem pending_of_term (g : Tree .term) : g.pending = [] ∨ g.pending = [.concat] := by
  cases g <;> simp [pending]

theorem popConcat_pending (f : Tree .term) {ops : List Operator} (h : popConcat ops = ([], ops)) :
    popConcat (f.pending ++ ops) = (f.pending.map Operator.symbol, ops) := by
  rcases f.pending_of_term with hf | hf
  · simpa only [hf, List.nil_append, List.map_nil] using h
  · simp only [hf, List.singleton_append, popConcat, List.map_cons, List.map_nil, Operator.symbol]

theorem endTerm_pending (e : Tree .expr) {ops : List Operator} (h : Settled ops) :
    endTerm (e.pending ++ ops) = (e.pending.map Operator.symbol, ops) := by
  cases e with
  | alternation e t ht g =>
    rcases g.pending_of_term with hg | hg <;>
      simp [pending, hg, endTerm, popConcat, popAlternation, Operator.symbol]
  | concat f g hl => simp [pending, endTerm, popConcat, h.popAlternation_eq, Operator.symbol]
  | _ => exact h

/-- Where a tree of a level can start: a factor anywhere, a term behind no other factor of the same
term, and an expression only at the start of its level. -/
def Startable (l : Precedence) (ops : List Operator) (follows : Bool) : Prop :=
  match l with
  | .atom => True
  | .factor => True
  | .term => follows = false ∧ popConcat ops = ([], ops)
  | .expr => follows = false ∧ Settled ops

theorem startable_of_eq {ops : List Operator} {follows : Bool} (hl : l = .term ∨ l = .expr)
    (h : Startable l ops follows) : follows = false ∧ popConcat ops = ([], ops) := by
  rcases hl with rfl | rfl
  · exact h
  · exact ⟨h.1, h.2.popConcat_eq⟩

/--
Ordering a tree and what comes after it: the tree's symbols come first, some of its operators wait.
-/
theorem order_tokens (t : Tree l) (ht : ∀ tok ∈ t.tokens, tok.invalid = false)
    (ops : List Operator) (follows : Bool) (h : Startable l ops follows) (rest : List Symbol) :
    order ops follows (t.tokens.map .token ++ rest) =
      (order (t.pending ++ (startFactor follows ops).2) true rest).map
        (·.before ((startFactor follows ops).1 ++ t.emitted) t.extents) := by
  induction t generalizing ops follows rest with
  | value tok v hv =>
    exact order_value hv (ht tok (List.mem_singleton_self tok)) ops follows rest
  | group opening closing ho hc body ih =>
    simp only [tokens, List.forall_mem_cons, List.forall_mem_append, List.mem_singleton,
      forall_eq] at ht
    obtain ⟨hopening, hbody, hclosing⟩ := ht
    have hend := endTerm_pending body (settled_group opening (startFactor follows ops).2)
    simp only [tokens, List.map_cons, List.map_append, List.map_nil, List.cons_append,
      List.append_assoc, List.nil_append]
    rw [order_groupOpen ho hopening, ih hbody _ _ ⟨rfl, settled_group opening _⟩,
      startFactor_false, order_groupClose hc hclosing hend, map_before_map, map_before_map]
    simp only [pending, emitted, symbols, extents, ← body.emitted_pending, List.nil_append,
      List.append_assoc]
  | quantified a tok q hq hl ih =>
    simp only [tokens, List.forall_mem_append, List.mem_singleton, forall_eq] at ht
    obtain ⟨ha, htok⟩ := ht
    simp only [tokens, List.map_append, List.map_cons, List.map_nil, List.append_assoc,
      List.cons_append, List.nil_append]
    rw [ih ha _ _ trivial, order_quantifier hq htok, map_before_map]
    simp only [pending, emitted, symbols, extents, a.pending_of_tight (.inl rfl),
      a.emitted_of_tight (.inl rfl), List.nil_append, List.append_assoc, List.append_nil]
  | concat f g hl ihf ihg =>
    simp only [tokens, List.forall_mem_append] at ht
    obtain ⟨rfl, hops⟩ := startable_of_eq hl h
    simp only [tokens, List.map_append, List.append_assoc]
    rw [ihf ht.1 _ _ ⟨rfl, hops⟩, ihg ht.2 _ _ trivial, startFactor_false,
      startFactor_true (popConcat_pending f hops), map_before_map]
    simp only [pending, emitted, extents, g.pending_of_tight (.inr rfl),
      g.emitted_of_tight (.inr rfl), ← f.emitted_pending, List.nil_append, List.append_assoc,
      List.singleton_append]
  | alternation e tok htok g ihe ihg =>
    simp only [tokens, List.forall_mem_cons, List.forall_mem_append] at ht
    obtain ⟨he, hvalid, hg⟩ := ht
    obtain ⟨rfl, hops⟩ := h
    simp only [tokens, List.map_append, List.map_cons, List.append_assoc, List.cons_append]
    rw [ihe he _ _ ⟨rfl, hops⟩, startFactor_false, order_alternation htok hvalid,
      endTerm_pending e hops, ihg hg _ _ ⟨rfl, rfl⟩, startFactor_false, map_before_map,
      map_before_map]
    simp only [pending, emitted, extents, ← e.emitted_pending, List.nil_append,
      List.append_assoc, List.singleton_append]

/-- The tokens of an expression are put into its symbols. -/
theorem ofTokens_tokens (e : Tree .expr) (he : ∀ t ∈ e.tokens, t.invalid = false) :
    ofTokens e.tokens = .ok ⟨e.symbols, e.extents⟩ := by
  have h := order_tokens e he [] false ⟨rfl, settled_nil⟩ []
  simp only [List.append_nil, startFactor_false] at h
  have hend := endTerm_pending e settled_nil
  rw [List.append_nil] at hend
  rw [ofTokens, ofSymbols, h, order, hend, ← e.emitted_pending]
  simp [Except.map, Ordered.before]

end Tree
end RegexDiagram
