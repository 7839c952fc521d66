import Mathlib.Data.List.Forall2
import RegexDiagram.Proofs.Edges

/-!
Construction from any symbols, whether or not they come from a regex. What is on the stack is made
from postfix expressions, in which the `first` node that lies at the bottom is an operand like any
other. So symbols are accepted only if `first` and they are at most two postfix expressions. A
quantifier or a concatenation that misses an operand takes `first` instead, and then the automaton
need not start with it. A fork is known by the node that its fragment starts with, and a fragment
keeps that node when it is repeated or followed by another, so that an alternation may take over a
fork which an edge still leads back to; that edge loses its target.
-/
namespace RegexDiagram

/-- Postfix expressions over the values of a regex and the `first` node. -/
inductive Postfix
  | sentinel
  | value (t : Token) (v : Value) (ht : t.piece = .value v)
  | quantified (e : Postfix) (t : Token) (q : Quantifier) (ht : t.piece = .quantifier q)
  | group (e : Postfix) (t : Token) (ht : t.piece = .groupOpen)
  | concat (e x : Postfix)
  | alternation (e x : Postfix) (t : Token) (ht : t.piece = .alternation)

namespace Postfix

variable {e e' x x' : Postfix} {f g r : Fragment} {n : Node} {t : Token} {q : Quantifier}
  {lexemes : List Lexeme} {stack stack' : List Fragment} {symbols : List Symbol}

/-- An expression as it is written, every operator behind its operands. -/
def written : Postfix → List Symbol
  | sentinel => [.first]
  | value t _ _ => [.token t]
  | quantified e t _ _ => e.written ++ [.token t]
  | group e t _ => e.written ++ [.token t]
  | concat e x => e.written ++ x.written ++ [.concat]
  | alternation e x t _ => e.written ++ x.written ++ [.token t]

/-- What the automaton of an expression starts with. -/
def entry : Postfix → Node.Kind
  | sentinel => .first
  | value t _ _ => .piece t.piece
  | quantified e t q _ => if q = .plus then e.entry else .piece t.piece
  | group _ t _ => .piece t.piece
  | concat e _ => e.entry
  | alternation _ _ t _ => .piece t.piece

/-- The automaton of an expression starts with a fork. -/
def Forks (e : Postfix) : Prop := e.entry = .piece .alternation

/-- An edge leads back to what the automaton of an expression starts with. -/
def Returns : Postfix → Prop
  | quantified _ _ q _ => q ≠ .optional
  | concat e _ => e.Returns
  | _ => False

/-- A fork with an edge that leads back to it is taken over by an alternation. -/
def Loses : Postfix → Prop
  | sentinel | value .. => False
  | quantified e .. | group e .. => e.Loses
  | concat e x => e.Loses ∨ x.Loses
  | alternation e x .. => e.Loses ∨ x.Loses ∨ e.Forks ∧ e.Returns

/-- No alternation has a fork on its right, and every group ends at a lexeme. -/
def Builds (lexemes : List Lexeme) : Postfix → Prop
  | sentinel | value .. => True
  | quantified e .. => e.Builds lexemes
  | group e t _ => e.Builds lexemes ∧ ∃ last, t.last = some last ∧ last < lexemes.length
  | concat e x => e.Builds lexemes ∧ x.Builds lexemes
  | alternation e x .. => e.Builds lexemes ∧ x.Builds lexemes ∧ ¬ x.Forks

/-! ## Notation -/

theorem written_ne_nil (e : Postfix) : e.written ≠ [] := by
  cases e <;> simp [written]

/-- Postfix notation is read from its end in one way only. -/
theorem append_written_inj {xs ys : List Symbol} (h : xs ++ e.written = ys ++ e'.written) :
    xs = ys ∧ e = e' := by
  induction e generalizing xs ys e' with
  | _ =>
    cases e' <;> simp only [written, ← List.append_assoc, List.append_singleton_inj] at h <;> grind

theorem written_inj (h : e.written = e'.written) : e = e' :=
  (append_written_inj (congrArg ([] ++ ·) h)).2

theorem written_ne_append : e.written ≠ e'.written ++ x.written := by
  intro h
  have heq : [] ++ e.written = e'.written ++ x.written := h
  exact e'.written_ne_nil (append_written_inj heq).1.symm

/-! ## Construction of an expression -/

/-- The fragment of an expression, if its operations can be done. -/
def fragment? (lexemes : List Lexeme) : Postfix → Option Fragment
  | sentinel => some Construction.firstFragment
  | value t _ _ => some (.ofValue t)
  | quantified e t q _ => (e.fragment? lexemes).map (·.quantify t q)
  | group e t _ => (e.fragment? lexemes).bind fun f => (Construction.enclose lexemes t f).toOption
  | concat e x => (e.fragment? lexemes).bind fun f => (x.fragment? lexemes).map (f.concat ·)
  | alternation e x t _ =>
      (e.fragment? lexemes).bind fun f => (x.fragment? lexemes).bind (f.alternate t ·)

/-- What is written for the expressions on a stack. -/
def writtenAll (es : List Postfix) : List Symbol := es.reverse.flatMap written

@[simp] theorem writtenAll_cons (e : Postfix) (es : List Postfix) :
    writtenAll (e :: es) = writtenAll es ++ e.written := by
  simp [writtenAll]

end Postfix

namespace Construction

open Postfix

variable {lexemes : List Lexeme} {stack stack' : List Fragment} {symbols : List Symbol}
  {e : Postfix} {f : Fragment}

/-- One symbol, where `first` is a value like any other. -/
def advance (lexemes : List Lexeme) (stack : List Fragment) : Symbol → Option (List Fragment)
  | .first => some (firstFragment :: stack)
  | s => ((step lexemes stack s).map (·.1)).toOption

theorem foldlM_advance (h : Symbol.first ∉ symbols) :
    symbols.foldlM (advance lexemes) stack = (run lexemes stack symbols).outcome.toOption := by
  induction symbols generalizing stack with
  | nil => rfl
  | cons s rest ih =>
    simp only [List.mem_cons, not_or] at h
    have hs : advance lexemes stack s = ((step lexemes stack s).map (·.1)).toOption := by
      cases s <;> simp_all [advance]
    rw [List.foldlM_cons, hs]
    cases hstep : step lexemes stack s with
    | error e => simp [run, hstep, Except.map, Except.toOption]
    | ok r => simpa [run, hstep, Except.map, Except.toOption, Built.note] using ih h.2

section Token

variable {t : Token} {v : Value} {q : Quantifier} {g : Fragment}

theorem advance_value (ht : t.piece = .value v) :
    advance lexemes stack (.token t) = some (.ofValue t :: stack) := by
  simp [advance, step, evaluate, ht, Except.map, Except.toOption]

theorem advance_quantifier (ht : t.piece = .quantifier q) :
    advance lexemes (f :: stack) (.token t) = some (f.quantify t q :: stack) := by
  simp [advance, step, evaluate, ht, Except.map, Except.toOption]

theorem advance_group (ht : t.piece = .groupOpen) :
    advance lexemes (f :: stack) (.token t) =
      (enclose lexemes t f).toOption.map (· :: stack) := by
  simp only [advance, step, evaluate, ht]
  cases enclose lexemes t f <;> rfl

theorem advance_alternation (ht : t.piece = .alternation) :
    advance lexemes (g :: f :: stack) (.token t) = (f.alternate t g).map (· :: stack) := by
  simp only [advance, step, evaluate, ht]
  cases f.alternate t g <;> rfl

theorem advance_concat :
    advance lexemes (g :: f :: stack) .concat = some (f.concat g :: stack) := rfl

end Token

theorem foldlM_written (hf : e.fragment? lexemes = some f) :
    e.written.foldlM (advance lexemes) stack = some (f :: stack) := by
  induction e generalizing stack f with
  | sentinel =>
    obtain rfl := Option.some.inj hf
    rfl
  | value t v ht =>
    obtain rfl := Option.some.inj hf
    simp [written, advance_value ht]
  | quantified e t q ht ih =>
    obtain ⟨g, hg, rfl⟩ := Option.map_eq_some_iff.mp hf
    simp [written, ih hg, advance_quantifier ht]
  | group e t ht ih =>
    obtain ⟨g, hg, hf⟩ := Option.bind_eq_some_iff.mp hf
    simp [written, ih hg, advance_group ht, hf]
  | concat e x ihe ihx =>
    obtain ⟨g, hg, hf⟩ := Option.bind_eq_some_iff.mp hf
    obtain ⟨r, hr, rfl⟩ := Option.map_eq_some_iff.mp hf
    simp [written, ihe hg, ihx hr, advance_concat]
  | alternation e x t ht ihe ihx =>
    obtain ⟨g, hg, hf⟩ := Option.bind_eq_some_iff.mp hf
    obtain ⟨r, hr, hf⟩ := Option.bind_eq_some_iff.mp hf
    simp [written, ihe hg, ihx hr, advance_alternation ht, hf]

/-- The fragments on the stack are those of the expressions that have been read. -/
def Stacked (lexemes : List Lexeme) (es : List Postfix) (stack : List Fragment) : Prop :=
  List.Forall₂ (fun e f => e.fragment? lexemes = some f) es stack

theorem Stacked.advance_token {t : Token} {es : List Postfix} (hes : Stacked lexemes es stack)
    (h : advance lexemes stack (.token t) = some stack') :
    ∃ es', Stacked lexemes es' stack' ∧ writtenAll es' = writtenAll es ++ [.token t] := by
  cases ht : t.piece with
  | value v =>
    rw [advance_value ht, Option.some_inj] at h
    subst h
    exact ⟨.value t v ht :: es, .cons rfl hes, by simp [written]⟩
  | quantifier q =>
    cases hes with
    | nil => simp [Construction.advance, step, evaluate, ht, Except.map, Except.toOption] at h
    | @cons e f es stack he hes =>
      rw [advance_quantifier ht, Option.some_inj] at h
      subst h
      exact ⟨.quantified e t q ht :: es, .cons (by simp [fragment?, he]) hes, by simp [written]⟩
  | groupOpen =>
    cases hes with
    | nil => simp [Construction.advance, step, evaluate, ht, Except.map, Except.toOption] at h
    | @cons e f es stack he hes =>
      rw [advance_group ht, Option.map_eq_some_iff] at h
      obtain ⟨r, hr, rfl⟩ := h
      exact ⟨.group e t ht :: es, .cons (by simp [fragment?, he, hr]) hes, by simp [written]⟩
  | alternation =>
    cases hes with
    | nil => simp [Construction.advance, step, evaluate, ht, Except.map, Except.toOption] at h
    | @cons x g es stack hx hes =>
      cases hes with
      | nil => simp [Construction.advance, step, evaluate, ht, Except.map, Except.toOption] at h
      | @cons e f es stack he hes =>
        rw [advance_alternation ht, Option.map_eq_some_iff] at h
        obtain ⟨r, hr, rfl⟩ := h
        exact ⟨.alternation e x t ht :: es, .cons (by simp [fragment?, he, hx, hr]) hes,
          by simp [written]⟩
  | groupClose =>
    simp [Construction.advance, step, evaluate, ht, Except.map, Except.toOption] at h

theorem Stacked.advance {s : Symbol} {es : List Postfix} (hes : Stacked lexemes es stack)
    (h : advance lexemes stack s = some stack') :
    ∃ es', Stacked lexemes es' stack' ∧ writtenAll es' = writtenAll es ++ [s] := by
  cases s with
  | first =>
    obtain rfl := Option.some.inj h
    exact ⟨.sentinel :: es, .cons rfl hes, by simp [written]⟩
  | last => simp [Construction.advance, step, Except.map, Except.toOption] at h
  | concat =>
    cases hes with
    | nil => simp [Construction.advance, step, Except.map, Except.toOption] at h
    | @cons x g es stack hx hes =>
      cases hes with
      | nil => simp [Construction.advance, step, Except.map, Except.toOption] at h
      | @cons e f es stack he hes =>
        obtain rfl := Option.some.inj h
        exact ⟨.concat e x :: es, .cons (by simp [fragment?, he, hx]) hes, by simp [written]⟩
  | token t => exact hes.advance_token h

theorem Stacked.foldlM {es : List Postfix} (hes : Stacked lexemes es stack)
    (h : symbols.foldlM (Construction.advance lexemes) stack = some stack') :
    ∃ es', Stacked lexemes es' stack' ∧ writtenAll es' = writtenAll es ++ symbols := by
  induction symbols generalizing es stack with
  | nil =>
    obtain rfl := Option.some.inj h
    exact ⟨es, hes, by simp⟩
  | cons s rest ih =>
    rw [List.foldlM_cons] at h
    obtain ⟨next, hnext, hrest⟩ := Option.bind_eq_some_iff.mp h
    obtain ⟨us, hus, hwritten⟩ := hes.advance hnext
    obtain ⟨es', hes', hwritten'⟩ := ih hus hrest
    exact ⟨es', hes', by rw [hwritten', hwritten, List.append_assoc, List.singleton_append]⟩

end Construction
end RegexDiagram
