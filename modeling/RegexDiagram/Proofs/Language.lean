import Mathlib.Computability.Language
import RegexDiagram.Proofs.Tree

/-!
Languages of regexes. A tree denotes the usual language, in which a value stands for the characters
that it accepts. If every occurrence of a value is a letter of its own, the same tree denotes a
language of occurrences, and a word of characters belongs to the one exactly if occurrences that
accept its characters one by one form a word of the other.
-/
namespace RegexDiagram

open Computability

/-- The language of an operand with a quantifier. -/
def Quantifier.apply {α : Type} (L : Language α) : Quantifier → Language α
  | optional => 1 + L
  | star => L∗
  | plus => L * L∗

/-- One place of a regex where a value stands, known by its lexeme. -/
structure Occurrence where
  index : Option Nat
  value : Value
deriving DecidableEq

namespace Tree

variable {α : Type} {l : Precedence}

/-- The language of a tree, given what values denote. -/
def denote (leaf : Token → Value → Language α) : {l : Precedence} → Tree l → Language α
  | _, value t v _ => leaf t v
  | _, group _ _ _ _ body => body.denote leaf
  | _, quantified a _ q _ _ => q.apply (a.denote leaf)
  | _, concat f g _ => f.denote leaf * g.denote leaf
  | _, alternation e _ _ g => e.denote leaf + g.denote leaf

def language (t : Tree l) : Language Char :=
  t.denote fun _ v => {w | ∃ c, v.accepts c = true ∧ w = [c]}

def words (t : Tree l) : Language Occurrence := t.denote fun t v => {[⟨some t.index, v⟩]}

theorem words_value (t : Token) (v : Value) (hv : t.piece = .value v) :
    (value t v hv : Tree l).words = {[⟨some t.index, v⟩]} := rfl

theorem words_quantified (a : Tree .atom) (t : Token) (q : Quantifier)
    (hq : t.piece = .quantifier q) (hl : l ≠ .atom) :
    (quantified a t q hq hl : Tree l).words = q.apply a.words := rfl

theorem words_concat (f : Tree .term) (g : Tree .factor) (hl : l = .term ∨ l = .expr) :
    (concat f g hl).words = f.words * g.words := rfl

theorem words_alternation (e : Tree .expr) (t : Token) (ht : t.piece = .alternation)
    (g : Tree .term) : (alternation e t ht g).words = e.words + g.words := rfl

/-- Whether a tree matches nothing at all. -/
def nullable : {l : Precedence} → Tree l → Bool
  | _, value _ _ _ => false
  | _, group _ _ _ _ body => body.nullable
  | _, quantified a _ q _ _ => if q = .plus then a.nullable else true
  | _, concat f g _ => f.nullable && g.nullable
  | _, alternation e _ _ g => e.nullable || g.nullable

end Tree

namespace Expression

/-- The language of a whole regex. The empty regex matches only the empty word. -/
def language : Expression → Language Char
  | none => 1
  | some e => e.language

def words : Expression → Language Occurrence
  | none => 1
  | some e => e.words

end Expression

section Image

variable {α β : Type}

/-- The words that match a word of a language letter by letter. -/
def image (r : α → β → Prop) (L : Language α) : Language β := {w | ∃ u ∈ L, List.Forall₂ r u w}

variable {r : α → β → Prop} {L M : Language α} {w : List β}

theorem mem_image : w ∈ image r L ↔ ∃ u ∈ L, List.Forall₂ r u w := Iff.rfl

theorem forall₂_append_left {u v : List α} :
    List.Forall₂ r (u ++ v) w ↔
      ∃ x y, x ++ y = w ∧ List.Forall₂ r u x ∧ List.Forall₂ r v y := by
  constructor
  · intro h
    refine ⟨w.take u.length, w.drop u.length, List.take_append_drop .., ?_, ?_⟩
    · simpa using List.forall₂_take u.length h
    · simpa using List.forall₂_drop u.length h
  · intro h'
    obtain ⟨x, y, rfl, hx, hy⟩ := h'
    exact List.rel_append hx hy

theorem image_one : image r (1 : Language α) = 1 := by
  ext w
  simp [mem_image, Language.mem_one]

theorem image_add : image r (L + M) = image r L + image r M := by
  ext w
  simp only [mem_image, Language.mem_add, or_and_right, exists_or]

theorem image_mul : image r (L * M) = image r L * image r M := by
  ext w
  simp only [mem_image, Language.mem_mul]
  constructor
  · intro h'
    obtain ⟨_, ⟨u, hu, v, hv, rfl⟩, h⟩ := h'
    obtain ⟨x, y, rfl, hx, hy⟩ := forall₂_append_left.mp h
    exact ⟨x, ⟨u, hu, hx⟩, y, ⟨v, hv, hy⟩, rfl⟩
  · intro h'
    obtain ⟨x, ⟨u, hu, hx⟩, y, ⟨v, hv, hy⟩, rfl⟩ := h'
    exact ⟨u ++ v, ⟨u, hu, v, hv, rfl⟩, List.rel_append hx hy⟩

theorem image_pow (n : ℕ) : image r (L ^ n) = image r L ^ n := by
  induction n with
  | zero => simp only [pow_zero, image_one]
  | succ n ih => simp only [pow_succ, image_mul, ih]

theorem image_kstar : image r L∗ = (image r L)∗ := by
  ext w
  simp only [Language.kstar_eq_iSup_pow, Language.mem_iSup, mem_image, ← image_pow]
  constructor
  · intro h'
    obtain ⟨u, ⟨n, hu⟩, h⟩ := h'
    exact ⟨n, u, hu, h⟩
  · intro h'
    obtain ⟨n, u, hu, h⟩ := h'
    exact ⟨u, ⟨n, hu⟩, h⟩

theorem image_apply (q : Quantifier) : image r (q.apply L) = q.apply (image r L) := by
  cases q with
  | optional => simp only [Quantifier.apply, image_add, image_one]
  | star => exact image_kstar
  | plus => simp only [Quantifier.apply, image_mul, image_kstar]

theorem Tree.image_denote {l : Precedence} (t : Tree l) (leaf : Token → Value → Language α) :
    image r (t.denote leaf) = t.denote fun t v => image r (leaf t v) := by
  induction t with
  | value t v hv => rfl
  | group opening closing ho hc body ih => exact ih
  | quantified a t q hq hl ih => simp only [denote, image_apply, ih]
  | concat f g hl ihf ihg => simp only [denote, image_mul, ihf, ihg]
  | alternation e t ht g ihe ihg => simp only [denote, image_add, ihe, ihg]

end Image

/-- The occurrence of a value accepts a character. -/
def Occurrence.Accepts (o : Occurrence) (c : Char) : Prop := o.value.accepts c = true

instance (o : Occurrence) (c : Char) : Decidable (o.Accepts c) :=
  inferInstanceAs (Decidable (o.value.accepts c = true))

namespace Tree

variable {l : Precedence}

theorem image_words (t : Tree l) : image Occurrence.Accepts t.words = t.language := by
  have hleaf (t : Token) (v : Value) (w : List Char) :
      w ∈ image Occurrence.Accepts ({[⟨some t.index, v⟩]} : Language Occurrence) ↔
        ∃ c, v.accepts c = true ∧ w = [c] := by
    rw [mem_image]
    constructor
    · intro h'
      obtain ⟨_, rfl, h⟩ := h'
      obtain ⟨c, cs, hc, hcs, rfl⟩ := List.forall₂_cons_left_iff.mp h
      obtain rfl := List.forall₂_nil_left_iff.mp hcs
      exact ⟨c, hc, rfl⟩
    · intro h'
      obtain ⟨c, hc, rfl⟩ := h'
      exact ⟨_, rfl, .cons hc .nil⟩
  rw [words, image_denote, language]
  exact congrArg (t.denote ·) (funext fun t => funext fun v => Set.ext (hleaf t v))

theorem nullable_iff (t : Tree l) : t.nullable = true ↔ [] ∈ t.words := by
  induction t with
  | value t v hv =>
    have h : [] ≠ [(⟨some t.index, v⟩ : Occurrence)] := by simp
    exact ⟨fun hn => by simp [nullable] at hn, fun hw => absurd hw h⟩
  | group opening closing ho hc body ih => exact ih
  | quantified a t q hq hl ih =>
    cases q with
    | optional =>
      exact ⟨fun _ => (Language.mem_add _ _ _).mpr (.inl Language.nil_mem_one), fun _ => rfl⟩
    | star => exact ⟨fun _ => Language.nil_mem_kstar _, fun _ => rfl⟩
    | plus =>
      rw [words_quantified, Quantifier.apply, Language.mem_mul, nullable, if_pos rfl, ih]
      constructor
      · exact fun h => ⟨[], h, [], Language.nil_mem_kstar _, rfl⟩
      · intro h'
        obtain ⟨u, hu, v, -, huv⟩ := h'
        rwa [(List.append_eq_nil_iff.mp huv).1] at hu
  | concat f g hl ihf ihg =>
    rw [words_concat, Language.mem_mul, nullable, Bool.and_eq_true, ihf, ihg]
    constructor
    · exact fun h => ⟨[], h.1, [], h.2, rfl⟩
    · intro h'
      obtain ⟨u, hu, v, hv, huv⟩ := h'
      obtain ⟨rfl, rfl⟩ := List.append_eq_nil_iff.mp huv
      exact ⟨hu, hv⟩
  | alternation e t ht g ihe ihg =>
    rw [nullable, Bool.or_eq_true, ihe, ihg, words_alternation, Language.mem_add]

end Tree

theorem Expression.image_words (A : Expression) :
    image Occurrence.Accepts A.words = A.language := by
  cases A with
  | none => exact image_one
  | some e => exact e.image_words

theorem Expression.nil_mem_language_iff (A : Expression) : [] ∈ A.language ↔ [] ∈ A.words := by
  rw [← A.image_words, mem_image]
  constructor
  · intro h'
    obtain ⟨u, hu, h⟩ := h'
    rwa [List.forall₂_nil_right_iff.mp h] at hu
  · exact fun h => ⟨[], h, .nil⟩

end RegexDiagram
