import Mathlib.Data.List.Forall2
import RegexDiagram.Proofs.Grammar
import RegexDiagram.Proofs.Reading

/-!
What validation does to each token. Every pass goes through the tokens one by one: it may rule a
token out, but never a value, and of a token that it leaves valid it changes nothing, unless the
token is a quantifier. The only tokens it adds are the closing parentheses behind all others.
-/
namespace RegexDiagram

open List (Forall₂ SublistForall₂)

namespace Token

/-- A token as it was read, except that a quantifier may have become another one. -/
inductive ComesFrom : Token → Token → Prop
  | same (t : Token) : ComesFrom t t
  | folded {t : Token} {q : Quantifier} (hq : t.piece = .quantifier q) (r : Quantifier) :
      ComesFrom { t with piece := .quantifier r } t

namespace ComesFrom

variable {t u v : Token}

theorem trans (h : v.ComesFrom u) (h' : u.ComesFrom t) : v.ComesFrom t := by
  cases h' with
  | same => exact h
  | folded hq r =>
    cases h with
    | same => exact .folded hq r
    | folded _ r => exact .folded hq r

theorem invalid_eq (h : u.ComesFrom t) : u.invalid = t.invalid := by
  cases h <;> rfl

theorem added_eq (h : u.ComesFrom t) : u.added = t.added := by
  cases h <;> rfl

end ComesFrom

/-- Where a token is, and where it came from. No pass of validation changes that. -/
def frame (t : Token) : Nat × Nat × Option Nat × Bool := (t.pos, t.index, t.last, t.added)

/-- What a pass of validation may make of `t`. -/
structure Revises (u t : Token) : Prop where
  kept : u.invalid = false → u.ComesFrom t
  value : t.isValue = true → u = t
  isValue : u.isValue = t.isValue
  frame : u.frame = t.frame

namespace Revises

variable {t u v : Token}

theorem refl (t : Token) : t.Revises t := ⟨fun _ => .same t, fun _ => rfl, rfl, rfl⟩

theorem trans (h : v.Revises u) (h' : u.Revises t) : v.Revises t where
  kept hv := by
    have hfrom := h.kept hv
    exact hfrom.trans (h'.kept (hfrom.invalid_eq ▸ hv))
  value ht := by
    obtain rfl := h'.value ht
    exact h.value ht
  isValue := h.isValue.trans h'.isValue
  frame := h.frame.trans h'.frame

theorem invalidate (ht : t.isValue = false) : t.invalidate.Revises t where
  kept h := by simp [Token.invalidate] at h
  value h := by simp [ht] at h
  isValue := rfl
  frame := rfl

theorem judge (out : Bool) (ht : t.isValue = false) : (t.judge out).Revises t := by
  cases out with
  | false => exact refl t
  | true => exact invalidate ht

theorem refold {q : Quantifier} (hq : t.piece = .quantifier q) (r : Quantifier) :
    ({ t with piece := .quantifier r } : Token).Revises t where
  kept _ := .folded hq r
  value h := by simp [Token.isValue, Piece.isValue, hq] at h
  isValue := by simp [Token.isValue, Piece.isValue, hq]
  frame := rfl

theorem forall₂_trans {ts us vs : List Token} (h : Forall₂ Revises vs us)
    (h' : Forall₂ Revises us ts) : Forall₂ Revises vs ts := by
  induction h generalizing ts with
  | nil => exact h'
  | cons ha _ ih =>
    cases h' with
    | cons hb h' => exact .cons (ha.trans hb) (ih h')

/-- The tokens that are left valid come from some of the tokens, in order. -/
theorem sublist_valid {ts us : List Token} (h : Forall₂ Revises us ts) :
    SublistForall₂ ComesFrom (us.filter (!·.invalid)) ts := by
  induction h with
  | nil => exact .nil
  | @cons u t us ts hu _ ih =>
    cases hv : u.invalid with
    | true => simpa [hv] using ih.cons_right
    | false => simpa [hv] using List.SublistForall₂.cons (hu.kept hv) ih

theorem values_valid {ts us : List Token} (h : Forall₂ Revises us ts) :
    (us.filter (!·.invalid)).filter (·.isValue) =
      ts.filter fun t => t.isValue && !t.invalid := by
  induction h with
  | nil => rfl
  | @cons u t us ts hu _ ih =>
    rw [List.filter_filter] at ih ⊢
    cases ht : t.isValue with
    | true =>
      obtain rfl := hu.value ht
      simp [List.filter_cons, ih]
    | false =>
      have hu' : u.isValue = false := hu.isValue.trans ht
      simp [ht, hu', ih]

end Revises
end Token

open Token

theorem Groups.revises_balance (opened ts : List Token) :
    ∃ us left : List Token, (balance opened ts).1 = us ++ left.map closing ∧
      Forall₂ Revises us ts := by
  fun_induction balance opened ts with
  | case1 opened => exact ⟨[], opened, rfl, .nil⟩
  | case3 t ts hp ih =>
    obtain ⟨us, left, heq, h⟩ := ih
    refine ⟨t.invalidate :: us, left, by simp [heq], .cons (.invalidate ?_) h⟩
    simp [Token.isValue, Piece.isValue, hp]
  | _ =>
    rename_i ih
    obtain ⟨us, left, heq, h⟩ := ih
    exact ⟨_ :: us, left, by simp [heq], .cons (.refl _) h⟩

theorem Forest.revises_judged (f : Forest) (hf : f.Nested) (empty : Bool) :
    Forall₂ Revises (f.judged empty) f.tokens := by
  induction f generalizing empty with
  | nil => exact .nil
  | leaf t rest ih =>
    obtain ⟨-, -, hrest⟩ := hf
    simp only [judged, tokens, ruledOut] at ih ⊢
    split
    · exact .cons (.refl t) (ih hrest empty)
    · split
      · exact .cons (.refl t) (ih hrest _)
      · rename_i hp
        exact .cons (.judge _ (by simp [Token.isValue, Piece.isValue, hp])) (ih hrest _)
      · rename_i hp
        exact .cons (.judge _ (by simp [Token.isValue, Piece.isValue, hp])) (ih hrest _)
      · exact .cons (.refl t) (ih hrest _)
  | group opening closing content rest ihc ihr =>
    obtain ⟨ho, hc, hcontent, hrest⟩ := hf
    rw [judged_group, tokens]
    refine .cons (.judge _ (by simp [Token.isValue, Piece.isValue, ho.1])) ?_
    refine List.rel_append (ihc hcontent true) (.cons (.judge _ ?_) (ihr hrest _))
    simp [Token.isValue, Piece.isValue, hc.1]

theorem QuantifierChains.revises_fold (q : Option Quantifier) (ts : List Token) :
    Forall₂ Revises (fold q ts).tokens ts := by
  fun_induction fold q ts with
  | case1 => exact .nil
  | case3 t ts ht r q hp rest ih =>
    exact .cons (.invalidate (by simp [Token.isValue, Piece.isValue, hp])) ih
  | case4 t ts ht r hp rest ih => exact .cons (.refold hp _) ih
  | _ =>
    rename_i ih
    exact .cons (.refl _) ih

theorem exists_of_mem_left {us ts : List Token} (h : SublistForall₂ ComesFrom us ts) {u : Token}
    (hu : u ∈ us) : ∃ t ∈ ts, u.ComesFrom t := by
  obtain ⟨vs, hvs, hsub⟩ := List.sublistForall₂_iff.mp h
  obtain ⟨i, hi, rfl⟩ := List.getElem_of_mem hu
  have hi' : i < vs.length := hvs.length_eq ▸ hi
  exact ⟨vs[i], hsub.subset (List.getElem_mem hi'), hvs.get hi hi'⟩

namespace Analysis

/-- The tokens after validation are revisions of those before, and of closing parentheses added
behind them. -/
theorem exists_revision (source : List Char) :
    ∃ a us, ∃ left : List Token, (ofSource source).validate = some a ∧
      Forall₂ Revises a.tokens (us ++ left.map closing) ∧
      Forall₂ Revises us (ofSource source).tokens ∧
      (ofSource source).balanceGroups.tokens = us ++ left.map closing := by
  obtain ⟨us, left, hbalance, hus⟩ := Groups.revises_balance [] (ofSource source).tokens
  obtain ⟨f, htokens, hf⟩ := Groups.exists_forest (ofSource source).tokens
    (unjudged_ofPieces _ 0 0)
  refine ⟨_, us, left,
    by rw [validate, dropEmptyOperands_of_nested _ f hf htokens, Option.map_some], ?_, hus,
    hbalance⟩
  rw [← hbalance, htokens]
  exact Revises.forall₂_trans (QuantifierChains.revises_fold none _) (f.revises_judged hf true)

/-- What validation leaves valid is empty or derives from the grammar. -/
theorem derives_valid {source : List Char} {a : Analysis}
    (ha : (ofSource source).validate = some a) :
    a.valid = [] ∨ Derives .expr (a.valid.map Token.piece) := by
  obtain ⟨b, hb, A, hA⟩ := exists_validate source
  obtain rfl := Option.some.inj (ha.symm.trans hb)
  rw [← hA]
  cases A with
  | none => exact .inl rfl
  | some e => exact .inr e.derives

/-- The valid tokens are valid tokens of the source, followed by closing parentheses that were
added. -/
theorem exists_kept {source : List Char} {a : Analysis}
    (ha : (ofSource source).validate = some a) :
    ∃ us closings, a.valid = us.filter (!·.invalid) ++ closings ∧
      Forall₂ Revises us (ofSource source).tokens ∧
      ∀ t ∈ closings, t.added = true ∧ t.piece = .groupClose := by
  obtain ⟨b, us, left, hb, hrevised, hus, -⟩ := exists_revision source
  obtain rfl := Option.some.inj (ha.symm.trans hb)
  have hfirst := List.forall₂_take_append a.tokens us _ hrevised
  have hlast := List.forall₂_drop_append a.tokens us _ hrevised
  refine ⟨a.tokens.take us.length, (a.tokens.drop us.length).filter (!·.invalid), ?_,
    Revises.forall₂_trans hfirst hus, fun t ht => ?_⟩
  · rw [← List.filter_append, List.take_append_drop, valid]
  · obtain ⟨u, hu, hfrom⟩ := exists_of_mem_left (Revises.sublist_valid hlast) ht
    obtain ⟨o, -, rfl⟩ := List.mem_map.mp hu
    cases hfrom with
    | same => exact ⟨rfl, rfl⟩
    | folded hq => simp [closing] at hq

/--
What validation returns is empty or an expression of the grammar. Apart from added closing
parentheses at its end, it comes from some of the tokens that were read, in order and with nothing
changed but which quantifier a quantifier is, and it has all values of the source but for a
backslash with nothing after it, which is the last token.
-/
theorem validation_selects (source : List Char) :
    ∃ a, (ofSource source).validate = some a ∧
      (a.valid = [] ∨ Derives .expr (a.valid.map Token.piece)) ∧
      (∃ kept closings, a.valid = kept ++ closings ∧
        SublistForall₂ ComesFrom kept (ofSource source).tokens ∧
        (∀ t ∈ kept, t.added = false) ∧
        ∀ t ∈ closings, t.added = true ∧ t.piece = .groupClose) ∧
      a.valid.filter (·.isValue) = (ofSource source).tokens.filter
        (fun t => t.isValue && t.piece ≠ .value .danglingEscape) ∧
      ∀ t ∈ (ofSource source).tokens, t.piece = .value .danglingEscape →
        (ofSource source).tokens.getLast? = some t := by
  obtain ⟨a, ha, -⟩ := exists_validate source
  obtain ⟨us, closings, hvalid, hus, hclosings⟩ := exists_kept ha
  have hsublist := Revises.sublist_valid hus
  refine ⟨a, ha, derives_valid ha, ⟨_, closings, hvalid, hsublist, fun t ht => ?_, hclosings⟩,
    ?_, fun t ht hp => ?_⟩
  · obtain ⟨u, hu, hfrom⟩ := exists_of_mem_left hsublist ht
    rw [hfrom.added_eq, (flags_of_mem_ofSource hu).1]
  · have hnone : closings.filter (·.isValue) = [] := by
      refine List.filter_eq_nil_iff.mpr fun t ht => ?_
      simp [Token.isValue, Piece.isValue, (hclosings t ht).2]
    rw [hvalid, List.filter_append, hnone, List.append_nil, Revises.values_valid hus]
    refine List.filter_congr fun t ht => ?_
    have hflag := (flags_of_mem_ofSource ht).2
    by_cases hp : t.piece = .value .danglingEscape
    · simp [hp, hflag.mpr hp]
    · have hinvalid : t.invalid = false := by simpa [hp] using hflag
      simp [hp, hinvalid]
  · obtain ⟨ts, htokens, -⟩ := exists_of_isUnfinished ht (by rw [hp]; rfl)
    rw [htokens, List.getLast?_concat]

end Analysis
end RegexDiagram
