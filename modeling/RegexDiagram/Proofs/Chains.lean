import RegexDiagram.Proofs.Settlement

/-!
What folding chains of quantifiers reports. A token counts for folding unless the passes before have
ruled it out. The search for empty operands has ruled out the quantifiers that have nothing in front
of them, so a quantifier is reported if it is left and the nearest token in front of it that counts
is a quantifier.
-/
namespace RegexDiagram

/-- A token has not been ruled out. -/
def Stands (us : List Token) (k : Nat) : Prop := ∃ u : Token, us[k]? = some u ∧ u.invalid = false

/-- What the search for empty operands makes of tokens, with parentheses added behind them. -/
structure Searched (ts us : List Token) : Prop where
  site : ∀ (k : Nat) (t : Token), ts[k]? = some t → ∃ u : Token, us[k]? = some u ∧ u.site = t.site
  added : ∀ (k : Nat) (u : Token), us[k]? = some u → ts.length ≤ k → u.piece = .groupClose
  quantifiers : ∀ (k : Nat) (u : Token), us[k]? = some u → QuantifierAt (ts.map Token.piece) k →
    (u.invalid = true ↔ ¬ValueBefore (ts.map Token.piece) k)

namespace Searched

variable {ts us : List Token} {u : Token} {k : Nat}

theorem exists_token (h : Searched ts us) (hu : us[k]? = some u) (hk : k < ts.length) :
    ∃ t : Token, ts[k]? = some t ∧ u.site = t.site := by
  obtain ⟨v, hv, hsite⟩ := h.site k ts[k] (List.getElem?_eq_getElem hk)
  obtain rfl := Option.some.inj (hu.symm.trans hv)
  exact ⟨ts[k], List.getElem?_eq_getElem hk, hsite⟩

theorem length_le (h : Searched ts us) : ts.length ≤ us.length := by
  by_contra hlt
  obtain ⟨u, hu, -⟩ := h.site us.length _ (List.getElem?_eq_getElem (Nat.lt_of_not_le hlt))
  simp at hu

theorem quantifierAt_iff (h : Searched ts us) (hu : us[k]? = some u) :
    QuantifierAt (ts.map Token.piece) k ↔ ∃ q, u.piece = .quantifier q := by
  rcases Nat.lt_or_ge k ts.length with hk | hk
  · obtain ⟨t, ht, hsite⟩ := h.exists_token hu hk
    have hp := getElem?_piece ht
    rw [← show u.piece = t.piece from congrArg Prod.fst hsite] at hp
    simp [QuantifierAt, hp]
  · have hnone : (ts.map Token.piece)[k]? = none := by simpa using hk
    simp [QuantifierAt, hnone, h.added k u hu hk]

theorem chained_iff (h : Searched ts us) (hu : us[k]? = some u) :
    Defect (ts.map Token.piece) (Stands us) k .quantifierChain ↔
      u.invalid = false ∧ (∃ q, u.piece = .quantifier q) ∧
        AfterQuantifier (ts.map Token.piece) (Stands us) k := by
  rw [← h.quantifierAt_iff hu, ← and_assoc, and_comm (a := _ = false), and_assoc]
  refine and_congr_right fun hq => and_congr_left' ?_
  rw [← not_iff_not, ← h.quantifiers k u hu hq, Bool.not_eq_false]

end Searched

namespace EmptyOperands

open Classical in
theorem getElem?_invalidate_balanced {ts : List Token} {k : Nat} {t : Token} (places : List Nat)
    (closings : List Token) (ht : ts[k]? = some t) :
    (invalidate places (Groups.balanced (ts.map Token.piece) 0 ts ++ closings))[k]? =
      some ((t.judge (Unopened (ts.map Token.piece) k)).judge (k ∈ places)) := by
  have hk : k < ts.length := (List.getElem?_eq_some_iff.mp ht).1
  rw [invalidate, List.getElem?_mapIdx, List.getElem?_append_left (by simpa using hk),
    Groups.getElem?_balanced, ht]
  simp [Token.judge]

/-- A verdict that settles all places rules out the quantifiers that have nothing in front. -/
theorem searched_invalidate {ts left : List Token} {v : Verdict} (hts : AsRead ts)
    (hv : v.Settles ts (List.range' 0 ts.length)) :
    Searched ts (invalidate v.places
      (Groups.balanced (ts.map Token.piece) 0 ts ++ left.map Token.closing)) where
  site k t ht := by
    refine ⟨_, getElem?_invalidate_balanced v.places _ ht, ?_⟩
    rw [Token.site_judge, Token.site_judge]
  added k u hu hk := by
    rw [invalidate, List.getElem?_mapIdx, List.getElem?_append_right (by simpa using hk)] at hu
    obtain ⟨w, hw, rfl⟩ := Option.map_eq_some_iff.mp hu
    obtain ⟨o, -, rfl⟩ := List.mem_map.mp (List.mem_of_getElem? hw)
    split <;> rfl
  quantifiers k u hu hq := by
    obtain ⟨q, hp⟩ := hq
    obtain ⟨t, ht, hpiece⟩ := List.getElem?_map ▸ hp |> Option.map_eq_some_iff.mp
    obtain rfl := Option.some.inj (hu.symm.trans (getElem?_invalidate_balanced v.places _ ht))
    have hopened : ¬Unopened (ts.map Token.piece) k := fun h => by simp [h.closing] at hp
    have hvalid : t.invalid = false := by
      rw [← Bool.not_eq_true, (hts t (List.mem_of_getElem? ht)).2, hpiece]
      simp
    have hk : k < ts.length := (List.getElem?_eq_some_iff.mp ht).1
    have hplaces := hv.quantifiers k ⟨q, hp⟩
    rw [List.mem_range'_1, Nat.zero_add, and_iff_right ⟨Nat.zero_le k, hk⟩] at hplaces
    rw [← hplaces]
    by_cases hmem : k ∈ v.places <;> simp [Token.judge, Token.invalidate, hopened, hvalid, hmem]

end EmptyOperands

namespace QuantifierChains

variable {ts us rest : List Token} {u w : Token} {k : Nat} {q : Option Quantifier} {r : Folded}

open Classical in
/-- Folding reports the quantifiers that follow another one, and rules out these and no other
tokens. -/
structure Folded.Accounts (ts us : List Token) (k : Nat) (rest : List Token) (r : Folded) :
    Prop where
  ledger : Ledger ts (Stands us) (due (ts.map Token.piece) (Stands us) [.quantifierChain]
    (List.range' k rest.length)) r.findings
  tokens : (r.tokens.map fun w => (w.pos, w.invalid)) = (rest.zipIdx k).map fun p =>
    (p.1.pos, p.1.invalid ||
      decide (Defect (ts.map Token.piece) (Stands us) p.2 .quantifierChain))

namespace Folded.Accounts

theorem silent (h : r.Accounts ts us (k + 1) rest)
    (hd : ¬Defect (ts.map Token.piece) (Stands us) k .quantifierChain)
    (hpos : w.pos = u.pos) (hinvalid : w.invalid = u.invalid) :
    Accounts ts us k (u :: rest) ⟨q, w :: r.tokens, r.findings⟩ where
  ledger := by
    rw [List.length_cons, List.range'_succ, due_cons, due_of_not_defect (by simpa using hd)]
    exact h.ledger
  tokens := by simp [h.tokens, hd, hpos, hinvalid]

theorem reported {f : Finding} (h : r.Accounts ts us (k + 1) rest)
    (hf : f.Reports ts (Stands us) k) (hc : f.category = .quantifierChain) :
    Accounts ts us k (u :: rest) ⟨q, u.invalidate :: r.tokens, f :: r.findings⟩ where
  ledger := by
    rw [List.length_cons, List.range'_succ, due_cons, due_of_defect (by simp [hc]) hf.defect]
    exact (Ledger.single hf).append h.ledger
  tokens := by
    have hd := hf.defect
    rw [hc] at hd
    simp [h.tokens, hd, Token.invalidate]

end Folded.Accounts

/-- What folding knows in front of a place is whether the place follows a quantifier. -/
theorem accounts_fold (h : Searched ts us) (hrest : us.drop k = rest)
    (hq : q.isSome ↔ AfterQuantifier (ts.map Token.piece) (Stands us) k) :
    (fold q rest).Accounts ts us k rest := by
  induction rest generalizing k q with
  | nil => exact ⟨.nil ts _, rfl⟩
  | cons u rest ih =>
    obtain ⟨hu, hrest⟩ := getElem?_of_drop hrest
    have hquantifier := h.quantifierAt_iff hu
    have hchained := h.chained_iff hu
    have hstands : Stands us k ↔ u.invalid = false := by simp [Stands, hu]
    cases hi : u.invalid with
    | true =>
      rw [fold_invalid q hi]
      refine (ih hrest ?_).silent (by simp [hchained, hi]) rfl rfl
      simp [hq, afterQuantifier_succ, hstands, hi]
    | false =>
      by_cases hp : ∃ r, u.piece = .quantifier r
      · have hafter (r : Quantifier) : (some r).isSome ↔
            AfterQuantifier (ts.map Token.piece) (Stands us) (k + 1) := by
          simp [afterQuantifier_succ, hstands, hi, hquantifier, hp]
        obtain ⟨r, hr⟩ := hp
        cases q with
        | none =>
          rw [fold_first hi hr]
          exact (ih hrest (hafter r)).silent (by simp [hchained, ← hq]) rfl rfl
        | some q =>
          have hd := hchained.mpr ⟨hi, ⟨r, hr⟩, hq.mp rfl⟩
          have hlt : k < ts.length := by simpa using hd.lt_length
          obtain ⟨t, ht, hsite⟩ := h.exists_token hu hlt
          rw [fold_next hi hr]
          refine (ih hrest (hafter _)).reported (f := .quantifierChain q u) (.single ht hd
            (by simp [Finding.quantifierChain]) ?_ ?_) rfl
          · exact congrArg (·.2.1) hsite
          · exact congrArg (fun s => [s.2.2]) hsite
      · have hother : u.isQuantifier = false := by
          cases hpiece : u.piece <;> simp_all [Token.isQuantifier, Piece.isQuantifier]
        rw [fold_other q hi hother]
        refine (ih hrest ?_).silent (by simp [hchained, hp]) rfl rfl
        simp [afterQuantifier_succ, hstands, hi, hquantifier, hp]

end QuantifierChains
end RegexDiagram
