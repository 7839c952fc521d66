import Mathlib.Data.List.SplitBy
import Mathlib.Data.List.TakeWhile
import Mathlib.Order.CompletePartialOrder
import RegexDiagram.Proofs.Diagnosis
import RegexDiagram.Proofs.Language

/-!
What folding does to quantifiers that follow each other. Among the tokens that the search for empty
operands has left, they form maximal runs. Of each run the first quantifier stays, as the one that
the run amounts to, and the others are ruled out and reported. What a run amounts to does not depend
on its order, and in every language it means what the quantifiers of the run mean one after the
other.
-/
namespace RegexDiagram

open Computability

/-! ## The quantifier of a run -/

namespace Quantifier

variable {α : Type} {q r : Quantifier} {qs : List Quantifier}

/-- The quantifier that a run of quantifiers amounts to. -/
def ofRun (qs : List Quantifier) : Quantifier :=
  if ∀ q ∈ qs, q = optional then optional
  else if ∀ q ∈ qs, q = plus then plus
  else star

theorem ofRun_perm {qs rs : List Quantifier} (h : qs.Perm rs) : ofRun qs = ofRun rs := by
  simp only [ofRun, h.mem_iff]

theorem ofRun_of_star (h : star ∈ qs) : ofRun qs = star := by
  unfold ofRun
  split_ifs with hoptional hplus
  · exact absurd (hoptional star h) (by decide)
  · exact absurd (hplus star h) (by decide)
  · rfl

theorem ofRun_of_ne (hq : q ∈ qs) (hr : r ∈ qs) (h : q ≠ r) : ofRun qs = star := by
  unfold ofRun
  split_ifs with hoptional hplus
  · exact absurd ((hoptional q hq).trans (hoptional r hr).symm) h
  · exact absurd ((hplus q hq).trans (hplus r hr).symm) h
  · rfl

theorem ofRun_cons_cons (q r : Quantifier) (qs : List Quantifier) :
    ofRun (q :: r :: qs) = ofRun (q.fold r :: qs) := by
  by_cases h : q = r
  · subst h
    rw [fold_self]
    simp [ofRun]
  · rw [fold_of_ne h, ofRun_of_star List.mem_cons_self, ofRun_of_ne (q := q) (r := r) _ _ h]
    all_goals simp

theorem foldl_fold (q : Quantifier) (qs : List Quantifier) : qs.foldl fold q = ofRun (q :: qs) := by
  induction qs generalizing q with
  | nil => cases q <;> rfl
  | cons r qs ih => rw [List.foldl_cons, ih, ofRun_cons_cons]

theorem le_apply (L : Language α) (q : Quantifier) : L ≤ q.apply L := by
  cases q with
  | optional => exact le_add_self
  | star => exact le_kstar
  | plus =>
    calc L = L * 1 := (mul_one L).symm
      _ ≤ L * L∗ := by gcongr; exact one_le_kstar

theorem apply_le_kstar (L : Language α) (q : Quantifier) : q.apply L ≤ L∗ := by
  cases q with
  | optional => exact add_le one_le_kstar le_kstar
  | star => exact le_rfl
  | plus => exact mul_kstar_le_kstar

/-- Whatever quantifier it has, what is repeated is the operand. -/
theorem kstar_apply (L : Language α) (q : Quantifier) : (q.apply L)∗ = L∗ := by
  apply le_antisymm
  · calc (q.apply L)∗ ≤ L∗∗ := kstar_mono (apply_le_kstar L q)
      _ = L∗ := kstar_idem L
  · exact kstar_mono (le_apply L q)

/-- Two quantifiers one after the other mean what they are folded into. -/
theorem apply_apply (L : Language α) (q r : Quantifier) :
    r.apply (q.apply L) = (q.fold r).apply L := by
  cases r with
  | optional =>
    cases q with
    | optional => exact (add_assoc 1 1 L).symm.trans (by rw [add_idem]; rfl)
    | star => exact add_eq_right_iff_le.mpr one_le_kstar
    | plus => exact one_add_mul_kstar
  | star =>
    have hfold : q.fold star = star := by cases q <;> decide
    rw [hfold]
    exact kstar_apply L q
  | plus =>
    show q.apply L * (q.apply L)∗ = (q.fold plus).apply L
    rw [kstar_apply]
    cases q with
    | optional =>
      calc (1 + L) * L∗ = L∗ + L * L∗ := by rw [add_mul, one_mul]
        _ = L∗ := add_eq_left_iff_le.mpr mul_kstar_le_kstar
    | star => exact kstar_mul_kstar L
    | plus =>
      calc L * L∗ * L∗ = L * (L∗ * L∗) := mul_assoc L L∗ L∗
        _ = L * L∗ := by rw [kstar_mul_kstar]

/-- A run means what its quantifiers mean one after the other. -/
theorem foldl_apply (L : Language α) (q : Quantifier) (qs : List Quantifier) :
    (q :: qs).foldl (fun M r => r.apply M) L = (ofRun (q :: qs)).apply L := by
  rw [← foldl_fold, List.foldl_cons]
  induction qs generalizing q with
  | nil => rfl
  | cons r qs ih => rw [List.foldl_cons, List.foldl_cons, apply_apply, ih]

end Quantifier

/-! ## Runs of tokens -/

namespace Token

def quantifier? (t : Token) : Option Quantifier :=
  match t.piece with
  | .quantifier q => some q
  | _ => none

/-- The maximal runs of quantifiers among some tokens. Any other token is on its own. -/
def runs (ts : List Token) : List (List Token) :=
  ts.splitBy fun t u => t.isQuantifier && u.isQuantifier

/-- What becomes of a run: its first token is the quantifier that the run amounts to, and the others
are ruled out. -/
def foldRun : List Token → List Token
  | [] => []
  | t :: ts =>
      (if t.isQuantifier then
          { t with piece := .quantifier (.ofRun ((t :: ts).filterMap quantifier?)) }
        else t) :: ts.map invalidate

variable {t : Token} {ts qs rest : List Token} {q : Quantifier}

theorem isQuantifier_iff : t.isQuantifier = true ↔ ∃ q, t.piece = .quantifier q := by
  cases h : t.piece <;> simp [isQuantifier, Piece.isQuantifier, h]

theorem quantifier?_eq (h : t.piece = .quantifier q) : t.quantifier? = some q := by
  simp [quantifier?, h]

theorem runs_cons_other (ht : t.isQuantifier = false) : runs (t :: ts) = [t] :: runs ts := by
  have happend : runs ([t] ++ ts) = runs [t] ++ runs ts :=
    List.splitBy_append fun x hx y _ => by
      obtain rfl : t = x := by simpa using hx
      simp [ht]
  exact happend

theorem runs_append (hqs : ∀ u ∈ t :: qs, u.isQuantifier = true)
    (hrest : ∀ u ∈ rest.head?, u.isQuantifier = false) :
    runs (t :: (qs ++ rest)) = (t :: qs) :: runs rest := by
  have hrun : runs (t :: qs) = [t :: qs] :=
    List.splitBy_of_isChain (List.cons_ne_nil t qs) (List.isChain_iff_getElem.mpr fun i hi => by
      rw [hqs _ (List.getElem_mem _), hqs _ (List.getElem_mem _)]
      rfl)
  have happend : runs (t :: qs ++ rest) = runs (t :: qs) ++ runs rest :=
    List.splitBy_append fun x _ y hy => by simp [hrest y hy]
  rw [hrun] at happend
  exact happend

@[elab_as_elim]
theorem runs_induction {motive : List Token → Prop} (nil : motive [])
    (other : ∀ t ts, t.isQuantifier = false → motive ts → motive (t :: ts))
    (run : ∀ t qs rest, (∀ u ∈ t :: qs, u.isQuantifier = true) →
      (∀ u ∈ rest.head?, u.isQuantifier = false) → motive rest → motive (t :: (qs ++ rest)))
    (ts : List Token) : motive ts := by
  induction h : ts.length using Nat.strong_induction_on generalizing ts with
  | _ n ih =>
    subst h
    cases ts with
    | nil => exact nil
    | cons t ts =>
      cases ht : t.isQuantifier with
      | false => exact other t ts ht (ih ts.length (Nat.lt_succ_self _) ts rfl)
      | true =>
        rw [← List.takeWhile_append_dropWhile (p := isQuantifier) (l := ts)]
        refine run t _ _ (List.forall_mem_cons.mpr ⟨ht, fun u => List.mem_takeWhile_imp⟩)
          (fun u hu => ?_) (ih _ (Nat.lt_succ_of_le (List.length_dropWhile_le ..)) _ rfl)
        have hhead := List.head?_dropWhile_not isQuantifier ts
        rw [Option.mem_def.mp hu] at hhead
        simpa using hhead

end Token

/-! ## Folding run by run -/

namespace QuantifierChains

open Token

variable {t : Token} {ts qs rest : List Token}

/-- Tokens that were ruled out before are passed by, and the others are folded as if they stood
alone. -/
theorem fold_valid (q : Option Quantifier) (ts : List Token) :
    (fold q ts).chain = (fold q (ts.filter (!·.invalid))).chain ∧
      ((ts.zip (fold q ts).tokens).filter (!·.1.invalid)).map Prod.snd =
        (fold q (ts.filter (!·.invalid))).tokens ∧
      (fold q ts).findings = (fold q (ts.filter (!·.invalid))).findings := by
  induction ts generalizing q with
  | nil => exact ⟨rfl, rfl, rfl⟩
  | cons t ts ih =>
    cases ht : t.invalid with
    | true =>
      rw [List.filter_cons_of_neg (by simp [ht]), fold_invalid q ht]
      simpa [Folded.cons, ht] using ih q
    | false =>
      rw [List.filter_cons_of_pos (by simp [ht])]
      by_cases hq : t.isQuantifier = true
      · obtain ⟨r, hr⟩ := isQuantifier_iff.mp hq
        cases q with
        | none =>
          obtain ⟨hchain, htokens, hfindings⟩ := ih (some r)
          rw [fold_first ht hr, fold_first ht hr]
          simp [Folded.restart, ht, hchain, htokens, hfindings]
        | some q =>
          obtain ⟨hchain, htokens, hfindings⟩ := ih (some (q.fold r))
          rw [fold_next ht hr, fold_next ht hr]
          simp [Folded.cons, ht, hchain, htokens, hfindings]
      · have hother : t.isQuantifier = false := by simpa using hq
        obtain ⟨-, htokens, hfindings⟩ := ih none
        rw [fold_other q ht hother, fold_other q ht hother]
        simp [Folded.restart, ht, htokens, hfindings]

theorem eq_of_mem_zip_fold (q : Option Quantifier) (ts : List Token) :
    ∀ p ∈ ts.zip (fold q ts).tokens, p.1.invalid = true → p.2 = p.1 := by
  induction ts generalizing q with
  | nil => simp
  | cons t ts ih =>
    cases ht : t.invalid with
    | true =>
      rw [fold_invalid q ht]
      exact List.forall_mem_cons.mpr ⟨fun _ => rfl, ih q⟩
    | false =>
      have hhead (u : Token) : t.invalid = true → u = t := by simp [ht]
      by_cases hq : t.isQuantifier = true
      · obtain ⟨r, hr⟩ := isQuantifier_iff.mp hq
        cases q with
        | none =>
          rw [fold_first ht hr]
          exact List.forall_mem_cons.mpr ⟨hhead _, ih _⟩
        | some q =>
          rw [fold_next ht hr]
          exact List.forall_mem_cons.mpr ⟨hhead _, ih _⟩
      · rw [fold_other q ht (by simpa using hq)]
        exact List.forall_mem_cons.mpr ⟨hhead _, ih none⟩

theorem fold_run (q : Quantifier) (hqs : ∀ u ∈ qs, u.isQuantifier = true)
    (hrest : ∀ u ∈ rest.head?, u.isQuantifier = false)
    (hvalid : ∀ u ∈ qs ++ rest, u.invalid = false) :
    (fold (some q) (qs ++ rest)).chain = some ((qs.filterMap quantifier?).foldl Quantifier.fold q) ∧
      (fold (some q) (qs ++ rest)).tokens = qs.map invalidate ++ (fold none rest).tokens ∧
      (fold (some q) (qs ++ rest)).findings.map (·.pos) =
        qs.map Token.pos ++ (fold none rest).findings.map (·.pos) := by
  induction qs generalizing q with
  | nil =>
    cases rest with
    | nil => exact ⟨rfl, rfl, rfl⟩
    | cons u rest =>
      have hu : u.isQuantifier = false := hrest u rfl
      have hinvalid : u.invalid = false := hvalid u List.mem_cons_self
      rw [List.nil_append, fold_other _ hinvalid hu, fold_other _ hinvalid hu]
      exact ⟨rfl, rfl, rfl⟩
  | cons u qs ih =>
    obtain ⟨hu, hqs⟩ := List.forall_mem_cons.mp hqs
    obtain ⟨hinvalid, hvalid⟩ := List.forall_mem_cons.mp hvalid
    obtain ⟨r, hr⟩ := isQuantifier_iff.mp hu
    obtain ⟨hchain, htokens, hfindings⟩ := ih (q.fold r) hqs hvalid
    rw [List.cons_append, fold_next hinvalid hr, List.filterMap_cons_some (quantifier?_eq hr)]
    refine ⟨hchain, congrArg (List.cons _) htokens, congrArg (List.cons _) hfindings⟩

/-- Valid tokens are folded run by run, and all but the first token of a run are reported. -/
theorem fold_runs (ts : List Token) (hvalid : ∀ t ∈ ts, t.invalid = false) :
    (fold none ts).tokens = (runs ts).flatMap foldRun ∧
      (fold none ts).findings.map (·.pos) = ((runs ts).flatMap List.tail).map Token.pos := by
  induction ts using runs_induction with
  | nil => exact ⟨rfl, rfl⟩
  | other t ts ht ih =>
    obtain ⟨hinvalid, hvalid⟩ := List.forall_mem_cons.mp hvalid
    obtain ⟨htokens, hfindings⟩ := ih hvalid
    rw [fold_other none hinvalid ht, runs_cons_other ht]
    simp [Folded.restart, foldRun, ht, htokens, hfindings]
  | run t qs rest hqs hrest ih =>
    obtain ⟨hinvalid, hvalid⟩ := List.forall_mem_cons.mp hvalid
    obtain ⟨r, hr⟩ := isQuantifier_iff.mp (hqs t List.mem_cons_self)
    obtain ⟨hchain, htokens, hfindings⟩ :=
      fold_run r (fun u hu => hqs u (List.mem_cons_of_mem t hu)) hrest hvalid
    obtain ⟨htokens', hfindings'⟩ := ih fun u hu => hvalid u (List.mem_append_right qs hu)
    have hamount : (fold (some r) (qs ++ rest)).chain.getD r =
        .ofRun ((t :: qs).filterMap quantifier?) := by
      rw [hchain, Option.getD_some, Quantifier.foldl_fold,
        List.filterMap_cons_some (quantifier?_eq hr)]
    rw [fold_first hinvalid hr, hamount, runs_append hqs hrest, List.flatMap_cons,
      List.flatMap_cons, List.map_append, ← htokens', ← hfindings']
    refine ⟨?_, hfindings⟩
    simp [Folded.restart, foldRun, hqs, htokens]

end QuantifierChains

/-! ## Quantifiers of a source -/

namespace Analysis

open Diagnostic EmptyOperands QuantifierChains Token

theorem eq_of_dropped {source : List Char} {b : Analysis}
    (hb : (ofSource source).balanceGroups.dropEmptyOperands = some b) {k : Nat} {t u : Token}
    (ht : (ofSource source).tokens[k]? = some t) (hu : b.tokens[k]? = some u)
    (hvalid : u.invalid = false) : u = t := by
  obtain ⟨v, -, rfl⟩ := Option.map_eq_some_iff.mp hb
  have hbalances : Groups.Balances (ofSource source).tokens 0 (ofSource source).tokens
      (Groups.balance [] (ofSource source).tokens) :=
    Groups.balances_balance (Nat.zero_add _) rfl (.zero _) rfl
  obtain ⟨left, -, htokens, -⟩ := hbalances
  have hplace := getElem?_invalidate_balanced v.places (left.map closing) ht
  have hsame := hu.symm.trans ((congrArg (fun us => (invalidate v.places us)[k]?) htokens).trans
    hplace)
  obtain rfl := Option.some.inj hsame
  simp only [judge] at hvalid ⊢
  split_ifs at hvalid ⊢ <;> simp_all [Token.invalidate]

/-- Rows that agree place by place on what is filtered, and the one of which goes on with other
tokens. -/
theorem filter_eq_of_places {p q : Token → Bool} {ts us : List Token}
    (hsame : ∀ (k : Nat) (t u : Token), ts[k]? = some t → us[k]? = some u →
      p u = q t ∧ (p u = true → u = t))
    (hlength : ts.length ≤ us.length)
    (hrest : ∀ (k : Nat) (u : Token), us[k]? = some u → ts.length ≤ k → p u = false) :
    us.filter p = ts.filter q := by
  induction ts generalizing us with
  | nil =>
    refine List.filter_eq_nil_iff.mpr fun u hu => ?_
    obtain ⟨k, hk⟩ := List.getElem?_of_mem hu
    simp [hrest k u hk (Nat.zero_le k)]
  | cons t ts ih =>
    cases us with
    | nil => simp at hlength
    | cons u us =>
      obtain ⟨hp, heq⟩ := hsame 0 t u rfl rfl
      have htail : us.filter p = ts.filter q :=
        ih (fun k => hsame (k + 1)) (Nat.le_of_succ_le_succ hlength)
          fun k v hv hk => hrest (k + 1) v hv (Nat.succ_le_succ hk)
      cases hu : p u with
      | true =>
        obtain rfl := heq hu
        rw [List.filter_cons_of_pos hu, List.filter_cons_of_pos (hp ▸ hu), htail]
      | false =>
        rw [List.filter_cons_of_neg (by simp [hu]), List.filter_cons_of_neg (by simp [← hp, hu]),
          htail]

theorem quantifiers_dropped {source : List Char} {a b : Analysis}
    (hb : (ofSource source).balanceGroups.dropEmptyOperands = some b)
    (hsearched : Searched (ofSource source).tokens b.tokens)
    (hexact : Exact (ofSource source).tokens (Stands b.tokens) passCategories a.findings) :
    b.valid.filter (·.isQuantifier) = (ofSource source).tokens.filter fun t =>
      t.isQuantifier && decide (t.pos ∉ positionsOf .quantifierOfNothing a.report) := by
  have hts := nodup_positions source
  have hpositions := (hexact.positions hts (mem_passCategories .quantifierOfNothing)).2
  rw [valid, List.filter_filter]
  refine filter_eq_of_places (fun k t u ht hu => ?_) hsearched.length_le fun k u hu hk => ?_
  · have hpiece : u.piece = t.piece := by
      obtain ⟨w, hw, hsite⟩ := hsearched.site k t ht
      obtain rfl := Option.some.inj (hu.symm.trans hw)
      exact congrArg Prod.fst hsite
    have hreported : t.pos ∈ positionsOf .quantifierOfNothing a.report ↔
        Defect ((ofSource source).tokens.map Token.piece) (Stands b.tokens) k
          .quantifierOfNothing := by
      rw [report, positionsOf_report, hpositions]
      refine ⟨?_, fun hd => ⟨k, t, ht, rfl, hd⟩⟩
      rintro ⟨k', t', ht', hpos, hd⟩
      obtain rfl := place_unique hts ht' ht hpos
      exact hd
    have hquantifier : t.isQuantifier = u.isQuantifier := by
      rw [isQuantifier, isQuantifier, hpiece]
    rw [hquantifier]
    cases hq : u.isQuantifier with
    | false => simp
    | true =>
      have hat := (hsearched.quantifierAt_iff hu).mpr (isQuantifier_iff.mp hq)
      have hinvalid := hsearched.quantifiers k u hu hat
      refine ⟨?_, fun hvalid => eq_of_dropped hb ht hu (by simpa using hvalid)⟩
      simp only [Bool.true_and, hreported, Defect, hat, true_and, ← hinvalid]
      cases u.invalid <;> rfl
  · simp [isQuantifier, hsearched.added k u hu hk, Piece.isQuantifier]

/--
A quantifier that the search for empty operands does not report is left by it. Of the tokens that
are left, those that are no quantifiers stay as they are, and each maximal run of quantifiers is
folded: the first one becomes the quantifier that the run amounts to, and the others are ruled out.
Exactly these are reported as chains, at their own positions; the tokens that were ruled out before
are not changed. What a run amounts to does not depend on its order, and means for every language
what the quantifiers of the run mean one after the other.
-/
theorem quantifiers_fold (source : List Char) :
    ∃ b a, (ofSource source).balanceGroups.dropEmptyOperands = some b ∧
      (ofSource source).validate = some a ∧
      b.valid.filter (·.isQuantifier) = (ofSource source).tokens.filter (fun t =>
        t.isQuantifier && decide (t.pos ∉ positionsOf .quantifierOfNothing a.report)) ∧
      a.tokens.length = b.tokens.length ∧
      (∀ p ∈ b.tokens.zip a.tokens, p.1.invalid = true → p.2 = p.1) ∧
      ((b.tokens.zip a.tokens).filter (!·.1.invalid)).map Prod.snd =
        (runs b.valid).flatMap foldRun ∧
      positionsOf .quantifierChain a.report = ((runs b.valid).flatMap List.tail).map Token.pos ∧
      (∀ qs rs : List Quantifier, qs.Perm rs → Quantifier.ofRun qs = Quantifier.ofRun rs) ∧
      ∀ (α : Type) (L : Language α) (q : Quantifier) (qs : List Quantifier),
        (q :: qs).foldl (fun M r => r.apply M) L = (Quantifier.ofRun (q :: qs)).apply L := by
  obtain ⟨b, hb, hsearched, hexact, hfolded⟩ := exists_dropped source
  have hchains := exact_fold hsearched hfolded
  have hexact' : Exact (ofSource source).tokens (Stands b.tokens) passCategories
      b.foldQuantifiers.findings := hexact.append hchains (by decide)
  obtain ⟨-, htokens, hfindings⟩ := fold_valid none b.tokens
  obtain ⟨hruns, hpositions⟩ := fold_runs b.valid fun t ht => (mem_valid.mp ht).2
  refine ⟨b, b.foldQuantifiers, hb, congrArg (Option.map foldQuantifiers) hb,
    quantifiers_dropped hb hsearched hexact', ?_, eq_of_mem_zip_fold none b.tokens,
    htokens.trans hruns, ?_, fun _ _ => Quantifier.ofRun_perm, fun α => Quantifier.foldl_apply⟩
  · simpa [foldQuantifiers] using congrArg List.length hfolded.tokens
  · have hearlier : b.findings.filter (·.category = .quantifierChain) = [] := by
      refine List.filter_eq_nil_iff.mpr fun f hf heq => ?_
      have hmem := hexact.category_mem hf
      rw [of_decide_eq_true heq] at hmem
      exact absurd hmem (by decide)
    have hlater : (fold none b.tokens).findings.filter (·.category = .quantifierChain) =
        (fold none b.tokens).findings :=
      List.filter_eq_self.mpr fun f hf => by simpa using hchains.category_mem hf
    rw [report, positionsOf_report, ← hpositions, foldQuantifiers, findings_record,
      List.filter_append, hearlier, hlater, List.nil_append, hfindings, valid]

end Analysis
end RegexDiagram
