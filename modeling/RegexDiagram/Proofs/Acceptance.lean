import RegexDiagram.Proofs.Grammar
import RegexDiagram.Proofs.Reading

/-!
Which regexes validation accepts. A pass that has nothing to report leaves the tokens as they are,
and tokens that are well formed already give it nothing to report.
-/
namespace RegexDiagram

namespace Groups

/-- If no parenthesis is ruled out, the tokens stay, and missing parentheses are added. -/
theorem balance_of_silent {opened ts : List Token} (h : (balance opened ts).2 = []) :
    ∃ left : List Token, (balance opened ts).1 = ts ++ left.map Token.closing := by
  fun_induction balance opened ts with
  | case1 opened => exact ⟨opened, rfl⟩
  | case3 => simp at h
  | _ =>
    rename_i ih
    obtain ⟨left, heq⟩ := ih h
    exact ⟨left, by simp [heq]⟩

/-- Balancing goes through well formed tokens without a change. -/
theorem balance_follows {chains : Bool} {p : Phase} {ts : List Token} (h : Follows chains p ts)
    (opened rest : List Token) :
    balance opened (ts ++ rest) = (ts ++ (balance opened rest).1, (balance opened rest).2) := by
  induction h generalizing opened rest with
  | nil => rfl
  | value hv _ _ ih => simp [balance, hv, ih]
  | group ho hc _ _ ihc ih => simp [balance, ho.1, hc.1, ihc, ih]
  | alternation _ ha _ _ ih => simp [balance, ha, ih]
  | quantifier _ hq _ _ ih => simp [balance, hq, ih]

end Groups

namespace EmptyOperands

/-- Nothing is ruled out without being reported. -/
def Verdict.Backed (v : Verdict) : Prop := v.findings = [] → v.places = []

theorem Verdict.Backed.append {v w : Verdict} (hv : v.Backed) (hw : w.Backed) : (v ++ w).Backed := by
  intro h
  obtain ⟨h₁, h₂⟩ := List.append_eq_nil_iff.mp h
  rw [places_append, hv h₁, hw h₂, List.append_nil]

theorem Level.backed_ending (l : Level) : l.ending.Backed := by
  intro h
  cases ha : l.alternation with
  | none => simp [ending, ha]
  | some a => cases he : l.termEmpty <;> simp [ending, ha, he] at h ⊢

theorem Level.backed_see (l : Level) (p : Placed) : (l.see p).2.Backed := by
  intro h
  by_cases hv : p.token.invalid
  · simp [see, hv]
  · cases hp : p.token.piece with
    | alternation => cases he : l.termEmpty <;> simp [see, hv, hp, he] at h ⊢
    | quantifier q => cases he : l.termEmpty <;> simp [see, hv, hp, he] at h ⊢
    | _ => simp [see, hv, hp]

theorem Group.backed_verdict (g : Group) (content : Level) (p : Placed) :
    (g.verdict content p).Backed := by
  intro h
  cases he : content.exprEmpty <;> cases ha : p.token.added <;> simp [verdict, he, ha] at h ⊢

theorem Group.added_eq_false {g : Group} {content : Level} {p : Placed}
    (h : (g.verdict content p).findings = []) : p.token.added = false := by
  cases ha : p.token.added with
  | false => rfl
  | true => cases he : content.exprEmpty <;> simp [verdict, he, ha] at h

theorem Search.backed_step {s : Search} {p : Placed} {r : Search × Verdict}
    (h : s.step p = some r) :
    r.2.Backed ∧ (r.2.findings = [] → p.token.Closes → p.token.added = false) := by
  by_cases hc : p.token.Closes
  · obtain ⟨l, gs⟩ := s
    cases gs with
    | nil => simp [Search.step, hc.1, hc.2] at h
    | cons g gs =>
      rw [step_closes l g gs hc] at h
      obtain rfl := Option.some.inj h
      refine ⟨(g.backed_verdict l p).append l.backed_ending, fun hr _ => ?_⟩
      exact Group.added_eq_false (List.append_eq_nil_iff.mp hr).1
  · by_cases ho : p.token.Opens
    · rw [step_opens s ho] at h
      obtain rfl := Option.some.inj h
      exact ⟨fun _ => rfl, fun _ hcloses => absurd hcloses hc⟩
    · rw [step_leaf s ho hc] at h
      obtain rfl := Option.some.inj h
      exact ⟨s.level.backed_see p, fun _ hcloses => absurd hcloses hc⟩

theorem Search.silent_run {ts : List Token} {s : Search} {place : Nat} {v : Verdict}
    (h : s.run place ts = some v) (hv : v.findings = []) :
    v.places = [] ∧ ∀ t ∈ ts, t.Closes → t.added = false := by
  induction ts generalizing s place v with
  | nil =>
    obtain rfl := Option.some.inj h
    exact ⟨s.level.backed_ending hv, by simp⟩
  | cons t ts ih =>
    simp only [Search.run, Option.bind_eq_some_iff, Option.map_eq_some_iff] at h
    obtain ⟨r, hr, w, hw, rfl⟩ := h
    obtain ⟨hfirst, hrest⟩ := List.append_eq_nil_iff.mp hv
    obtain ⟨hbacked, hadded⟩ := backed_step hr
    obtain ⟨hplaces, hts⟩ := ih hw hrest
    refine ⟨?_, List.forall_mem_cons.mpr ⟨hadded hfirst, hts⟩⟩
    rw [places_append, hbacked hfirst, hplaces, List.append_nil]

theorem invalidate_nil (ts : List Token) : invalidate [] ts = ts := by
  refine List.ext_getElem (by simp [invalidate]) fun i _ _ => ?_
  simp [invalidate]

/-- A level has a value in its current alternative. -/
def Level.HasValue (l : Level) : Prop := l.termEmpty = false ∧ l.exprEmpty = false

theorem Level.HasValue.ending {l : Level} (h : l.HasValue) : l.ending = {} := by
  cases ha : l.alternation <;> simp [Level.ending, ha, h.1]

theorem Level.HasValue.verdict {l : Level} (h : l.HasValue) (g : Group) {p : Placed}
    (hp : p.token.added = false) : g.verdict l p = {} := by
  simp [Group.verdict, h.2, hp]

theorem Level.HasValue.resume {l : Level} (h : l.HasValue) (g : Group) : (g.resume l).HasValue := by
  simp [HasValue, Group.resume, h.2]

theorem Search.run_of_step {s s' : Search} {place : Nat} {t : Token} (ts : List Token)
    (h : s.step ⟨place, t⟩ = some (s', {})) : s.run place (t :: ts) = s'.run (place + 1) ts := by
  simp only [run, h, Option.bind_some, empty_append, Option.map_id']

/-- The search goes through well formed tokens without a verdict. -/
theorem run_follows {chains : Bool} {p : Phase} {ts : List Token} (h : Follows chains p ts)
    (hadded : ∀ t ∈ ts, t.added = false) (l : Level) (hl : p ≠ .start → l.HasValue)
    (gs : List Group) (place : Nat) (rest : List Token) :
    ∃ l' : Level, l'.HasValue ∧
      Search.run ⟨l, gs⟩ place (ts ++ rest) = Search.run ⟨l', gs⟩ (place + ts.length) rest := by
  induction h generalizing l gs place rest with
  | nil hp => exact ⟨l, hl hp, rfl⟩
  | @value p t v ts hv ht _ ih =>
    have hstep : Search.step ⟨l, gs⟩ ⟨place, t⟩ =
        some (⟨{ l with termEmpty := false, exprEmpty := false }, gs⟩, {}) := by
      simp [Search.step, ht, hv]
    obtain ⟨l', hl', heq⟩ := ih (List.forall_mem_cons.mp hadded).2
      { l with termEmpty := false, exprEmpty := false } (fun _ => ⟨rfl, rfl⟩) gs (place + 1) rest
    refine ⟨l', hl', ?_⟩
    rw [List.cons_append, Search.run_of_step _ hstep, heq, List.length_cons, Nat.add_right_comm,
      Nat.add_assoc]
  | @group p opening closing content ts ho hc _ _ ihc ih =>
    simp only [List.forall_mem_cons, List.forall_mem_append] at hadded
    obtain ⟨-, hcontent, hclosing, hts⟩ := hadded
    have hopen := step_opens ⟨l, gs⟩ (p := ⟨place, opening⟩) ho
    obtain ⟨inner, hinner, hbody⟩ := ihc hcontent {} (by simp) (⟨⟨place, opening⟩, l⟩ :: gs)
      (place + 1) (closing :: (ts ++ rest))
    have hclose := step_closes inner ⟨⟨place, opening⟩, l⟩ gs
      (p := ⟨place + 1 + content.length, closing⟩) hc
    rw [hinner.verdict _ hclosing, hinner.ending] at hclose
    obtain ⟨l', hl', heq⟩ := ih hts _ (fun _ => hinner.resume ⟨⟨place, opening⟩, l⟩) gs
      (place + 1 + content.length + 1) rest
    refine ⟨l', hl', ?_⟩
    rw [List.cons_append, Search.run_of_step _ hopen, List.append_assoc, List.cons_append, hbody,
      Search.run_of_step _ hclose, heq]
    congr 1
    simp only [List.length_cons, List.length_append]
    omega
  | @alternation p t ts hp ha ht _ ih =>
    have hstep : Search.step ⟨l, gs⟩ ⟨place, t⟩ =
        some (⟨{ l with termEmpty := true, alternation := some ⟨place, t⟩ }, gs⟩, {}) := by
      simp [Search.step, ht, ha, (hl hp).1]
    obtain ⟨l', hl', heq⟩ := ih (List.forall_mem_cons.mp hadded).2 _ (by simp) gs (place + 1) rest
    refine ⟨l', hl', ?_⟩
    rw [List.cons_append, Search.run_of_step _ hstep, heq, List.length_cons, Nat.add_right_comm,
      Nat.add_assoc]
  | @quantifier p t q ts hp hq ht _ ih =>
    have hvalue : l.HasValue := hl (by rintro rfl; simp at hp)
    have hstep : Search.step ⟨l, gs⟩ ⟨place, t⟩ = some (⟨l, gs⟩, {}) := by
      simp [Search.step, ht, hq, hvalue.1]
    obtain ⟨l', hl', heq⟩ := ih (List.forall_mem_cons.mp hadded).2 l (fun _ => hvalue) gs
      (place + 1) rest
    refine ⟨l', hl', ?_⟩
    rw [List.cons_append, Search.run_of_step _ hstep, heq, List.length_cons, Nat.add_right_comm,
      Nat.add_assoc]

end EmptyOperands

namespace QuantifierChains

theorem fold_of_silent {q : Option Quantifier} {ts : List Token} (h : (fold q ts).findings = []) :
    fold q ts = ⟨q, ts, []⟩ := by
  fun_induction fold q ts with
  | case1 => rfl
  | case2 q t ts ht ih => rw [ih h, Folded.cons]
  | case3 => simp at h
  | case4 t ts ht r hr rest ih =>
    have hsame : ({ t with piece := .quantifier r } : Token) = t := by rw [← hr]
    have hrest : rest = ⟨some r, ts, []⟩ := ih h
    simp only [hrest, Option.getD_some, hsame, Folded.restart]
  | case5 =>
    rename_i ih
    rw [ih h, Folded.restart]

theorem fold_follows {p : Phase} {ts : List Token} (h : Follows false p ts) (q : Option Quantifier)
    (hq : q.isSome ↔ p = .quantified) (rest : List Token)
    (hrest : ∀ q, fold q rest = ⟨q, rest, []⟩) : fold q (ts ++ rest) = ⟨q, ts ++ rest, []⟩ := by
  have restart (q : Option Quantifier) {t : Token} {ts : List Token} (ht : t.invalid = false)
      (hp : t.isQuantifier = false) (h : fold none ts = ⟨none, ts, []⟩) :
      fold q (t :: ts) = ⟨q, t :: ts, []⟩ := by
    rw [fold_other q ht hp, h]
    rfl
  induction h generalizing q rest with
  | nil => exact hrest q
  | value hv ht _ ih =>
    exact restart q ht (by simp [Token.isQuantifier, Piece.isQuantifier, hv])
      (ih none (by simp) rest hrest)
  | @group p opening closing content ts ho hc _ _ ihc ih =>
    have hclose (q : Option Quantifier) : fold q (closing :: (ts ++ rest)) =
        ⟨q, closing :: (ts ++ rest), []⟩ :=
      restart q hc.2 (by simp [Token.isQuantifier, Piece.isQuantifier, hc.1])
        (ih none (by simp) rest hrest)
    rw [List.cons_append, List.append_assoc, List.cons_append]
    exact restart q ho.2 (by simp [Token.isQuantifier, Piece.isQuantifier, ho.1])
      (ihc none (by simp) _ hclose)
  | alternation _ ha ht _ ih =>
    exact restart q ht (by simp [Token.isQuantifier, Piece.isQuantifier, ha])
      (ih none (by simp) rest hrest)
  | @quantifier p t r ts hp hr ht _ ih =>
    obtain rfl : p = .atom := by simpa using hp
    obtain rfl : q = none := by simpa using hq
    have hsame : ({ t with piece := .quantifier r } : Token) = t := by rw [← hr]
    rw [List.cons_append, fold_first ht hr, ih (some r) (by simp) rest hrest]
    simp only [Option.getD_some, hsame, Folded.restart]

end QuantifierChains

namespace Analysis

theorem record_nil (a : Analysis) : a.record [] = a := by
  simp [record, Lexeme.markInvalid]

/-- Passes that change nothing are no validation. -/
theorem validate_of_unchanged {a : Analysis} (hbalance : Groups.balance [] a.tokens = (a.tokens, []))
    (hsearch : EmptyOperands.Search.run {} 0 a.tokens = some {})
    (hfold : QuantifierChains.fold none a.tokens = ⟨none, a.tokens, []⟩) : a.validate = some a := by
  have hgroups : a.balanceGroups = a := by
    simp only [balanceGroups, hbalance, record_nil]
  have hdrop : a.dropEmptyOperands = some a := by
    simp only [dropEmptyOperands, hsearch, Option.map_some, EmptyOperands.invalidate_nil,
      record_nil]
  simp only [validate, hgroups, hdrop, Option.map_some, foldQuantifiers, hfold, record_nil]

theorem validate_of_derives {a : Analysis}
    (h : a.tokens = [] ∨ Derives .expr (a.tokens.map Token.piece))
    (hvalid : ∀ t ∈ a.tokens, t.invalid = false) (hadded : ∀ t ∈ a.tokens, t.added = false) :
    a.validate = some a := by
  rcases h with h | h
  · apply validate_of_unchanged <;> rw [h] <;> rfl
  · have hfollows := h.follows_start hvalid
    apply validate_of_unchanged
    · simpa [Groups.balance] using Groups.balance_follows hfollows [] []
    · obtain ⟨l, hl, hrun⟩ := EmptyOperands.run_follows hfollows hadded {} (by simp) [] 0 []
      rw [List.append_nil] at hrun
      rw [hrun, EmptyOperands.Search.run, hl.ending]
    · simpa using QuantifierChains.fold_follows hfollows none (by simp) [] fun q => rfl

theorem tokens_of_silent {a b : Analysis} (h : a.validate = some b) (hb : b.findings = []) :
    a.findings = [] ∧ b.tokens = a.tokens := by
  obtain ⟨c, hc, rfl⟩ := Option.map_eq_some_iff.mp h
  obtain ⟨v, hv, rfl⟩ := Option.map_eq_some_iff.mp hc
  simp only [foldQuantifiers, balanceGroups, findings_record, tokens_record,
    List.append_eq_nil_iff] at hb hv ⊢
  obtain ⟨⟨⟨ha, hbalance⟩, hsearch⟩, hfold⟩ := hb
  obtain ⟨left, htokens⟩ := Groups.balance_of_silent hbalance
  obtain ⟨hplaces, hadded⟩ := EmptyOperands.Search.silent_run hv hsearch
  have hleft : left = [] := by
    cases left with
    | nil => rfl
    | cons o left =>
      have hclosing := hadded o.closing (by simp [htokens]) o.closes_closing
      simp [Token.closing] at hclosing
  refine ⟨ha, ?_⟩
  rw [QuantifierChains.fold_of_silent hfold, hplaces, EmptyOperands.invalidate_nil, htokens, hleft,
    List.map_nil, List.append_nil]

end Analysis

end RegexDiagram
