import Mathlib.Data.List.Perm.Basic
import RegexDiagram.Proofs.Defect
import RegexDiagram.Proofs.Forest
import RegexDiagram.Proofs.Survivors
import RegexDiagram.Proofs.Reading

/-!
Findings and the defects they report. A ledger says of each finding which token it is about, and
that the token has a defect of the category of the finding. Reading a source and balancing its
parentheses enter each defect of their categories once.
-/
namespace RegexDiagram

/-- What a token is and where it stands, whatever validation makes of it. -/
def Token.site (t : Token) : Piece × Nat × Nat := (t.piece, t.pos, t.index)

/-- A finding is about the token at a place. Of an empty group it also blames the opening
parenthesis. -/
inductive Finding.Reports (ts : List Token) (counts : Nat → Prop) : Finding → Nat → Prop
  | single {f : Finding} {k : Nat} {t : Token} (ht : ts[k]? = some t)
      (hd : Defect (ts.map Token.piece) counts k f.category) (hc : f.category ≠ .emptyGroup)
      (hpos : f.pos = t.pos) (hlexemes : f.lexemes = [t.index]) : Reports ts counts f k
  | pair {f : Finding} {i k : Nat} {o t : Token} (ht : ts[k]? = some t)
      (hd : Defect (ts.map Token.piece) counts k f.category) (hc : f.category = .emptyGroup)
      (hpos : f.pos = t.pos) (ho : ts[i]? = some o) (hm : Matched (ts.map Token.piece) i k)
      (hlexemes : f.lexemes = [t.index, o.index]) : Reports ts counts f k

theorem Finding.Reports.defect {ts : List Token} {counts : Nat → Prop} {f : Finding} {k : Nat}
    (h : f.Reports ts counts k) : Defect (ts.map Token.piece) counts k f.category := by
  cases h with
  | single _ hd => exact hd
  | pair _ hd => exact hd

theorem Finding.Reports.exists_token {ts : List Token} {counts : Nat → Prop} {f : Finding} {k : Nat}
    (h : f.Reports ts counts k) :
    ∃ t, ts[k]? = some t ∧ f.pos = t.pos ∧ f.lexemes.head? = some t.index := by
  cases h with
  | single ht _ _ hpos hlexemes => exact ⟨_, ht, hpos, by simp [hlexemes]⟩
  | pair ht _ _ hpos _ _ hlexemes => exact ⟨_, ht, hpos, by simp [hlexemes]⟩

theorem Token.site_judge (t : Token) (out : Bool) : (t.judge out).site = t.site := by
  cases out <;> rfl

/-- The findings are about the tokens at the places, one about each. -/
def Ledger (ts : List Token) (counts : Nat → Prop) (places : List Nat) (fs : List Finding) : Prop :=
  ∃ es : List (Nat × Finding), (es.map Prod.fst).Perm places ∧ es.map Prod.snd = fs ∧
    ∀ e ∈ es, e.2.Reports ts counts e.1

namespace Ledger

variable {ts us : List Token} {counts : Nat → Prop} {places places' : List Nat}
  {fs fs' : List Finding}

theorem nil (ts : List Token) (counts : Nat → Prop) : Ledger ts counts [] [] :=
  ⟨[], .nil, rfl, by simp⟩

theorem single {f : Finding} {k : Nat} (h : f.Reports ts counts k) : Ledger ts counts [k] [f] :=
  ⟨[(k, f)], .refl _, rfl, by simpa using h⟩

theorem append (h : Ledger ts counts places fs) (h' : Ledger ts counts places' fs') :
    Ledger ts counts (places ++ places') (fs ++ fs') := by
  obtain ⟨es, hplaces, rfl, hes⟩ := h
  obtain ⟨es', hplaces', rfl, hes'⟩ := h'
  exact ⟨es ++ es', by simpa using hplaces.append hplaces', by simp,
    List.forall_mem_append.mpr ⟨hes, hes'⟩⟩

theorem perm (h : Ledger ts counts places fs) (hp : places.Perm places') :
    Ledger ts counts places' fs := by
  obtain ⟨es, hplaces, hes⟩ := h
  exact ⟨es, hplaces.trans hp, hes⟩

end Ledger

open Classical in
/-- The places that have a defect of one of the categories. -/
noncomputable def due (ps : List Piece) (counts : Nat → Prop) (cs : List Category)
    (places : List Nat) : List Nat :=
  places.filter fun k => ∃ c ∈ cs, Defect ps counts k c

section Due

variable {ps : List Piece} {counts : Nat → Prop} {cs : List Category} {k : Nat}

theorem due_append (places places' : List Nat) :
    due ps counts cs (places ++ places') = due ps counts cs places ++ due ps counts cs places' :=
  List.filter_append ..

theorem due_cons (k : Nat) (places : List Nat) :
    due ps counts cs (k :: places) = due ps counts cs [k] ++ due ps counts cs places :=
  due_append [k] places

theorem due_of_defect {c : Category} (hc : c ∈ cs) (h : Defect ps counts k c) :
    due ps counts cs [k] = [k] := by
  classical exact List.filter_cons_of_pos (by simpa using ⟨c, hc, h⟩)

theorem due_of_not_defect (h : ∀ c ∈ cs, ¬Defect ps counts k c) : due ps counts cs [k] = [] := by
  classical exact List.filter_cons_of_neg (by simpa using h)

theorem mem_due_iff {places : List Nat} :
    k ∈ due ps counts cs places ↔ k ∈ places ∧ ∃ c ∈ cs, Defect ps counts k c := by
  classical simp [due]

theorem nodup_due {places : List Nat} (h : places.Nodup) : (due ps counts cs places).Nodup := by
  classical exact h.filter _

theorem due_perm {places places' : List Nat} (h : places.Perm places') :
    (due ps counts cs places).Perm (due ps counts cs places') := by
  classical exact h.filter _

end Due

theorem getElem?_of_drop {ts rest : List Token} {t : Token} {k : Nat} (h : ts.drop k = t :: rest) :
    ts[k]? = some t ∧ ts.drop (k + 1) = rest :=
  ⟨by rw [← List.head?_drop, h, List.head?_cons], by rw [← List.tail_drop, h, List.tail_cons]⟩

theorem drop_of_getElem? {α : Type} {xs : List α} {x : α} {k : Nat} (h : xs[k]? = some x) :
    xs.drop k = x :: xs.drop (k + 1) := by
  obtain ⟨hk, rfl⟩ := List.getElem?_eq_some_iff.mp h
  exact List.drop_eq_getElem_cons hk

theorem getElem?_piece {ts : List Token} {t : Token} {k : Nat} (h : ts[k]? = some t) :
    (ts.map Token.piece)[k]? = some t.piece := by
  rw [List.getElem?_map, h, Option.map_some]

theorem exists_token_of_piece {ts : List Token} {p : Piece} {k : Nat}
    (h : (ts.map Token.piece)[k]? = some p) : ∃ t, ts[k]? = some t ∧ t.piece = p := by
  rwa [List.getElem?_map, Option.map_eq_some_iff] at h

namespace Analysis

/-- The categories of what reading finds. -/
def readingCategories : List Category := [.openBracket, .danglingEscape]

theorem ledger_piece {ts : List Token} (counts : Nat → Prop) {p : Piece} {pos index k : Nat}
    (ht : ts[k]? = some (p.token pos index)) :
    Ledger ts counts (due (ts.map Token.piece) counts readingCategories [k])
      (p.findings pos index) := by
  have hp : (ts.map Token.piece)[k]? = some p := by simpa using getElem?_piece ht
  cases h : p.isUnfinished with
  | false =>
    rw [(Piece.findings_eq_nil_iff p pos index).mpr h, due_of_not_defect]
    · exact .nil ts counts
    · simp only [readingCategories, List.forall_mem_cons, Defect, hp]
      refine ⟨?_, ?_, by simp⟩
      · rintro ⟨b, hb, hopen⟩
        obtain rfl := Option.some.inj hb
        simp [Piece.isUnfinished, hopen] at h
      · rintro hb
        obtain rfl := Option.some.inj hb
        simp [Piece.isUnfinished] at h
  | true =>
    fun_cases Piece.isUnfinished p with
    | case1 =>
      rw [due_of_defect (c := .danglingEscape) (by simp [readingCategories]) hp]
      exact .single (.single ht hp (by simp) (by simp) (by simp))
    | case2 b =>
      have hopen : b.closed = false := by simpa [Piece.isUnfinished] using h
      have hd : Defect (ts.map Token.piece) counts k .openBracket := ⟨b, hp, hopen⟩
      rw [due_of_defect (c := .openBracket) (by simp [readingCategories]) hd, Piece.findings, hopen]
      exact .single (.single ht hd (by simp) (by simp) (by simp))
    | case3 => simp [Piece.isUnfinished] at h

theorem ledger_ofPieces {ts : List Token} (counts : Nat → Prop) (ps : List Piece)
    (pos index k : Nat) (hts : ts.drop k = (ofPieces pos index ps).tokens) :
    Ledger ts counts (due (ts.map Token.piece) counts readingCategories (List.range' k ps.length))
      (ofPieces pos index ps).findings := by
  induction ps generalizing pos index k with
  | nil => exact .nil ts counts
  | cons p ps ih =>
    have htokens : ts.drop k = p.token pos index ::
        (ofPieces (pos + p.text.length) (index + p.glyphs.length) ps).tokens := by
      simpa [ofPieces, Piece.analysis] using hts
    obtain ⟨ht, hrest⟩ := getElem?_of_drop htokens
    have hfindings : (p.analysis pos index).findings = p.findings pos index := by
      simp [Piece.analysis]
    rw [List.length_cons, List.range'_succ, due_cons, ofPieces, findings_append, hfindings]
    exact (ledger_piece counts ht).append (ih _ _ _ hrest)

end Analysis

namespace Groups

open Classical in
/-- The tokens from a place on as balancing leaves them: without closing parentheses that have no
opening one. -/
noncomputable def balanced (ps : List Piece) : Nat → List Token → List Token
  | _, [] => []
  | k, t :: ts => t.judge (Unopened ps k) :: balanced ps (k + 1) ts

section Balanced

variable {ps : List Piece} {k : Nat} {t : Token}

theorem balanced_of_unopened (h : Unopened ps k) (ts : List Token) :
    balanced ps k (t :: ts) = t.invalidate :: balanced ps (k + 1) ts := by
  simp [balanced, Token.judge, h]

theorem balanced_of_not_unopened (h : ¬Unopened ps k) (ts : List Token) :
    balanced ps k (t :: ts) = t :: balanced ps (k + 1) ts := by
  simp [balanced, Token.judge, h]

open Classical in
theorem getElem?_balanced (ts : List Token) (m : Nat) :
    (balanced ps k ts)[m]? = ts[m]?.map fun t => t.judge (Unopened ps (k + m)) := by
  induction ts generalizing k m with
  | nil => rfl
  | cons t ts ih =>
    cases m with
    | zero => rfl
    | succ m => simp [balanced, ih, Nat.add_assoc, Nat.add_comm 1]

@[simp] theorem length_balanced (ts : List Token) : (balanced ps k ts).length = ts.length := by
  induction ts generalizing k with
  | nil => rfl
  | cons t ts ih => simp [balanced, ih]

end Balanced

/-- What balancing makes of the tokens from a place on: the tokens that it leaves, closing
parentheses for the groups that are open at the end, and a finding about each parenthesis that it
rules out. -/
def Balances (ts : List Token) (k : Nat) (rest : List Token) (r : List Token × List Finding) :
    Prop :=
  ∃ (left : List Token) (stack : List Nat),
    r.1 = balanced (ts.map Token.piece) k rest ++ left.map Token.closing ∧
      Opened (ts.map Token.piece) ts.length stack ∧ left.length = stack.length ∧
      ∀ counts, Ledger ts counts (due (ts.map Token.piece) counts [.unopenedGroup]
        (List.range' k rest.length)) r.2

section Balances

variable {ts : List Token} {k : Nat} {t : Token} {rest : List Token}
  {r : List Token × List Finding}

theorem Balances.keep (h : Balances ts (k + 1) rest r)
    (hk : ¬Unopened (ts.map Token.piece) k) :
    Balances ts k (t :: rest) (r.map (t :: ·) id) := by
  obtain ⟨left, stack, htokens, hopened, hlength, hledger⟩ := h
  refine ⟨left, stack, ?_, hopened, hlength, fun counts => ?_⟩
  · rw [Prod.map_fst, htokens, balanced_of_not_unopened hk, List.cons_append]
  · rw [List.length_cons, List.range'_succ, due_cons,
      due_of_not_defect (by simpa [Defect] using hk)]
    exact hledger counts

theorem Balances.drop (h : Balances ts (k + 1) rest r)
    (hk : Unopened (ts.map Token.piece) k) (ht : ts[k]? = some t) :
    Balances ts k (t :: rest) (r.map (t.invalidate :: ·) (.unopened t :: ·)) := by
  obtain ⟨left, stack, htokens, hopened, hlength, hledger⟩ := h
  refine ⟨left, stack, ?_, hopened, hlength, fun counts => ?_⟩
  · rw [Prod.map_fst, htokens, balanced_of_unopened hk, List.cons_append]
  · rw [List.length_cons, List.range'_succ, due_cons,
      due_of_defect (c := .unopenedGroup) (by simp) hk]
    have hreports : (Finding.unopened t).Reports ts counts k :=
      .single ht hk (by simp [Finding.unopened]) rfl rfl
    exact (Ledger.single hreports).append (hledger counts)

end Balances

section Steps

variable {t : Token}

theorem balance_cons_of_rise (h : t.piece.rise = 0) (opened ts : List Token) :
    balance opened (t :: ts) = (balance opened ts).map (t :: ·) id := by
  cases hp : t.piece with
  | groupOpen => simp [hp, Piece.rise] at h
  | groupClose => simp [hp, Piece.rise] at h
  | _ => simp [balance, hp]

theorem balance_cons_of_open (h : t.piece = .groupOpen) (opened ts : List Token) :
    balance opened (t :: ts) = (balance (t :: opened) ts).map (t :: ·) id := by
  simp [balance, h]

theorem balance_cons_of_close (h : t.piece = .groupClose) (o : Token) (opened ts : List Token) :
    balance (o :: opened) (t :: ts) = (balance opened ts).map (t :: ·) id := by
  simp [balance, h]

theorem balance_cons_of_unopened (h : t.piece = .groupClose) (ts : List Token) :
    balance [] (t :: ts) = (balance [] ts).map (t.invalidate :: ·) (.unopened t :: ·) := by
  simp [balance, h]

end Steps

theorem balances_balance {ts rest opened : List Token}
    {k : Nat} {stack : List Nat} (hk : k + rest.length = ts.length) (hrest : ts.drop k = rest)
    (hopened : Opened (ts.map Token.piece) k stack) (hlength : opened.length = stack.length) :
    Balances ts k rest (balance opened rest) := by
  subst hrest
  have hle : k ≤ (ts.map Token.piece).length := by
    rw [List.length_map]
    omega
  refine Opened.walk (P := fun k stack => ∀ opened : List Token, opened.length = stack.length →
    Balances ts k (ts.drop k) (balance opened (ts.drop k)))
    ?ending ?other ?opening ?closing ?unmatched hle hopened opened hlength
  case ending =>
    intro stack hstack opened hlength
    rw [List.length_map, List.drop_length]
    exact ⟨opened, stack, rfl, by simpa using hstack, hlength, fun counts => .nil ts counts⟩
  case other =>
    intro k stack p hp hrise hk hnext opened hlength
    obtain ⟨t, ht, rfl⟩ := exists_token_of_piece hp
    rw [drop_of_getElem? ht, balance_cons_of_rise hrise]
    exact (hnext opened hlength).keep hk
  case opening =>
    intro k stack hp hk hnext opened hlength
    obtain ⟨t, ht, hpiece⟩ := exists_token_of_piece hp
    rw [drop_of_getElem? ht, balance_cons_of_open hpiece]
    exact (hnext (t :: opened) (by simpa using hlength)).keep hk
  case closing =>
    intro k i stack hp hmatched hnext opened hlength
    obtain ⟨t, ht, hpiece⟩ := exists_token_of_piece hp
    obtain ⟨o, opened, rfl⟩ := List.exists_cons_of_length_eq_add_one hlength
    rw [drop_of_getElem? ht, balance_cons_of_close hpiece]
    exact (hnext opened (by simpa using hlength)).keep hmatched.not_unopened
  case unmatched =>
    intro k hp hk hnext opened hlength
    obtain ⟨t, ht, hpiece⟩ := exists_token_of_piece hp
    obtain rfl := List.length_eq_zero_iff.mp hlength
    rw [drop_of_getElem? ht, balance_cons_of_unopened hpiece]
    exact (hnext [] rfl).drop hk ht

end Groups
end RegexDiagram
