import RegexDiagram.Proofs.Ledger
import RegexDiagram.Proofs.Order
import RegexDiagram.Proofs.Parentheses

/-!
Which parentheses belong together. A closing parenthesis closes the innermost of the groups that are
open, so a row is gone through with a stack of opening parentheses. Balancing pairs parentheses that
match in the source, and those without a match with parentheses that it adds. From then on tokens go
only by whole groups, so the pairs that are left are pairs from balancing: in the row of valid
tokens, in its syntax tree, and for the parentheses that match in it.
-/
namespace RegexDiagram

open List (Forall₂)

/-- Each closing parenthesis of a row is related to the parenthesis that it closes. Those that are
open in front of the row are `opened`, the innermost first. -/
inductive Pairs (R : Token → Token → Prop) : List Token → List Token → Prop
  | nil : Pairs R [] []
  | other {opened ts : List Token} {t : Token} (ho : ¬t.Opens) (hc : ¬t.Closes)
      (h : Pairs R opened ts) : Pairs R opened (t :: ts)
  | opening {opened ts : List Token} {t : Token} (ho : t.Opens) (h : Pairs R (t :: opened) ts) :
      Pairs R opened (t :: ts)
  | closing {opened ts : List Token} {o t : Token} (hc : t.Closes) (hr : R o t)
      (h : Pairs R opened ts) : Pairs R (o :: opened) (t :: ts)

theorem Token.Opens.not_closes {t : Token} (h : t.Opens) : ¬t.Closes := by
  rintro ⟨hc, -⟩
  rw [h.1] at hc
  cases hc

namespace Pairs

variable {R : Token → Token → Prop} {opened ts : List Token} {o t : Token}

theorem of_other (h : Pairs R opened (t :: ts)) (ho : ¬t.Opens) (hc : ¬t.Closes) :
    Pairs R opened ts := by
  cases h with
  | other _ _ h => exact h
  | opening ho' _ => exact absurd ho' ho
  | closing hc' _ _ => exact absurd hc' hc

theorem of_opening (h : Pairs R opened (t :: ts)) (ho : t.Opens) : Pairs R (t :: opened) ts := by
  cases h with
  | other ho' _ _ => exact absurd ho ho'
  | opening _ h => exact h
  | closing hc _ _ => exact absurd hc ho.not_closes

theorem of_closing (h : Pairs R (o :: opened) (t :: ts)) (hc : t.Closes) :
    R o t ∧ Pairs R opened ts := by
  cases h with
  | other _ hc' _ => exact absurd hc hc'
  | opening ho _ => exact absurd hc ho.not_closes
  | closing _ hr h => exact ⟨hr, h⟩

theorem of_closings (h : ∀ o ∈ opened, R o o.closing) :
    Pairs R opened (opened.map Token.closing) := by
  induction opened with
  | nil => exact .nil
  | cons o opened ih =>
    obtain ⟨ho, hopened⟩ := List.forall_mem_cons.mp h
    exact .closing o.closes_closing ho (ih hopened)

end Pairs

/-! ## Balancing -/

/-- An opening parenthesis of a row and what closes it: the parenthesis that matches it, or one that
has been added because there is none. -/
inductive Pair (ts : List Token) (o t : Token) : Prop
  | matched {i j : Nat} (ho : ts[i]? = some o) (ht : ts[j]? = some t)
      (h : Matched (ts.map Token.piece) i j)
  | added {i : Nat} (ho : ts[i]? = some o) (h : Unclosed (ts.map Token.piece) i)
      (ht : t = o.closing)

theorem Pair.mem_opening {ts : List Token} {o t : Token} (h : Pair ts o t) :
    o ∈ ts ∧ o.piece = .groupOpen := by
  cases h with
  | matched ho _ h =>
    exact ⟨List.mem_of_getElem? ho, Option.some.inj ((getElem?_piece ho).symm.trans h.opening)⟩
  | added ho h _ =>
    exact ⟨List.mem_of_getElem? ho, Option.some.inj ((getElem?_piece ho).symm.trans h.opening)⟩

theorem Pair.piece_closing {ts : List Token} {o t : Token} (h : Pair ts o t) :
    t.piece = .groupClose := by
  cases h with
  | matched _ ht h => exact Option.some.inj ((getElem?_piece ht).symm.trans h.closing)
  | added _ _ ht => rw [ht, Token.closing]

theorem Pair.exists_standing {ts : List Token} {o t : Token} (h : Pair ts o t) :
    ∃ u ∈ ts, u.index = t.index ∧ (u = t ∨ u = o ∧ t = o.closing) := by
  cases h with
  | matched _ ht h => exact ⟨t, List.mem_of_getElem? ht, rfl, .inl rfl⟩
  | added ho _ ht => exact ⟨o, List.mem_of_getElem? ho, by rw [ht, Token.closing], .inr ⟨rfl, ht⟩⟩

/-- The tokens at the places on a stack. -/
def At (ts : List Token) (stack : List Nat) (opened : List Token) : Prop :=
  Forall₂ (fun i o => ts[i]? = some o) stack opened

/-- Balancing goes through the tokens with the stack of the groups that are open. -/
theorem Groups.pairs_balance {ts rest opened : List Token} {stack : List Nat} {k : Nat}
    (hts : ∀ t ∈ ts, t.Unjudged) (hrest : ts.drop k = rest) (hk : k + rest.length = ts.length)
    (hopened : Opened (ts.map Token.piece) k stack) (hstack : At ts stack opened) :
    Pairs (Pair ts) opened (balance opened rest).1 := by
  subst hrest
  have hle : k ≤ (ts.map Token.piece).length := by
    rw [List.length_map]
    omega
  refine Opened.walk (P := fun k stack => ∀ opened, At ts stack opened →
    Pairs (Pair ts) opened (balance opened (ts.drop k)).1)
    ?ending ?other ?opening ?closing ?unmatched hle hopened opened hstack
  case ending =>
    intro stack hopened opened hstack
    rw [List.length_map, List.drop_length]
    refine Pairs.of_closings fun o ho => ?_
    obtain ⟨n, hn, rfl⟩ := List.getElem_of_mem ho
    have hn' : n < stack.length := hstack.length_eq ▸ hn
    exact .added (hstack.get hn' hn) (hopened.unclosed_iff.mp (List.getElem_mem hn')) rfl
  case other =>
    intro k stack p hp hrise hk hnext opened hstack
    obtain ⟨t, ht, rfl⟩ := exists_token_of_piece hp
    have hopens : ¬t.Opens := fun h => by simp [h.1, Piece.rise] at hrise
    have hcloses : ¬t.Closes := fun h => by simp [h.1, Piece.rise] at hrise
    rw [drop_of_getElem? ht, balance_cons_of_rise hrise]
    exact .other hopens hcloses (hnext opened hstack)
  case opening =>
    intro k stack hp hk hnext opened hstack
    obtain ⟨t, ht, hpiece⟩ := exists_token_of_piece hp
    have hvalid := hts t (List.mem_of_getElem? ht) (.inl hpiece)
    rw [drop_of_getElem? ht, balance_cons_of_open hpiece]
    exact .opening ⟨hpiece, hvalid⟩ (hnext (t :: opened) (.cons ht hstack))
  case closing =>
    intro k i stack hp hmatched hnext opened hstack
    obtain ⟨t, ht, hpiece⟩ := exists_token_of_piece hp
    have hvalid := hts t (List.mem_of_getElem? ht) (.inr hpiece)
    obtain ⟨o, opened, ho, hrest, rfl⟩ := List.forall₂_cons_left_iff.mp hstack
    rw [drop_of_getElem? ht, balance_cons_of_close hpiece]
    exact .closing ⟨hpiece, hvalid⟩ (.matched ho ht hmatched) (hnext opened hrest)
  case unmatched =>
    intro k hp hk hnext opened hstack
    obtain ⟨t, ht, hpiece⟩ := exists_token_of_piece hp
    obtain rfl := List.forall₂_nil_left_iff.mp hstack
    have hopens : ¬t.invalidate.Opens := fun h => by simp [Token.Opens, Token.invalidate] at h
    have hcloses : ¬t.invalidate.Closes := fun h => by simp [Token.Closes, Token.invalidate] at h
    rw [drop_of_getElem? ht, balance_cons_of_unopened hpiece]
    exact .other hopens hcloses (hnext [] .nil)

/-! ## What validation leaves -/

namespace Forest

variable {R : Token → Token → Prop} {opened rest : List Token}

/-- The parentheses of each group are related. -/
def Paired (R : Token → Token → Prop) : Forest → Prop
  | nil => True
  | leaf _ rest => rest.Paired R
  | group opening closing content rest => R opening closing ∧ content.Paired R ∧ rest.Paired R

theorem paired_of_pairs (f : Forest) (hf : f.Nested) (h : Pairs R opened (f.tokens ++ rest)) :
    f.Paired R ∧ Pairs R opened rest := by
  induction f generalizing opened rest with
  | nil => exact ⟨trivial, h⟩
  | leaf t more ih =>
    obtain ⟨ho, hc, hmore⟩ := hf
    exact ih hmore (h.of_other ho hc)
  | group opening closing content more ihc ihr =>
    obtain ⟨ho, hc, hcontent, hmore⟩ := hf
    rw [tokens, List.cons_append, List.append_assoc, List.cons_append] at h
    obtain ⟨hpaired, hafter⟩ := ihc hcontent (h.of_opening ho)
    obtain ⟨hr, hafter⟩ := hafter.of_closing hc
    obtain ⟨hpaired', hrest⟩ := ihr hmore hafter
    exact ⟨⟨hr, hpaired, hpaired'⟩, hrest⟩

theorem pairs_survivors (f : Forest) (hf : f.Nested) (hpaired : f.Paired R) (empty : Bool)
    (h : Pairs R opened rest) : Pairs R opened (f.survivors empty ++ rest) := by
  induction f generalizing empty opened rest with
  | nil => exact h
  | leaf t more ih =>
    obtain ⟨ho, hc, hmore⟩ := hf
    have hkept (empty : Bool) : Pairs R opened (t :: (more.survivors empty ++ rest)) :=
      .other ho hc (ih hmore hpaired empty h)
    by_cases ht : t.invalid = true
    · rw [survivors_leaf_of_invalid empty more ht]
      exact ih hmore hpaired empty h
    · have hvalid : t.invalid = false := by simpa using ht
      cases hp : t.piece with
      | value v =>
        rw [survivors_leaf_value empty more hp hvalid]
        exact hkept false
      | alternation =>
        rw [survivors_leaf_alternation empty more hp hvalid]
        split
        · exact ih hmore hpaired true h
        · exact hkept true
      | quantifier q =>
        rw [survivors_leaf_quantifier empty more hp hvalid]
        split
        · exact ih hmore hpaired empty h
        · exact hkept empty
      | groupOpen => exact absurd ⟨hp, hvalid⟩ ho
      | groupClose => exact absurd ⟨hp, hvalid⟩ hc
  | group opening closing content more ihc ihr =>
    obtain ⟨ho, hc, hcontent, hmore⟩ := hf
    obtain ⟨hr, hpaired, hpaired'⟩ := hpaired
    cases hvalue : content.hasValue with
    | true =>
      rw [survivors_group_of_hasValue empty more ho hc hvalue, List.cons_append,
        List.append_assoc, List.cons_append]
      exact .opening ho (ihc hcontent hpaired true (.closing hc hr (ihr hmore hpaired' false h)))
    | false =>
      rw [survivors_group_of_not_hasValue empty opening closing more hvalue, List.append_assoc]
      exact ihc hcontent hpaired true (ihr hmore hpaired' empty h)

end Forest

theorem QuantifierChains.pairs_folded {R : Token → Token → Prop} {opened ts : List Token}
    (h : Pairs R opened ts) (q : Option Quantifier) : Pairs R opened (folded q ts) := by
  induction h generalizing q with
  | nil => exact .nil
  | @other opened ts t ho hc _ ih =>
    by_cases ht : t.invalid = true
    · rw [folded_invalid q ht]
      exact ih q
    · have hvalid : t.invalid = false := by simpa using ht
      cases hp : t.piece with
      | quantifier r =>
        cases q with
        | none =>
          rw [folded_first hvalid hp]
          exact .other (fun h => by simp [Token.Opens] at h) (fun h => by simp [Token.Closes] at h)
            (ih (some r))
        | some q =>
          rw [folded_next hvalid hp]
          exact ih (some (q.fold r))
      | _ =>
        rw [folded_other q hvalid (by simp [Token.isQuantifier, Piece.isQuantifier, hp])]
        exact .other ho hc (ih none)
  | @opening opened ts t ho _ ih =>
    have hp : t.isQuantifier = false := by simp [Token.isQuantifier, Piece.isQuantifier, ho.1]
    rw [folded_other q ho.2 hp]
    exact .opening ho (ih none)
  | @closing opened ts o t hc hr _ ih =>
    have hp : t.isQuantifier = false := by simp [Token.isQuantifier, Piece.isQuantifier, hc.1]
    rw [folded_other q hc.2 hp]
    exact .closing hc hr (ih none)

/-- The parentheses that validation leaves are paired as they were by balancing. -/
theorem Analysis.pairs_valid {source : List Char} {a : Analysis}
    (ha : (ofSource source).validate = some a) :
    Pairs (Pair (ofSource source).tokens) [] a.valid := by
  have hunjudged := unjudged_ofPieces (Piece.readAll source) 0 0
  obtain ⟨f, htokens, hf⟩ := Groups.exists_forest (ofSource source).tokens hunjudged
  have hbalanced := Groups.pairs_balance hunjudged (List.drop_zero (l := (ofSource source).tokens))
    (Nat.zero_add _) (.zero _) .nil
  rw [htokens, ← List.append_nil f.tokens] at hbalanced
  obtain ⟨hpaired, -⟩ := f.paired_of_pairs hf hbalanced
  rw [validate, dropEmptyOperands_of_nested _ f hf htokens, Option.map_some] at ha
  obtain rfl := Option.some.inj ha
  change Pairs _ [] (QuantifierChains.folded none (f.judged true))
  rw [(QuantifierChains.folded_valid none (f.judged true)).2]
  have hsurvivors := f.pairs_survivors hf hpaired true Pairs.nil
  rw [List.append_nil] at hsurvivors
  exact QuantifierChains.pairs_folded hsurvivors none

/-! ## What the pairs are -/

theorem Pairs.exists_matched {R : Token → Token → Prop} {ts rest opened : List Token}
    {stack : List Nat} {j k : Nat} {t : Token} (h : Pairs R opened rest) (hrest : ts.drop k = rest)
    (hopened : Opened (ts.map Token.piece) k stack) (hstack : At ts stack opened)
    (hvalid : ∀ u ∈ ts, u.invalid = false) (hkj : k ≤ j) (ht : ts[j]? = some t)
    (hclose : t.piece = .groupClose) :
    ∃ i o, Matched (ts.map Token.piece) i j ∧ ts[i]? = some o ∧ R o t := by
  induction h generalizing k stack with
  | nil =>
    have hlt := (List.getElem?_eq_some_iff.mp ht).1
    rw [List.drop_eq_nil_iff] at hrest
    omega
  | @other opened rest u hopens hcloses _ ih =>
    obtain ⟨hu, hrest⟩ := getElem?_of_drop hrest
    have huvalid := hvalid u (List.mem_of_getElem? hu)
    have hne : k ≠ j := by
      rintro rfl
      obtain rfl := Option.some.inj (hu.symm.trans ht)
      exact hcloses ⟨hclose, huvalid⟩
    have hrise : u.piece.rise = 0 :=
      Piece.rise_of_ne (fun hp => hopens ⟨hp, huvalid⟩) fun hp => hcloses ⟨hp, huvalid⟩
    exact ih hrest (hopened.other (getElem?_piece hu) hrise) hstack (by omega)
  | @opening opened rest u hopens _ ih =>
    obtain ⟨hu, hrest⟩ := getElem?_of_drop hrest
    have hne : k ≠ j := by
      rintro rfl
      obtain rfl := Option.some.inj (hu.symm.trans ht)
      exact hopens.not_closes ⟨hclose, hopens.2⟩
    exact ih hrest (hopened.opening (hopens.1 ▸ getElem?_piece hu)) (.cons hu hstack) (by omega)
  | @closing opened rest o u hcloses hr _ ih =>
    obtain ⟨hu, hrest⟩ := getElem?_of_drop hrest
    have hpiece : (ts.map Token.piece)[k]? = some .groupClose := hcloses.1 ▸ getElem?_piece hu
    cases hstack with
    | @cons i _ _ _ ho hstack =>
      by_cases hkj' : k = j
      · subst hkj'
        obtain rfl := Option.some.inj (hu.symm.trans ht)
        exact ⟨i, o, hopened.matched hpiece, ho, hr⟩
      · exact ih hrest (hopened.closing hpiece) hstack (by omega)

namespace Tree

variable {l : Precedence} {R : Token → Token → Prop} {opened rest : List Token}

/-- The parentheses of the groups of a tree. -/
def groups : {l : Precedence} → Tree l → List (Token × Token)
  | _, value _ _ _ => []
  | _, group opening closing _ _ body => body.groups ++ [(opening, closing)]
  | _, quantified a _ _ _ _ => a.groups
  | _, concat f g _ => f.groups ++ g.groups
  | _, alternation e _ _ g => e.groups ++ g.groups

theorem extents_eq (t : Tree l) : t.extents = t.groups.map fun g => ⟨g.1.index, g.2.index⟩ := by
  induction t with
  | value tok v hv => rfl
  | group opening closing ho hc body ih => simp [extents, groups, ih]
  | quantified a tok q hq hl ih => exact ih
  | concat f g hl ihf ihg => simp [extents, groups, ihf, ihg]
  | alternation e tok ht g ihe ihg => simp [extents, groups, ihe, ihg]

theorem exists_group (t : Tree l) {u : Token} (hu : u ∈ t.tokens)
    (hp : u.piece = .groupOpen ∨ u.piece = .groupClose) : ∃ g ∈ t.groups, u = g.1 ∨ u = g.2 := by
  induction t with
  | value tok v hv =>
    obtain rfl := List.mem_singleton.mp hu
    simp [hv] at hp
  | group opening closing ho hc body ih =>
    simp only [tokens, List.mem_cons, List.mem_append, List.not_mem_nil, or_false] at hu
    rcases hu with rfl | hu | rfl
    · exact ⟨_, List.mem_append_right _ (List.mem_singleton_self _), .inl rfl⟩
    · obtain ⟨g, hg, heq⟩ := ih hu
      exact ⟨g, List.mem_append_left _ hg, heq⟩
    · exact ⟨_, List.mem_append_right _ (List.mem_singleton_self _), .inr rfl⟩
  | quantified a tok q hq hl ih =>
    rcases List.mem_append.mp hu with hu | hu
    · exact ih hu
    · obtain rfl := List.mem_singleton.mp hu
      simp [hq] at hp
  | concat f g hl ihf ihg =>
    rcases List.mem_append.mp hu with hu | hu
    · obtain ⟨x, hx, heq⟩ := ihf hu
      exact ⟨x, List.mem_append_left _ hx, heq⟩
    · obtain ⟨x, hx, heq⟩ := ihg hu
      exact ⟨x, List.mem_append_right _ hx, heq⟩
  | alternation e tok ht g ihe ihg =>
    rcases List.mem_append.mp hu with hu | hu
    · obtain ⟨x, hx, heq⟩ := ihe hu
      exact ⟨x, List.mem_append_left _ hx, heq⟩
    · rcases List.mem_cons.mp hu with rfl | hu
      · simp [ht] at hp
      · obtain ⟨x, hx, heq⟩ := ihg hu
        exact ⟨x, List.mem_append_right _ hx, heq⟩

theorem related_groups (t : Tree l) (hvalid : ∀ tok ∈ t.tokens, tok.invalid = false)
    (h : Pairs R opened (t.tokens ++ rest)) :
    (∀ g ∈ t.groups, R g.1 g.2) ∧ Pairs R opened rest := by
  have hother {tok : Token} {rest opened : List Token} (h : Pairs R opened (tok :: rest))
      (ho : tok.piece ≠ .groupOpen) (hc : tok.piece ≠ .groupClose) : Pairs R opened rest :=
    h.of_other (fun h' => ho h'.1) fun h' => hc h'.1
  induction t generalizing opened rest with
  | value tok v hv => exact ⟨by simp [groups], hother h (by simp [hv]) (by simp [hv])⟩
  | group opening closing ho hc body ih =>
    simp only [tokens, List.forall_mem_cons, List.forall_mem_append] at hvalid
    obtain ⟨hopen, hbody, hclose, -⟩ := hvalid
    simp only [tokens, List.cons_append, List.append_assoc, List.nil_append] at h
    obtain ⟨hgroups, hafter⟩ := ih hbody (h.of_opening ⟨ho, hopen⟩)
    obtain ⟨hr, hrest⟩ := hafter.of_closing ⟨hc, hclose⟩
    exact ⟨List.forall_mem_append.mpr ⟨hgroups, by simpa using hr⟩, hrest⟩
  | quantified a tok q hq hl ih =>
    simp only [tokens, List.forall_mem_append] at hvalid
    rw [tokens, List.append_assoc] at h
    obtain ⟨hgroups, hafter⟩ := ih hvalid.1 h
    exact ⟨hgroups, hother hafter (by simp [hq]) (by simp [hq])⟩
  | concat f g hl ihf ihg =>
    simp only [tokens, List.forall_mem_append] at hvalid
    rw [tokens, List.append_assoc] at h
    obtain ⟨hgroups, hafter⟩ := ihf hvalid.1 h
    obtain ⟨hgroups', hrest⟩ := ihg hvalid.2 hafter
    exact ⟨List.forall_mem_append.mpr ⟨hgroups, hgroups'⟩, hrest⟩
  | alternation e tok ht g ihe ihg =>
    simp only [tokens, List.forall_mem_append, List.forall_mem_cons] at hvalid
    rw [tokens, List.append_assoc] at h
    obtain ⟨hgroups, hafter⟩ := ihe hvalid.1 h
    obtain ⟨hgroups', hrest⟩ := ihg hvalid.2.2 (hother hafter (by simp [ht]) (by simp [ht]))
    exact ⟨List.forall_mem_append.mpr ⟨hgroups, hgroups'⟩, hrest⟩

end Tree
end RegexDiagram
