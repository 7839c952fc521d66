import Mathlib.Data.List.Forall2
import RegexDiagram.Service
import RegexDiagram.Proofs.Depth
import RegexDiagram.Proofs.Overflow
import RegexDiagram.Proofs.Protocol

/-!
Reading the parameters of a request. Whatever is read is either usable, or the request is rejected,
with two exceptions: a body that is nested too deep and a number that is too large to be made whole
are neither. Which of the three it is can be told from the parameters, and so from what is read one
after the other.
-/
namespace RegexDiagram.Service

open Automaton

section Settles

variable {α β : Type} {e : Except Failure α} {f : α → Except Failure β} {usable usable' : α → Prop}
  {usableNext : α → β → Prop} {fails fails' : Prop} {failsNext : α → Prop}

/-- In front of some item that `meets` all items are such as they should be. -/
def ComesTo (should meets : α → Prop) (as : List α) : Prop :=
  ∃ before a behind, as = before ++ a :: behind ∧ (∀ b ∈ before, should b) ∧ meets a

theorem comesTo_cons {should meets : α → Prop} {a : α} {as : List α} :
    ComesTo should meets (a :: as) ↔ meets a ∨ should a ∧ ComesTo should meets as := by
  constructor
  · intro h
    obtain ⟨before, b, behind, has, hbefore, hb⟩ := h
    cases before with
    | nil =>
      obtain ⟨rfl, -⟩ := List.cons.inj has
      exact .inl hb
    | cons c before =>
      obtain ⟨rfl, rfl⟩ := List.cons.inj has
      obtain ⟨hc, hbefore⟩ := List.forall_mem_cons.mp hbefore
      exact .inr ⟨hc, before, b, behind, rfl, hbefore, hb⟩
  · intro h
    rcases h with hmeets | ⟨ha, before, b, behind, rfl, hbefore, hb⟩
    · exact ⟨[], a, as, rfl, by simp, hmeets⟩
    · exact ⟨a :: before, b, behind, rfl, List.forall_mem_cons.mpr ⟨ha, hbefore⟩, hb⟩

/-- What comes of reading: the values that are usable, an internal failure where it fails, and
otherwise a rejection. -/
structure Settles (e : Except Failure α) (usable : α → Prop) (fails : Prop) : Prop where
  ok_iff : ∀ a, e = .ok a ↔ usable a
  failed_iff : (∃ message, e = .error (.internal message)) ↔ fails

namespace Settles

theorem ok (a : α) : Settles (.ok a) (· = a) False where
  ok_iff b := by simp [eq_comm]
  failed_iff := by simp

theorem rejected (r : Rejection) : Settles (.error (.rejected r) : Except Failure α)
    (fun _ => False) False where
  ok_iff a := by simp
  failed_iff := by simp

theorem internal (message : String) : Settles (.error (.internal message) : Except Failure α)
    (fun _ => False) True where
  ok_iff a := by simp
  failed_iff := by simp

theorem congr (h : Settles e usable fails) (husable : ∀ a, usable a ↔ usable' a)
    (hfails : fails ↔ fails') : Settles e usable' fails' where
  ok_iff a := (h.ok_iff a).trans (husable a)
  failed_iff := h.failed_iff.trans hfails

theorem bind (h : Settles e usable fails)
    (hf : ∀ a, usable a → Settles (f a) (usableNext a) (failsNext a)) :
    Settles (e.bind f) (fun b => ∃ a, usable a ∧ usableNext a b)
      (fails ∨ ∃ a, usable a ∧ failsNext a) := by
  cases he : e with
  | ok a =>
    have ha := (h.ok_iff a).mp he
    have hunique (a' : α) : usable a' ↔ a' = a := by
      rw [← h.ok_iff a', he, Except.ok.injEq, eq_comm]
    have hfails : ¬fails := by
      rw [← h.failed_iff, he]
      simp
    simp only [hunique, exists_eq_left, hfails, false_or]
    exact hf a ha
  | error g =>
    have hnone (a : α) : ¬usable a := by
      rw [← h.ok_iff a, he]
      simp
    simp only [hnone, false_and, exists_false, or_false]
    constructor
    · simp [Except.bind]
    · rw [← h.failed_iff, he]
      simp [Except.bind]

theorem mapM {usable : α → β → Prop} {fails : α → Prop}
    (h : ∀ a, Settles (f a) (usable a) (fails a)) (as : List α) :
    Settles (as.mapM f) (List.Forall₂ usable as)
      (ComesTo (fun a => ∃ b, usable a b) fails as) := by
  induction as with
  | nil => exact (ok []).congr (by simp) (by simp [ComesTo])
  | cons a as ih =>
    rw [List.mapM_cons]
    refine ((h a).bind fun b _ => ih.bind fun bs _ => ok (b :: bs)).congr ?_ ?_
    · intro bs
      simp only [List.forall₂_cons_left_iff, exists_and_left]
    · simp only [comesTo_cons, and_false, exists_false, or_false, exists_and_right]

end Settles
end Settles

/-! ## Parameters -/

/-- The text that a field holds, if it is not too long. -/
def Holds (key : String) (limit : Nat) (fields : List (String × Json)) (cs : List Char) : Prop :=
  ∃ s : String, Json.lookup key fields = some (.string s) ∧ s.length ≤ limit ∧ cs = s.toList

/-- Without a field for it the input is empty. -/
def HoldsInput (limits : Limits) (fields : List (String × Json)) (cs : List Char) : Prop :=
  (Json.lookup "input" fields = none ∧ cs = []) ∨ Holds "input" limits.input fields cs

/-- What there is for a position. -/
def position (fields : List (String × Json)) : Json :=
  (Json.lookup "position" fields).getD (Json.ofNat 0)

variable (limits : Limits) (fields : List (String × Json)) {a : Automaton}

/-- The fields of a body that is a JSON object, if it is not nested too deep. -/
def Carries (nesting : Nat) (body : List UInt8) (fields : List (String × Json)) : Prop :=
  Json.readBytes? body = some (.object fields) ∧ (Json.object fields).depth ≤ nesting

instance (nesting : Nat) (body : List UInt8) (fields : List (String × Json)) :
    Decidable (Carries nesting body fields) :=
  inferInstanceAs (Decidable (_ ∧ _))

/-- A body that comes to a container that finds no place. -/
def TooDeep (nesting : Nat) (body : List UInt8) : Prop :=
  ∃ c, Json.readBytes nesting body = .error (.tooDeep c)

theorem settles_readBody (nesting : Nat) (body : List UInt8) :
    Settles (readBody nesting body) (Carries nesting body) (TooDeep nesting body) := by
  have hcarries (fields : List (String × Json)) :
      Carries nesting body fields ↔ Json.readBytes nesting body = .ok (.object fields) :=
    Json.readBytes_eq_ok_iff.symm
  unfold readBody TooDeep
  cases hread : Json.readBytes nesting body with
  | ok j =>
    cases j with
    | object fields =>
      exact (Settles.ok fields).congr (by simp [hcarries, hread, eq_comm]) (by simp)
    | _ => exact (Settles.rejected _).congr (by simp [hcarries, hread]) (by simp)
  | error e =>
    cases e with
    | malformed => exact (Settles.rejected _).congr (by simp [hcarries, hread]) (by simp)
    | tooDeep c => exact (Settles.internal _).congr (by simp [hcarries, hread]) (by simp)

theorem settles_readRegex :
    Settles (readRegex limits fields) (Holds "regex" limits.regex fields) False := by
  unfold readRegex Holds
  split
  · exact (Settles.rejected _).congr (by simp_all) Iff.rfl
  · exact (Settles.rejected _).congr (by simp_all) Iff.rfl
  · split
    · exact (Settles.rejected _).congr (by simp_all) Iff.rfl
    · exact (Settles.ok _).congr (by simp_all) Iff.rfl
  · exact (Settles.rejected _).congr (by simp_all) Iff.rfl

theorem settles_readInput :
    Settles (readInput limits fields) (HoldsInput limits fields) False := by
  unfold readInput HoldsInput Holds
  split
  · exact (Settles.ok _).congr (by simp_all) Iff.rfl
  · split
    · exact (Settles.rejected _).congr (by simp_all) Iff.rfl
    · exact (Settles.ok _).congr (by simp_all) Iff.rfl
  · exact (Settles.rejected _).congr (by simp_all) Iff.rfl

theorem settles_readWhole (r : Rejection) (j : Json) :
    Settles (readWhole r j) (fun n => j.whole = .ok n) j.Overflows := by
  rw [← Json.whole_eq_infinite_iff]
  unfold readWhole
  cases j.whole with
  | ok n => exact (Settles.ok n).congr (by simp [eq_comm]) (by simp)
  | error e =>
    cases e with
    | notWhole => exact (Settles.rejected r).congr (by simp) (by simp)
    | infinite => exact (Settles.internal _).congr (by simp) (by simp)

theorem settles_readIndex : Settles (readIndex fields)
    (fun n => ∃ j, Json.lookup "index" fields = some j ∧ j.whole = .ok n)
    (∃ j, Json.lookup "index" fields = some j ∧ j.Overflows) := by
  unfold readIndex
  split
  · exact (Settles.rejected _).congr (by simp_all) (by simp_all)
  · exact (Settles.rejected _).congr (by simp_all [Json.whole]) (by simp_all [Json.Overflows])
  · exact (settles_readWhole _ _).congr (by simp_all) (by simp_all)

theorem settles_readPosition : Settles (readPosition fields)
    (fun p => (position fields).whole = .ok (p : Int)) (position fields).Overflows := by
  have hsign (n : Int) : Settles
      (if n < 0 then .error (.rejected .positionNegative) else .ok n.toNat : Except Failure Nat)
      (fun p => n = p) False := by
    split
    · exact (Settles.rejected _).congr (by simp; omega) Iff.rfl
    · exact (Settles.ok _).congr (by omega) Iff.rfl
  exact ((settles_readWhole .positionNotInteger _).bind fun n _ => hsign n).congr
    (by simp [position]) (by simp [position])

theorem settles_readNode (a : Automaton) (n : Int) : Settles (readNode a n)
    (fun m => n = m.1 ∧ a.nodes[m.1]? = some m.2) False := by
  unfold readNode
  by_cases hn : n < 0
  · rw [if_pos hn]
    refine (Settles.rejected _).congr (fun m => ?_) Iff.rfl
    simp only [false_iff, not_and]
    omega
  · rw [if_neg hn]
    obtain ⟨k, rfl⟩ := Int.eq_ofNat_of_zero_le (Int.not_lt.mp hn)
    cases hk : a.nodes[k]? with
    | none =>
      simp only [Int.toNat_natCast, hk]
      refine (Settles.rejected _).congr (fun m => ?_) Iff.rfl
      simp only [false_iff, not_and, Int.natCast_inj]
      rintro rfl
      simp [hk]
    | some node =>
      simp only [Int.toNat_natCast, hk]
      refine (Settles.ok _).congr (fun m => ?_) Iff.rfl
      constructor
      · rintro rfl
        exact ⟨rfl, hk⟩
      · intro h
        obtain ⟨h1, h2⟩ := h
        obtain rfl := Int.natCast_inj.mp h1
        exact Prod.ext rfl (Option.some.inj (h2.symm.trans hk))

theorem forall₂_comp {α β γ : Type} {R : α → β → Prop} {S : β → γ → Prop} {as : List α}
    {cs : List γ} : (∃ bs, List.Forall₂ R as bs ∧ List.Forall₂ S bs cs) ↔
      List.Forall₂ (fun a c => ∃ b, R a b ∧ S b c) as cs := by
  constructor
  · intro h
    obtain ⟨bs, hR, hS⟩ := h
    induction hR generalizing cs with
    | nil =>
      cases hS
      exact .nil
    | cons hab _ ih =>
      cases hS with
      | cons hbc hS => exact .cons ⟨_, hab, hbc⟩ (ih hS)
  · intro h
    induction h with
    | nil => exact ⟨[], .nil, .nil⟩
    | cons hac _ ih =>
      obtain ⟨b, hab, hbc⟩ := hac
      obtain ⟨bs, hR, hS⟩ := ih
      exact ⟨b :: bs, .cons hab hR, .cons hbc hS⟩

theorem settles_values (nodes : List (Nat × Node)) : Settles
    (if nodes.all fun (_, n) => n.value?.isSome then .ok (nodes.map (·.1))
      else .error (.rejected .controlNode) : Except Failure (List Nat))
    (List.Forall₂ (fun m i => m.2.value?.isSome = true ∧ m.1 = i) nodes) False := by
  have hforall (is : List Nat) :
      List.Forall₂ (fun m i => m.2.value?.isSome = true ∧ m.1 = i) nodes is ↔
        (nodes.all fun (_, n) => n.value?.isSome) = true ∧ nodes.map (·.1) = is := by
    rw [List.forall₂_and_left, ← List.forall₂_map_left_iff, List.forall₂_eq_eq_eq]
    simp
  by_cases hall : (nodes.all fun (_, n) => n.value?.isSome) = true
  · rw [if_pos hall]
    refine (Settles.ok _).congr (fun is => ?_) Iff.rfl
    rw [hforall, eq_comm]
    exact (and_iff_right hall).symm
  · rw [if_neg hall]
    exact (Settles.rejected _).congr (by simp [hforall, hall]) Iff.rfl

theorem settles_readCurrent (a : Automaton) (j : Json) : Settles (readCurrent a j)
    (fun is => ∃ items, j = .array items ∧
      List.Forall₂ (fun j i => j.whole = .ok (i : Int) ∧ a.IsValue i) items is)
    (∃ items, j = .array items ∧
      ComesTo (fun i => ∃ n, i.whole = .ok n) Json.Overflows items) := by
  cases j with
  | array items =>
    have hread := (Settles.mapM (settles_readWhole .currentNotList) items).bind
      fun indexes _ => (Settles.mapM (settles_readNode a) indexes).bind
        fun nodes _ => settles_values nodes
    refine hread.congr (fun is => ?_) ?_
    · have hitem : (fun (j : Json) (i : Nat) => ∃ n, j.whole = .ok n ∧ ∃ m : Nat × Node,
          (n = m.1 ∧ a.nodes[m.1]? = some m.2) ∧ m.2.value?.isSome = true ∧ m.1 = i) =
          fun j i => j.whole = .ok (i : Int) ∧ a.IsValue i := by
        funext j i
        simp [IsValue]
      simp only [forall₂_comp, hitem, Json.array.injEq, exists_eq_left']
    · simp [ComesTo]
  | _ => exact (Settles.rejected _).congr (by simp) (by simp)

/-! ## Steps -/

/-- A request for the step before any character is consumed. -/
def Starts (fields : List (String × Json)) : Prop :=
  Json.lookup "current" fields = none ∨ Json.lookup "current" fields = some .null

/-- A request for the step from the value nodes `is` at `p`. -/
def Continues (fields : List (String × Json)) (a : Automaton) (p : Nat) (is : List Nat) : Prop :=
  (position fields).whole = .ok (p : Int) ∧
    ∃ items, Json.lookup "current" fields = some (.array items) ∧
      List.Forall₂ (fun j i => j.whole = .ok (i : Int) ∧ a.IsValue i) items is

/-- The step that a request for one asks for. -/
def Chosen (fields : List (String × Json)) (a : Automaton) (input : List Char) (s : RunStep) :
    Prop :=
  Starts fields ∧ s = a.start ∨ ∃ p is, Continues fields a p is ∧ a.step is input p = .ok s

/-- A request for a step with a number that is too large and comes before anything else that is
wrong. -/
def StepOverflows (fields : List (String × Json)) : Prop :=
  ¬Starts fields ∧ ((position fields).Overflows ∨
    (∃ p : Nat, (position fields).whole = .ok (p : Int)) ∧
      ∃ items, Json.lookup "current" fields = some (.array items) ∧
        ComesTo (fun j => ∃ n, j.whole = .ok n) Json.Overflows items)

theorem values_of_forall₂ {items : List Json} {is : List Nat} {R : Json → Nat → Prop}
    (h : List.Forall₂ (fun j i => R j i ∧ a.IsValue i) items is) : ∀ i ∈ is, a.IsValue i := by
  induction h with
  | nil => simp
  | cons hi _ ih => exact List.forall_mem_cons.mpr ⟨hi.2, ih⟩

/-- A step from value nodes is always possible, also past the end of the input. -/
theorem exists_step_of_values (ha : a.Progressing) {is : List Nat} (his : ∀ i ∈ is, a.IsValue i)
    (input : List Char) (p : Nat) : ∃ s, a.step is input p = .ok s := by
  rw [step_of_values his]
  cases input[p]? with
  | none => exact ⟨_, rfl⟩
  | some c =>
    obtain ⟨r, hadvance, -⟩ := exists_advance ha his c
    simp only [consume, hadvance]
    exact ⟨_, rfl⟩

theorem settles_step (ha : a.Progressing) {is : List Nat} (his : ∀ i ∈ is, a.IsValue i)
    (input : List Char) (p : Nat) :
    Settles ((a.step is input p).mapError fun e => .internal e.message)
      (fun s => a.step is input p = .ok s) False := by
  obtain ⟨s, hs⟩ := exists_step_of_values ha his input p
  rw [hs]
  exact (Settles.ok s).congr (by simp [eq_comm]) Iff.rfl

theorem settles_chosenStep (ha : a.Progressing) (input : List Char) :
    Settles (chosenStep fields a input) (Chosen fields a input) (StepOverflows fields) := by
  unfold chosenStep StepOverflows Chosen Starts Continues
  split
  · exact (Settles.ok _).congr (by simp_all) (by simp_all)
  · exact (Settles.ok _).congr (by simp_all) (by simp_all)
  · rename_i current hnull hcurrent
    have hread := (settles_readPosition fields).bind fun p _ =>
      (settles_readCurrent a current).bind fun is his =>
        settles_step ha (values_of_forall₂ his.choose_spec.2) input p
    have hne : current ≠ .null := hnull
    exact hread.congr (by simp [hcurrent, hne, and_assoc]) (by simp [hcurrent, hne])

theorem exists_chosen_iff (ha : a.Progressing) (input : List Char) :
    (∃ s, Chosen fields a input s) ↔ Starts fields ∨ ∃ p is, Continues fields a p is := by
  constructor
  · intro h
    obtain ⟨s, ⟨hstarts, -⟩ | ⟨p, is, hcontinues, -⟩⟩ := h
    · exact .inl hstarts
    · exact .inr ⟨p, is, hcontinues⟩
  · intro h
    rcases h with hstarts | ⟨p, is, hcontinues⟩
    · exact ⟨_, .inl ⟨hstarts, rfl⟩⟩
    · obtain ⟨-, items, -, his⟩ := id hcontinues
      obtain ⟨s, hs⟩ := exists_step_of_values ha (values_of_forall₂ his) input p
      exact ⟨s, .inr ⟨p, is, hcontinues, hs⟩⟩

end RegexDiagram.Service
