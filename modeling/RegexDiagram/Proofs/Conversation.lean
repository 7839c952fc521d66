import RegexDiagram.Proofs.DepthFirst
import RegexDiagram.Proofs.Parameters

/-!
The two ways to follow a run. The stream hands out all of its steps at once. A client may instead
ask for one step after another, and hands back the next nodes of the answer before. Each request
compiles the regex anew and checks the nodes that it is given, but what is compiled does not
change, and a step of a run hands on nothing but value nodes.
-/
namespace RegexDiagram

namespace Automaton

variable {a : Automaton} {current : List Nat} {input : List Char} {steps : List RunStep}
  {s s' : RunStep} {c : Char} {p : Nat}

theorem exists_consume_of_follow (h : a.follow s.next input = .ok steps)
    (hp : steps[p]? = some s') :
    ∃ c t, input[p]? = some c ∧ (s :: steps)[p]? = some t ∧
      a.consume t.next c (p + 1 = input.length) = .ok s' := by
  induction input generalizing s steps p with
  | nil =>
    obtain rfl : [] = steps := Except.ok.inj h
    simp at hp
  | cons c rest ih =>
    obtain ⟨r, tail, hadvance, rfl, htail⟩ := exists_of_follow_cons h
    cases p with
    | zero =>
      refine ⟨c, s, rfl, rfl, ?_⟩
      rw [consume, hadvance, ← Option.some.inj hp]
      cases rest <;> simp [Except.map]
    | succ p =>
      rw [List.getElem?_cons_succ] at hp
      split at htail
      · simp [htail] at hp
      · obtain ⟨d, t, hd, ht, hconsume⟩ := ih htail hp
        exact ⟨d, t, hd, ht, by simpa using hconsume⟩

theorem Orderly.isTerminal_iff (h : a.Orderly input steps) (hne : input ≠ [])
    (hs : s.state = .starting) (hp : (s :: steps)[p]? = some s') :
    s'.state.isTerminal = true ↔ p = steps.length := by
  have hbegun := List.length_pos_iff.mpr (h.begun hne)
  cases p with
  | zero =>
    obtain rfl : s = s' := by simpa using hp
    simp only [hs, RunState.isTerminal, Bool.false_eq_true, false_iff]
    omega
  | succ p =>
    rw [List.getElem?_cons_succ] at hp
    obtain ⟨hlt, rfl⟩ := List.getElem?_eq_some_iff.mp hp
    by_cases hlast : p + 1 = steps.length
    · refine ⟨fun _ => hlast, fun _ => h.ended _ ?_⟩
      rw [List.getLast?_eq_getElem?, ← hlast]
      exact hp
    · have hmem : steps[p] ∈ steps.dropLast := by
        apply List.mem_of_getElem? (i := p)
        rw [List.getElem?_dropLast, if_pos (by omega)]
        exact hp
      simp [h.running _ hmem, RunState.isTerminal, hlast]

theorem values_of_getElem? (hstart : a.Initial s) (horderly : a.Orderly input steps)
    (hp : (s :: steps)[p]? = some s') : ∀ i ∈ s'.next, a.IsValue i := by
  rcases List.mem_cons.mp (List.mem_of_getElem? hp) with rfl | hmem
  · exact hstart.proper.values
  · exact (horderly.proper s' hmem).values

theorem exists_step (hstart : a.Initial s) (hfollow : a.follow s.next input = .ok steps)
    (horderly : a.Orderly input steps) (hne : input ≠ []) (hp : (s :: steps)[p]? = some s')
    (hgoes : ¬s'.state.isTerminal = true) :
    ∃ t, steps[p]? = some t ∧ a.step s'.next input p = .ok t := by
  have hlt : p < steps.length := by
    have hp' := (List.getElem?_eq_some_iff.mp hp).1
    have hlast := (horderly.isTerminal_iff hne hstart.starting hp).mpr.mt hgoes
    rw [List.length_cons] at hp'
    omega
  have ht : steps[p]? = some steps[p] := List.getElem?_eq_getElem hlt
  obtain ⟨c, s'', hc, hs'', hconsume⟩ := exists_consume_of_follow hfollow ht
  obtain rfl := Option.some.inj (hp.symm.trans hs'')
  have hvalues := values_of_getElem? hstart horderly hp
  exact ⟨_, ht, (step_eq_consume hvalues hc).trans hconsume⟩

end Automaton

namespace Service

open Automaton

/-! ## Requests for a step -/

variable {a : Automaton} {fields : List (String × Json)} {is : List Nat} {p : Nat}

theorem readPosition_of_lookup (h : Json.lookup "position" fields = some (Json.ofNat p)) :
    readPosition fields = .ok p := by
  rw [(settles_readPosition fields).ok_iff, position, h]
  rfl

theorem readCurrent_ofList (h : ∀ i ∈ is, a.IsValue i) :
    readCurrent a (Json.ofList Json.ofNat is) = .ok is := by
  rw [(settles_readCurrent a _).ok_iff]
  refine ⟨_, rfl, ?_⟩
  rw [List.forall₂_map_left_iff, List.forall₂_same]
  intro i hi
  exact ⟨rfl, h i hi⟩

/-! ## What client and service say -/

/-- A request that asks one of the endpoints to run a regex on an input. -/
structure Asks (limits : Limits) (endpoint : Endpoint) (regex input : String)
    (fields : List (String × Json)) (r : Request) : Prop where
  endpoint : r.endpoint = endpoint
  method : r.method.toUpper = "POST"
  body : readBody limits.nesting r.body = .ok fields
  regex : Json.lookup "regex" fields = some (.string regex)
  input : Json.lookup "input" fields = some (.string input)

/-- An answer that shows a run at its end. -/
def Ends (body : Json) : Prop :=
  ∃ state : RunState, state.isTerminal = true ∧
    body.field? "run_state" = some (.string state.name)

/--
The replies to a client that asks for one step after another, at first without any nodes and then
with the next nodes of the answer before, as long as that does not end the run.
-/
inductive Conversation (limits : Limits) (regex input : String) : List Reply → Prop
  | start {fields : List (String × Json)} {r : Request}
      (hr : Asks limits .simulate regex input fields r)
      (hcurrent : Json.lookup "current" fields = none) :
      Conversation limits regex input [answer {} limits r]
  | next {replies : List Reply} {status : Nat} {body current : Json}
      {fields : List (String × Json)} {r : Request}
      (h : Conversation limits regex input (replies ++ [.document status body]))
      (hends : ¬Ends body) (hnext : body.field? "next_nodes" = some current)
      (hr : Asks limits .simulate regex input fields r)
      (hcurrent : Json.lookup "current" fields = some current)
      (hposition : Json.lookup "position" fields = some (Json.ofNat replies.length)) :
      Conversation limits regex input (replies ++ [.document status body] ++ [answer {} limits r])

def stepEvent (i : Nat) (s : RunStep) : Json :=
  .object (Document.step s ++ [("position", Json.ofInt ((i : Int) - 1))])

def endEvent : Json := .object [("type", .string "end")]

/-- What an answer says about a step is what an event says. -/
def Agrees (event : Json) (reply : Reply) : Prop :=
  ∃ body, reply = .document 200 body ∧
    ∀ key ∈ ["run_state", "matching_nodes", "next_nodes"],
      ∃ v, event.field? key = some v ∧ body.field? key = some v

/-- The answer to a request for a step. -/
def stepAnswer (c : Compiled) (s : RunStep) : Json :=
  .object (Document.step s ++
    [("graph_run_classes", Json.ofList Json.string (c.highlight s c.graph).runClasses)])

/-! ## Answers -/

variable {limits : Limits} {regex input : String} {r : Request} {c : Compiled} {s : RunStep}
  {steps : List RunStep} {replies : List Reply} {reply : Reply}

theorem readRegex_of_lookup (h : Json.lookup "regex" fields = some (.string regex))
    (hlength : regex.length ≤ limits.regex) : readRegex limits fields = .ok regex.toList := by
  simp [readRegex, h, Nat.not_lt.mpr hlength]

theorem readInput_of_lookup (h : Json.lookup "input" fields = some (.string input))
    (hlength : input.length ≤ limits.input) : readInput limits fields = .ok input.toList := by
  simp [readInput, h, Nat.not_lt.mpr hlength]

theorem compileRegex_of_compile {source : List Char} (h : compile source = .ok c) :
    compileRegex {} source = .ok c := by
  simp [compileRegex, h, Except.mapError]

theorem answer_simulate (hr : Asks limits .simulate regex input fields r)
    (hregex : regex.length ≤ limits.regex) (hinput : input.length ≤ limits.input)
    (hc : compile regex.toList = .ok c)
    (hs : chosenStep fields c.automaton input.toList = .ok s) :
    answer {} limits r = .document 200 (stepAnswer c s) := by
  have hanswer : answerSimulate {} limits fields = .ok (stepAnswer c s) := by
    simp only [answerSimulate, readRegex_of_lookup hr.regex hregex,
      readInput_of_lookup hr.input hinput, compileRegex_of_compile hc, hs, bind, Except.bind]
    rfl
  have hreceive : receiveBody {} limits r.body = .ok fields := hr.body
  simp only [answer, hr.method, hreceive, hr.endpoint, ne_eq, not_true, if_false, Except.bind,
    hanswer, documentReply]

theorem answer_stream (hr : Asks limits .stream regex input fields r)
    (hregex : regex.length ≤ limits.regex) (hinput : input.length ≤ limits.input)
    (hc : compile regex.toList = .ok c) (hrun : c.automaton.run input.toList = .ok steps) :
    answer {} limits r = .events 200 (steps.mapIdx stepEvent ++ [endEvent]) := by
  have hanswer : answerStream {} limits fields = .ok (steps.mapIdx stepEvent ++ [endEvent]) := by
    simp only [answerStream, readRegex_of_lookup hr.regex hregex,
      readInput_of_lookup hr.input hinput, compileRegex_of_compile hc, hrun, bind, Except.bind]
    rfl
  have hreceive : receiveBody {} limits r.body = .ok fields := hr.body
  simp only [answer, hr.method, hreceive, hr.endpoint, ne_eq, not_true, if_false, Except.bind,
    hanswer, eventsReply]

theorem field?_stepAnswer :
    (stepAnswer c s).field? "run_state" = some (.string s.state.name) ∧
      (stepAnswer c s).field? "next_nodes" = some (Json.ofList Json.ofNat s.next) := by
  simp [stepAnswer, Document.step, Json.field?, Json.lookup]

theorem agrees_stepAnswer (i : Nat) (c : Compiled) (s : RunStep) :
    Agrees (stepEvent i s) (.document 200 (stepAnswer c s)) := by
  refine ⟨_, rfl, ?_⟩
  intro key hkey
  simp only [List.mem_cons, List.not_mem_nil, or_false] at hkey
  rcases hkey with rfl | rfl | rfl <;>
    simp [stepEvent, stepAnswer, Document.step, Json.field?, Json.lookup]

theorem ends_stepAnswer : Ends (stepAnswer c s) ↔ s.state.isTerminal = true := by
  constructor
  · intro h
    obtain ⟨state, hterminal, hfield⟩ := h
    rw [field?_stepAnswer.1] at hfield
    cases hs : s.state <;> cases state <;> simp_all [RunState.name, RunState.isTerminal]
  · intro h
    exact ⟨s.state, h, field?_stepAnswer.1⟩

theorem chosenStep_start {input : List Char} (hcurrent : Json.lookup "current" fields = none) :
    chosenStep fields a input = .ok a.start := by
  simp only [chosenStep, hcurrent]

theorem chosenStep_next {input : List Char} {current : List Nat}
    (hcurrent : Json.lookup "current" fields = some (Json.ofList Json.ofNat current))
    (hposition : Json.lookup "position" fields = some (Json.ofNat p))
    (hvalues : ∀ i ∈ current, a.IsValue i) (hs : a.step current input p = .ok s) :
    chosenStep fields a input = .ok s := by
  have hread := readCurrent_ofList hvalues
  unfold chosenStep
  rw [hcurrent]
  simp only [Json.ofList] at hread ⊢
  simp only [readPosition_of_lookup hposition, hread, hs, bind, Except.bind, Except.mapError]

/-! ## Both together -/

/-- The client is shown the first steps of the run, and none twice. -/
theorem Conversation.exists_eq_map (hregex : regex.length ≤ limits.regex)
    (hinput : input.length ≤ limits.input) (hne : input.toList ≠ [])
    (hc : compile regex.toList = .ok c) (hstart : c.automaton.Initial c.automaton.start)
    (hfollow : c.automaton.follow c.automaton.start.next input.toList = .ok steps)
    (horderly : c.automaton.Orderly input.toList steps)
    (h : Conversation limits regex input replies) :
    ∃ n ≤ steps.length, replies =
      ((c.automaton.start :: steps).take (n + 1)).map fun s => .document 200 (stepAnswer c s) := by
  induction h with
  | start hr hcurrent =>
    refine ⟨0, Nat.zero_le _, ?_⟩
    rw [answer_simulate hr hregex hinput hc (chosenStep_start hcurrent)]
    rfl
  | @next replies status body current fields r h hends hnext hr hcurrent hposition ih =>
    obtain ⟨n, hn, heq⟩ := ih
    have hlength : replies.length = n := by
      have := congrArg List.length heq
      simp at this
      omega
    obtain ⟨s, hs, hanswer⟩ : ∃ s, (c.automaton.start :: steps)[n]? = some s ∧
        Reply.document 200 (stepAnswer c s) = .document status body := by
      have hget := congrArg (·[n]?) heq
      rw [List.getElem?_map, List.getElem?_take_of_lt (Nat.lt_succ_self n), ← hlength,
        List.getElem?_concat_length] at hget
      exact hlength ▸ Option.map_eq_some_iff.mp hget.symm
    obtain ⟨rfl, rfl⟩ : 200 = status ∧ stepAnswer c s = body := by simpa using hanswer
    obtain rfl : Json.ofList Json.ofNat s.next = current :=
      Option.some.inj (field?_stepAnswer.2.symm.trans hnext)
    have hgoes := ends_stepAnswer.mpr.mt hends
    obtain ⟨t, ht, hstep⟩ := exists_step hstart hfollow horderly hne hs hgoes
    have hvalues := values_of_getElem? hstart horderly hs
    rw [← hlength] at hstep
    have hchosen := chosenStep_next hcurrent hposition hvalues hstep
    refine ⟨n + 1, (List.getElem?_eq_some_iff.mp ht).1, ?_⟩
    rw [heq, answer_simulate hr hregex hinput hc hchosen, List.take_add_one (i := n + 1),
      List.getElem?_cons_succ, ht, List.map_append]
    rfl

theorem forall₂_mapIdx {α β γ : Type} {R : β → γ → Prop} {f : Nat → α → β} {g : α → γ}
    (h : ∀ i x, R (f i x) (g x)) (l : List α) : List.Forall₂ R (l.mapIdx f) (l.map g) := by
  induction l generalizing f with
  | nil => exact .nil
  | cons x l ih =>
    rw [List.mapIdx_cons, List.map_cons]
    exact .cons (h 0 x) (ih fun i x => h (i + 1) x)

/--
The stream of a run and the answers to a client that asks for its steps. The stream is that of the
whole run and ends with the event for its end. The answers agree with its events one after the
other, and the client has got to the end of the run exactly if there is one for each step.
-/
theorem conversation_agrees_with_stream (hregex : regex.length ≤ limits.regex)
    (hinput : input.length ≤ limits.input) (hne : input ≠ "")
    (hstream : Asks limits .stream regex input fields r)
    (h : Conversation limits regex input replies) :
    ∃ c steps, compile regex.toList = .ok c ∧ c.automaton.run input.toList = .ok steps ∧
      answer {} limits r = .events 200 (steps.mapIdx stepEvent ++ [endEvent]) ∧
      List.Forall₂ Agrees ((steps.mapIdx stepEvent).take replies.length) replies ∧
      ((∃ body, replies.getLast? = some (.document 200 body) ∧ Ends body) ↔
        replies.length = steps.length) := by
  obtain ⟨c, A, hc, hA⟩ := exists_compile regex.toList
  have hstart := A.initial
  have hsteps := exists_orderly A.progressing hstart.proper.values input.toList
  rw [← hA.automaton] at hstart hsteps
  obtain ⟨steps, hfollow, horderly⟩ := hsteps
  have hrun : c.automaton.run input.toList = .ok (c.automaton.start :: steps) := by
    rw [run, hfollow]
    rfl
  have hne' : input.toList ≠ [] := by simpa using hne
  obtain ⟨n, hn, hreplies⟩ := h.exists_eq_map hregex hinput hne' hc hstart hfollow horderly
  have hlength : replies.length = n + 1 := by
    rw [hreplies, List.length_map, List.length_take, List.length_cons]
    omega
  obtain ⟨s, hs⟩ : ∃ s, (c.automaton.start :: steps)[n]? = some s :=
    ⟨_, List.getElem?_eq_getElem (by rw [List.length_cons]; omega)⟩
  have hlast : replies.getLast? = some (.document 200 (stepAnswer c s)) := by
    rw [List.getLast?_eq_getElem?, hlength, Nat.add_sub_cancel, hreplies, List.getElem?_map,
      List.getElem?_take_of_lt (Nat.lt_succ_self n), hs]
    rfl
  refine ⟨c, c.automaton.start :: steps, hc, hrun,
    answer_stream hstream hregex hinput hc hrun, ?_, ?_⟩
  · rw [hlength, hreplies, List.map_take]
    exact List.forall₂_take (n + 1) (forall₂_mapIdx (fun i s => agrees_stepAnswer i c s) _)
  · rw [hlength, List.length_cons, Nat.add_right_cancel_iff,
      ← horderly.isTerminal_iff hne' hstart.starting hs, ← ends_stepAnswer (c := c), hlast]
    simp

def post (endpoint : Endpoint) (body : String) : Request :=
  { endpoint := endpoint, body := body.toUTF8.toList }

theorem asks_a (endpoint : Endpoint) :
    Asks {} endpoint "a" "a" [("regex", .string "a"), ("input", .string "a")]
      (post endpoint "\x7b\"regex\": \"a\", \"input\": \"a\"\x7d") where
  endpoint := rfl
  method := by
    change "POST".toUpper = "POST"
    decide +kernel
  body := by
    have hcarries : Carries 960 "\x7b\"regex\": \"a\", \"input\": \"a\"\x7d".toUTF8.toList
        [("regex", .string "a"), ("input", .string "a")] := by
      decide +kernel
    exact ((settles_readBody _ _).ok_iff _).mpr hcarries
  regex := by decide +kernel
  input := by decide +kernel

theorem asks_a_next :
    Asks {} .simulate "a" "a"
      [("regex", .string "a"), ("input", .string "a"), ("current", .array [Json.ofNat 1]),
        ("position", Json.ofNat 0)]
      (post .simulate
        "\x7b\"regex\": \"a\", \"input\": \"a\", \"current\": [1], \"position\": 0\x7d") where
  endpoint := rfl
  method := by decide +kernel
  body := ((settles_readBody _ _).ok_iff _).mpr (by decide +kernel)
  regex := by decide +kernel
  input := by decide +kernel

/-- The first answer on the way through `a`. -/
def startA : Json :=
  .object
    [("run_state", .string "starting"), ("matching_nodes", .array [Json.ofNat 0]),
      ("next_nodes", .array [Json.ofNat 1]),
      ("graph_run_classes", .array ([ "active", "", " starting"].map .string))]

theorem answer_a :
    answer {} {} (post .simulate "\x7b\"regex\": \"a\", \"input\": \"a\"\x7d") =
      .document 200 startA := by
  obtain ⟨c, -, hc, -⟩ := exists_compile "a".toList
  have hwalk : (compile "a".toList).toOption.map (fun c =>
      ((c.automaton.visit 4 {} 0).map (·.found),
        decide (({} : NodeSet).missing c.automaton.nodes.size < 4))) =
      some (some [1], true) := by
    decide +kernel
  have hanswer : (compile "a".toList).toOption.map (fun c =>
      stepAnswer c { state := .starting, accepting := [0], next := [1] }) = some startA := by
    decide +kernel
  rw [hc] at hwalk hanswer
  obtain ⟨hfound, hlt⟩ := Prod.mk.inj (Option.some.inj hwalk)
  rw [visit_eq_walk (of_decide_eq_true hlt)] at hfound
  have hnodes : (c.automaton.walk {} [0]).found = [1] := Option.some.inj hfound
  have hstep : stepAnswer c { state := .starting, accepting := [0], next := [1] } = startA :=
    Option.some.inj hanswer
  have hstart : c.automaton.start = { state := .starting, accepting := [0], next := [1] } := by
    rw [start, hnodes]
  rw [answer_simulate (asks_a .simulate) (by decide) (by decide) hc
    (chosenStep_start (by decide +kernel)), hstart, hstep]

theorem not_ends_startA : ¬Ends startA := by
  intro h
  obtain ⟨state, hterminal, hfield⟩ := h
  cases state <;>
    simp_all [RunState.isTerminal, RunState.name, startA, Json.field?, Json.lookup]

theorem conversation_a :
    Conversation {} "a" "a"
      [.document 200 startA,
        answer {} {} (post .simulate
          "\x7b\"regex\": \"a\", \"input\": \"a\", \"current\": [1], \"position\": 0\x7d")] := by
  have hstart : Conversation {} "a" "a" ([] ++ [.document 200 startA]) := by
    have h : Conversation {} "a" "a" [answer {} {} _] := .start (asks_a .simulate)
      (by decide +kernel)
    rwa [answer_a] at h
  have hnext : startA.field? "next_nodes" = some (.array [Json.ofNat 1]) := by decide +kernel
  exact hstart.next not_ends_startA hnext asks_a_next (by decide +kernel) (by decide +kernel)

theorem conversation_agrees_with_stream_a :
    ∃ c steps, compile "a".toList = .ok c ∧ c.automaton.run "a".toList = .ok steps ∧
      answer {} {} (post .stream "\x7b\"regex\": \"a\", \"input\": \"a\"\x7d") =
        .events 200 (steps.mapIdx stepEvent ++ [endEvent]) ∧
      List.Forall₂ Agrees ((steps.mapIdx stepEvent).take 2)
        [.document 200 startA,
          answer {} {} (post .simulate
            "\x7b\"regex\": \"a\", \"input\": \"a\", \"current\": [1], \"position\": 0\x7d")] := by
  obtain ⟨c, steps, hc, hrun, hstream, hagrees, -⟩ :=
    conversation_agrees_with_stream (by decide) (by decide) (by decide) (asks_a .stream)
      conversation_a
  exact ⟨c, steps, hc, hrun, hstream, hagrees⟩

end Service
end RegexDiagram
