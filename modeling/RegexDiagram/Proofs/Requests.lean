import RegexDiagram.Proofs.Conversation

/-!
How requests are answered. A request with usable parameters gets its answer, as neither compiling
nor running fails, and nearly every other one is rejected. Only what is too large goes by as an
internal failure: a body that is not handed over or is nested too deep, and a number that cannot be
made whole, be it an index, a position or one of the current nodes, unless something else that is
read before it is not usable.
-/
namespace RegexDiagram.Service

open Automaton

def Reply.status : Reply → Nat
  | notAllowed _ => 405
  | document status _ => status
  | events status _ => status

/-- What each endpoint needs in order to answer. -/
def Usable (limits : Limits) (fields : List (String × Json)) : Endpoint → Prop
  | .compile => ∃ source, Holds "regex" limits.regex fields source
  | .hint => (∃ source, Holds "regex" limits.regex fields source) ∧
      ∃ j n, Json.lookup "index" fields = some j ∧ j.whole = .ok n
  | .simulate => ∃ source input c, Holds "regex" limits.regex fields source ∧
      HoldsInput limits fields input ∧ compile source = .ok c ∧
      (Starts fields ∨ ∃ p is, Continues fields c.automaton p is)
  | .stream => (∃ source, Holds "regex" limits.regex fields source) ∧
      ∃ input, HoldsInput limits fields input

/-- Where each endpoint comes to a number that is too large. -/
def Overflowing (limits : Limits) (fields : List (String × Json)) : Endpoint → Prop
  | .hint => (∃ source, Holds "regex" limits.regex fields source) ∧
      ∃ j, Json.lookup "index" fields = some j ∧ j.Overflows
  | .simulate => (∃ source, Holds "regex" limits.regex fields source) ∧
      (∃ input, HoldsInput limits fields input) ∧ StepOverflows fields
  | _ => False

section Compiling

variable {source : List Char} {c : Compiled}

theorem exists_compile_eq_ok (source : List Char) : ∃ c, compile source = .ok c := by
  obtain ⟨c, A, hc, -⟩ := exists_compile source
  exact ⟨c, hc⟩

theorem settles_compileRegex (source : List Char) :
    Settles (compileRegex {} source) (fun c => compile source = .ok c) False := by
  obtain ⟨c, hc⟩ := exists_compile_eq_ok source
  rw [compileRegex_of_compile hc]
  exact (Settles.ok c).congr (by simp [hc, eq_comm]) Iff.rfl

theorem exists_expression_of_compile (h : compile source = .ok c) :
    ∃ A : Expression, c.automaton = A.automaton := by
  obtain ⟨c', A, hc', hA⟩ := exists_compile source
  obtain rfl := Except.ok.inj (hc'.symm.trans h)
  exact ⟨A, hA.automaton⟩

theorem progressing_of_compile (h : compile source = .ok c) : c.automaton.Progressing := by
  obtain ⟨A, hA⟩ := exists_expression_of_compile h
  rw [hA]
  exact A.progressing

theorem exists_run_of_compile (h : compile source = .ok c) (input : List Char) :
    ∃ steps, c.automaton.run input = .ok steps := by
  obtain ⟨A, hA⟩ := exists_expression_of_compile h
  obtain ⟨steps, hsteps, -⟩ := exists_orderly A.progressing A.initial.proper.values input
  rw [hA, run, hsteps]
  exact ⟨_, rfl⟩

end Compiling

/-! ## Endpoints -/

variable (limits : Limits) (fields : List (String × Json))

theorem settles_answerCompile : Settles (answerCompile {} limits fields)
    (fun body => ∃ source, Holds "regex" limits.regex fields source ∧
      ∃ c, compile source = .ok c ∧ body = Document.compiled c)
    (Overflowing limits fields .compile) :=
  ((settles_readRegex limits fields).bind fun source _ => (settles_compileRegex source).bind
    fun c _ => Settles.ok (Document.compiled c)).congr (by simp) (by simp [Overflowing])

theorem exists_answerCompile_iff :
    (∃ body, answerCompile {} limits fields = .ok body) ↔ Usable limits fields .compile := by
  simp only [(settles_answerCompile limits fields).ok_iff, Usable]
  constructor
  · intro h
    obtain ⟨-, source, hsource, -⟩ := h
    exact ⟨source, hsource⟩
  · intro h
    obtain ⟨source, hsource⟩ := h
    obtain ⟨c, hc⟩ := exists_compile_eq_ok source
    exact ⟨_, source, hsource, c, hc, rfl⟩

theorem settles_answerHint : Settles (answerHint {} limits fields)
    (fun body => ∃ source, Holds "regex" limits.regex fields source ∧
      ∃ n, (∃ j, Json.lookup "index" fields = some j ∧ j.whole = .ok n) ∧
      ∃ c, compile source = .ok c ∧ body = Document.hint (c.hint n))
    (Overflowing limits fields .hint) :=
  ((settles_readRegex limits fields).bind fun source _ => (settles_readIndex fields).bind
    fun n _ => (settles_compileRegex source).bind fun c _ =>
      Settles.ok (Document.hint (c.hint n))).congr (by simp) (by simp [Overflowing])

theorem exists_answerHint_iff :
    (∃ body, answerHint {} limits fields = .ok body) ↔ Usable limits fields .hint := by
  simp only [(settles_answerHint limits fields).ok_iff, Usable]
  constructor
  · intro h
    obtain ⟨-, source, hsource, n, ⟨j, hj, hn⟩, -⟩ := h
    exact ⟨⟨source, hsource⟩, j, n, hj, hn⟩
  · intro h
    obtain ⟨⟨source, hsource⟩, j, n, hj, hn⟩ := h
    obtain ⟨c, hc⟩ := exists_compile_eq_ok source
    exact ⟨_, source, hsource, n, ⟨j, hj, hn⟩, c, hc, rfl⟩

theorem settles_answerSimulate : Settles (answerSimulate {} limits fields)
    (fun body => ∃ source, Holds "regex" limits.regex fields source ∧
      ∃ input, HoldsInput limits fields input ∧ ∃ c, compile source = .ok c ∧
      ∃ s, Chosen fields c.automaton input s ∧ body = stepAnswer c s)
    (Overflowing limits fields .simulate) := by
  have hread := (settles_readRegex limits fields).bind fun source _ =>
    (settles_readInput limits fields).bind fun input _ => (settles_compileRegex source).bind
      fun c hc => (settles_chosenStep fields (progressing_of_compile hc) input).bind
        fun s _ => Settles.ok (stepAnswer c s)
  exact hread.congr (fun body => Iff.rfl) (by simp [Overflowing, exists_compile_eq_ok])

theorem exists_answerSimulate_iff :
    (∃ body, answerSimulate {} limits fields = .ok body) ↔ Usable limits fields .simulate := by
  simp only [(settles_answerSimulate limits fields).ok_iff, Usable]
  constructor
  · intro h
    obtain ⟨-, source, hsource, input, hinput, c, hc, s, hs, -⟩ := h
    refine ⟨source, input, c, hsource, hinput, hc, ?_⟩
    exact (exists_chosen_iff fields (progressing_of_compile hc) input).mp ⟨s, hs⟩
  · intro h
    obtain ⟨source, input, c, hsource, hinput, hc, hstep⟩ := h
    obtain ⟨s, hs⟩ := (exists_chosen_iff fields (progressing_of_compile hc) input).mpr hstep
    exact ⟨_, source, hsource, input, hinput, c, hc, s, hs, rfl⟩

theorem settles_answerStream : Settles (answerStream {} limits fields)
    (fun events => ∃ source, Holds "regex" limits.regex fields source ∧
      ∃ input, HoldsInput limits fields input ∧ ∃ c, compile source = .ok c ∧
      ∃ steps, c.automaton.run input = .ok steps ∧ events = steps.mapIdx stepEvent ++ [endEvent])
    (Overflowing limits fields .stream) := by
  have hevents {source : List Char} {c : Compiled} (hc : compile source = .ok c)
      (input : List Char) : Settles (.ok (runEvents (({} : Engine).run c.automaton input)))
        (fun events => ∃ steps, c.automaton.run input = .ok steps ∧
          events = steps.mapIdx stepEvent ++ [endEvent]) False := by
    obtain ⟨steps, hsteps⟩ := exists_run_of_compile hc input
    have heq : runEvents (({} : Engine).run c.automaton input) =
        steps.mapIdx stepEvent ++ [endEvent] := by
      simp only [hsteps]
      rfl
    rw [heq]
    exact (Settles.ok _).congr (by simp [hsteps]) Iff.rfl
  have hread := (settles_readRegex limits fields).bind fun source _ =>
    (settles_readInput limits fields).bind fun input _ =>
      (settles_compileRegex source).bind fun c hc => hevents hc input
  exact hread.congr (fun events => Iff.rfl) (by simp [Overflowing])

theorem exists_answerStream_iff :
    (∃ events, answerStream {} limits fields = .ok events) ↔ Usable limits fields .stream := by
  simp only [(settles_answerStream limits fields).ok_iff, Usable]
  constructor
  · intro h
    obtain ⟨-, source, hsource, input, hinput, -⟩ := h
    exact ⟨⟨source, hsource⟩, input, hinput⟩
  · intro h
    obtain ⟨⟨source, hsource⟩, input, hinput⟩ := h
    obtain ⟨c, hc⟩ := exists_compile_eq_ok source
    obtain ⟨steps, hsteps⟩ := exists_run_of_compile hc input
    exact ⟨_, source, hsource, input, hinput, c, hc, steps, hsteps, rfl⟩

/-! ## Statuses -/

/-- The status that the outcome of a request is answered with. -/
def statusOf {α : Type} : Except Failure α → Nat
  | .ok _ => 200
  | .error f => f.status

theorem status_documentReply (e : Except Failure Json) : (documentReply e).status = statusOf e := by
  cases e <;> rfl

theorem status_eventsReply (e : Except Failure (List Json)) :
    (eventsReply e).status = statusOf e := by
  cases e <;> rfl

theorem Settles.status {α : Type} {e : Except Failure α} {usable : α → Prop} {fails : Prop}
    (h : Settles e usable fails) :
    (statusOf e = 200 ↔ ∃ a, usable a) ∧ (statusOf e = 500 ↔ fails) ∧
      (statusOf e = 400 ↔ ¬(∃ a, usable a) ∧ ¬fails) := by
  simp only [← h.ok_iff, ← h.failed_iff]
  cases e with
  | ok a => simp [statusOf]
  | error f => cases f <;> simp [statusOf, Failure.status]

/-! ## Bodies -/

/-- A framework that hands over the bodies up to a size, and refuses those that are larger. -/
structure Receives (receive : List UInt8 → Except String (List UInt8)) (size : Nat) : Prop where
  handed_over : ∀ body, body.length ≤ size → receive body = .ok body
  refused : ∀ body, size < body.length → ∃ message, receive body = .error message

theorem settles_receiveBody {receive : List UInt8 → Except String (List UInt8)} {size : Nat}
    (hreceive : Receives receive size) (limits : Limits) (body : List UInt8) :
    Settles (receiveBody { receive := receive } limits body)
      (fun fields => body.length ≤ size ∧ Carries limits.nesting body fields)
      (size < body.length ∨ TooDeep limits.nesting body) := by
  have hread : receiveBody { receive := receive } limits body =
      ((receive body).mapError .internal).bind (readBody limits.nesting) := rfl
  rw [hread]
  rcases Nat.lt_or_ge size body.length with hlt | hle
  · obtain ⟨message, hmessage⟩ := hreceive.refused body hlt
    rw [hmessage]
    exact (Settles.internal message).congr (by simp [Nat.not_le.mpr hlt]) (by simp [hlt])
  · rw [hreceive.handed_over body hle]
    exact (settles_readBody limits.nesting body).congr (by simp [hle])
      (by simp [Nat.not_lt.mpr hle])

/-- How a request with a body is answered at an endpoint, if bodies may have a certain size. -/
structure Answered (limits : Limits) (size : Nat) (endpoint : Endpoint) (body : List UInt8)
    (reply : Reply) : Prop where
  accepted : reply.status = 200 ↔ body.length ≤ size ∧
    ∃ fields, Carries limits.nesting body fields ∧ Usable limits fields endpoint
  failed : reply.status = 500 ↔ size < body.length ∨ TooDeep limits.nesting body ∨
    ∃ fields, Carries limits.nesting body fields ∧ Overflowing limits fields endpoint
  rejected : reply.status = 400 ↔ body.length ≤ size ∧ ¬TooDeep limits.nesting body ∧
    ∀ fields, Carries limits.nesting body fields →
      ¬Usable limits fields endpoint ∧ ¬Overflowing limits fields endpoint

theorem Answered.of_settles {α : Type} {receive : List UInt8 → Except String (List UInt8)}
    {size : Nat} {limits : Limits} {endpoint : Endpoint} {body : List UInt8} {reply : Reply}
    {run : List (String × Json) → Except Failure α} {usable : List (String × Json) → α → Prop}
    (hreceive : Receives receive size)
    (hstatus : reply.status =
      statusOf ((receiveBody { receive := receive } limits body).bind run))
    (hrun : ∀ fields, Settles (run fields) (usable fields) (Overflowing limits fields endpoint))
    (husable : ∀ fields, (∃ a, run fields = .ok a) ↔ Usable limits fields endpoint) :
    Answered limits size endpoint body reply := by
  obtain ⟨h200, h500, h400⟩ :=
    ((settles_receiveBody hreceive limits body).bind fun fields _ => hrun fields).status
  have hsome : (∃ a, ∃ fields, (body.length ≤ size ∧ Carries limits.nesting body fields) ∧
        usable fields a) ↔
      body.length ≤ size ∧
        ∃ fields, Carries limits.nesting body fields ∧ Usable limits fields endpoint := by
    rw [exists_comm]
    simp only [exists_and_left, and_assoc, ← husable, (hrun _).ok_iff]
  have hfails : ((size < body.length ∨ TooDeep limits.nesting body) ∨
        ∃ fields, (body.length ≤ size ∧ Carries limits.nesting body fields) ∧
          Overflowing limits fields endpoint) ↔
      size < body.length ∨ TooDeep limits.nesting body ∨
        ∃ fields, Carries limits.nesting body fields ∧ Overflowing limits fields endpoint := by
    rw [or_assoc]
    rcases Nat.lt_or_ge size body.length with hlt | hle
    · simp only [hlt, true_or]
    · simp only [hle, true_and]
  rw [← hstatus] at h200 h500 h400
  rw [hsome] at h200 h400
  rw [hfails] at h500 h400
  refine ⟨h200, h500, h400.trans ?_⟩
  simp only [not_exists, not_and, not_or, Nat.not_lt]
  constructor
  · intro h
    obtain ⟨husable, hsize, hdeep, hoverflow⟩ := h
    exact ⟨hsize, hdeep, fun fields hfields =>
      ⟨husable hsize fields hfields, hoverflow fields hfields⟩⟩
  · intro h
    obtain ⟨hsize, hdeep, hfields⟩ := h
    exact ⟨fun _ fields h => (hfields fields h).1, hsize, hdeep, fun fields h =>
      (hfields fields h).2⟩

theorem unbroken_events {e : Except Failure (List Json)} {events : List Json}
    (h : eventsReply e = .events 200 events)
    (he : ∀ events, e = .ok events → ∃ steps : List RunStep,
      events = steps.mapIdx stepEvent ++ [endEvent]) :
    ∀ event ∈ events, event.field? "type" ≠ some (.string "error") := by
  cases e with
  | error f => cases f <;> simp [eventsReply, Failure.status] at h
  | ok events' =>
    obtain rfl : events' = events := by simpa [eventsReply] using h
    obtain ⟨steps, rfl⟩ := he _ rfl
    intro event hevent
    rcases List.mem_append.mp hevent with hevent | hevent
    · obtain ⟨i, hi, rfl⟩ := List.mem_mapIdx.mp hevent
      simp [stepEvent, Document.step, Json.field?, Json.lookup]
    · obtain rfl := List.mem_singleton.mp hevent
      simp [endEvent, Json.field?, Json.lookup]

theorem documentReply_ne_events (e : Except Failure Json) (status : Nat) (events : List Json) :
    documentReply e ≠ .events status events := by
  cases e <;> simp [documentReply]

/--
Every request is answered by what its body and its parameters are. It fails only where they are too
large: a body that is not handed over or is nested too deep, or a number that cannot be made whole.
Otherwise it is accepted if the parameters are usable, and rejected if they are not. A body that is
a JSON document is too deep if that is deeper than the limit. A stream that is begun goes on to its
end.
-/
theorem answered_by_parameters {receive : List UInt8 → Except String (List UInt8)} {size : Nat}
    (hreceive : Receives receive size) (limits : Limits) (endpoint : Endpoint)
    (body : List UInt8) :
    let reply := answer { receive := receive } limits { endpoint := endpoint, body := body }
    Answered limits size endpoint body reply ∧
      (∀ j, Json.readBytes? body = some j →
        (TooDeep limits.nesting body ↔ limits.nesting < j.depth)) ∧
      ∀ events, reply = .events 200 events →
        ∀ event ∈ events, event.field? "type" ≠ some (.string "error") := by
  have hmethod : ¬"POST".toUpper ≠ "POST" := by decide +kernel
  have hdeep (j : Json) (hj : Json.readBytes? body = some j) :
      TooDeep limits.nesting body ↔ limits.nesting < j.depth := Json.readBytes_tooDeep_iff hj
  unfold answer
  rw [if_neg hmethod]
  cases endpoint with
  | compile =>
    exact ⟨.of_settles hreceive (status_documentReply _) (settles_answerCompile limits)
      (exists_answerCompile_iff limits), hdeep,
      fun _ h => absurd h (documentReply_ne_events _ _ _)⟩
  | hint =>
    exact ⟨.of_settles hreceive (status_documentReply _) (settles_answerHint limits)
      (exists_answerHint_iff limits), hdeep, fun _ h => absurd h (documentReply_ne_events _ _ _)⟩
  | simulate =>
    exact ⟨.of_settles hreceive (status_documentReply _) (settles_answerSimulate limits)
      (exists_answerSimulate_iff limits), hdeep,
      fun _ h => absurd h (documentReply_ne_events _ _ _)⟩
  | stream =>
    refine ⟨.of_settles hreceive (status_eventsReply _) (settles_answerStream limits)
      (exists_answerStream_iff limits), hdeep,
      fun events h => unbroken_events h fun events' he => ?_⟩
    have hsettles := (settles_receiveBody hreceive limits body).bind fun fields _ =>
      settles_answerStream limits fields
    obtain ⟨fields, -, source, -, input, -, c, -, steps, -, heq⟩ := (hsettles.ok_iff events').mp he
    exact ⟨steps, heq⟩

/-- Hands over bodies up to a size. -/
def receiveUpTo (size : Nat) (body : List UInt8) : Except String (List UInt8) :=
  if body.length ≤ size then .ok body
  else .error "Request body exceeded settings.DATA_UPLOAD_MAX_MEMORY_SIZE."

theorem receives_receiveUpTo (size : Nat) : Receives (receiveUpTo size) size where
  handed_over _ h := if_pos h
  refused _ h := ⟨_, if_neg (Nat.not_le.mpr h)⟩

/-- A body that opens three containers inside each other. -/
def nestedBody : List UInt8 := "\x7b\"regex\": \"a\", \"index\": [[0]]\x7d".toUTF8.toList

theorem answered_by_parameters_nested :
    Receives (receiveUpTo 2621440) 2621440 ∧
      Answered { nesting := 2 } 2621440 .hint nestedBody
        (answer { receive := receiveUpTo 2621440 } { nesting := 2 }
          { endpoint := .hint, body := nestedBody }) ∧
      answer { receive := receiveUpTo 2621440 } { nesting := 2 }
          { endpoint := .hint, body := nestedBody } =
        .document 500 (.object [("error", .string <| "Server error: maximum recursion depth "
          ++ "exceeded while decoding a JSON array from a unicode string")]) := by
  refine ⟨receives_receiveUpTo _, ?_, ?_⟩
  · exact (answered_by_parameters (receives_receiveUpTo _) { nesting := 2 } .hint nestedBody).1
  · decide +kernel

/-- An index that a double cannot hold is not rejected, but lets the service fail. -/
theorem index_overflow_fails :
    Json.readBytes? "\x7b\"regex\": \"a\", \"index\": 1e400\x7d".toUTF8.toList =
        some (.object [("regex", .string "a"), ("index", .number (.decimal 1 400))]) ∧
      answer {} {} (post .hint "\x7b\"regex\": \"a\", \"index\": 1e400\x7d") =
        .document 500 (.object
          [("error", .string "Server error: cannot convert float infinity to integer")]) := by
  constructor <;> decide +kernel

end RegexDiagram.Service
