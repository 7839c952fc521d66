import RegexDiagram.Document
import RegexDiagram.Json.Reader
import RegexDiagram.Json.Whole

/-!
The service answers requests whose bodies are JSON objects: to compile a regex, to explain one of
its lexemes, to take one step of a run, and to stream a whole run as events. A request that cannot
be used is rejected with the first reason that applies.
-/
namespace RegexDiagram.Service

/-- Why a request is rejected. -/
inductive Rejection
  | invalidJson
  | notObject
  | missingRegex
  | regexNotString
  | regexTooLong (limit : Nat)
  | inputNotString
  | inputTooLong (limit : Nat)
  | missingIndex
  | indexNotInteger
  | positionNotInteger
  | positionNegative
  | currentNotList
  | unknownNode
  | controlNode
deriving DecidableEq

def Rejection.message : Rejection → String
  | invalidJson => "<invalid JSON>"
  | notObject => "Request body must be a JSON object"
  | missingRegex => "Missing regex parameter"
  | regexNotString => "regex must be a string"
  | regexTooLong limit => "regex is longer than " ++ toString limit ++ " characters"
  | inputNotString => "input must be a string"
  | inputTooLong limit => "input is longer than " ++ toString limit ++ " characters"
  | missingIndex => "Missing index parameter"
  | indexNotInteger => "index must be an integer"
  | positionNotInteger => "position must be an integer"
  | positionNegative => "position must not be negative"
  | currentNotList => "current must be a list of node indexes"
  | unknownNode => "current contains an unknown node index"
  | controlNode => "current must only contain value nodes"

/-- Why a request is not answered. -/
inductive Failure
  | rejected (r : Rejection)
  | internal (message : String)
deriving DecidableEq

namespace Failure

def status : Failure → Nat
  | rejected _ => 400
  | internal _ => 500

def message : Failure → String
  | rejected r => r.message
  | internal message => "Server error: " ++ message

def document (f : Failure) : Json := .object [("error", .string f.message)]

/-- An infinite number cannot be made whole. -/
def infinite : Failure := internal "cannot convert float infinity to integer"

/-- The containers of a body cannot be nested without limit. -/
def tooDeep (c : Json.Container) : Failure :=
  internal
    ("maximum recursion depth exceeded while decoding a JSON " ++ c.name ++ " from a unicode string")

end Failure

inductive Endpoint
  | compile
  | hint
  | simulate
  | stream
deriving DecidableEq

structure Request where
  endpoint : Endpoint
  method : String := "POST"
  body : List UInt8

structure Limits where
  regex : Nat := 1000
  input : Nat := 10000
  /-- How many containers of a body may be open at once. -/
  nesting : Nat := 960

/-- What the service rests on. Each part may fail with a message. -/
structure Engine where
  /-- Hands over the body of a request. -/
  receive : List UInt8 → Except String (List UInt8) := .ok
  compile : List Char → Except String Compiled :=
    fun source => (RegexDiagram.compile source).mapError (·.message)
  run : Automaton → List Char → Except String (List RunStep) :=
    fun a input => (a.run input).mapError (·.message)

inductive Reply
  | notAllowed (allowed : String)
  | document (status : Nat) (body : Json)
  | events (status : Nat) (events : List Json)
deriving DecidableEq

/-! ## Parameters -/

def readBody (nesting : Nat) (body : List UInt8) : Except Failure (List (String × Json)) :=
  match Json.readBytes nesting body with
  | .ok (.object fields) => .ok fields
  | .ok _ => .error (.rejected .notObject)
  | .error .malformed => .error (.rejected .invalidJson)
  | .error (.tooDeep c) => .error (.tooDeep c)

def readRegex (limits : Limits) (fields : List (String × Json)) : Except Failure (List Char) :=
  match Json.lookup "regex" fields with
  | none => .error (.rejected .missingRegex)
  | some .null => .error (.rejected .missingRegex)
  | some (.string s) =>
      if limits.regex < s.length then .error (.rejected (.regexTooLong limits.regex))
      else .ok s.toList
  | some _ => .error (.rejected .regexNotString)

/-- The input is empty if there is none. -/
def readInput (limits : Limits) (fields : List (String × Json)) : Except Failure (List Char) :=
  match Json.lookup "input" fields with
  | none => .ok []
  | some (.string s) =>
      if limits.input < s.length then .error (.rejected (.inputTooLong limits.input))
      else .ok s.toList
  | some _ => .error (.rejected .inputNotString)

/-- A whole number, or else the given rejection. -/
def readWhole (r : Rejection) (j : Json) : Except Failure Int :=
  match j.whole with
  | .ok n => .ok n
  | .error .notWhole => .error (.rejected r)
  | .error .infinite => .error .infinite

def readIndex (fields : List (String × Json)) : Except Failure Int :=
  match Json.lookup "index" fields with
  | none => .error (.rejected .missingIndex)
  | some .null => .error (.rejected .missingIndex)
  | some j => readWhole .indexNotInteger j

/-- The position is zero if there is none. -/
def readPosition (fields : List (String × Json)) : Except Failure Nat := do
  let n ← readWhole .positionNotInteger ((Json.lookup "position" fields).getD (Json.ofNat 0))
  if n < 0 then .error (.rejected .positionNegative) else .ok n.toNat

/-- The node at an index that a request gives. -/
def readNode (a : Automaton) (n : Int) : Except Failure (Nat × Node) :=
  if n < 0 then .error (.rejected .unknownNode)
  else
    match a.nodes[n.toNat]? with
    | some node => .ok (n.toNat, node)
    | none => .error (.rejected .unknownNode)

/-- The value nodes of an automaton that a request lists. -/
def readCurrent (a : Automaton) : Json → Except Failure (List Nat)
  | .array items => do
      let indexes ← items.mapM (readWhole .currentNotList)
      let nodes ← indexes.mapM (readNode a)
      if nodes.all fun (_, n) => n.value?.isSome then .ok (nodes.map (·.1))
      else .error (.rejected .controlNode)
  | _ => .error (.rejected .currentNotList)

/-! ## Endpoints -/

variable (engine : Engine) (limits : Limits) (fields : List (String × Json))

def receiveBody (body : List UInt8) : Except Failure (List (String × Json)) :=
  ((engine.receive body).mapError .internal).bind (readBody limits.nesting)

def compileRegex (source : List Char) : Except Failure Compiled :=
  (engine.compile source).mapError .internal

def answerCompile : Except Failure Json := do
  let source ← readRegex limits fields
  let compiled ← compileRegex engine source
  return Document.compiled compiled

def answerHint : Except Failure Json := do
  let source ← readRegex limits fields
  let index ← readIndex fields
  let compiled ← compileRegex engine source
  return Document.hint (compiled.hint index)

/-- The step that a request asks for. Without current nodes it is the initial one. -/
def chosenStep (a : Automaton) (input : List Char) : Except Failure RunStep :=
  match Json.lookup "current" fields with
  | none => .ok a.start
  | some .null => .ok a.start
  | some current => do
      let position ← readPosition fields
      let nodes ← readCurrent a current
      (a.step nodes input position).mapError fun e => .internal e.message

def answerSimulate : Except Failure Json := do
  let source ← readRegex limits fields
  let input ← readInput limits fields
  let compiled ← compileRegex engine source
  let step ← chosenStep fields compiled.automaton input
  let graph := compiled.highlight step compiled.graph
  return .object <|
    Document.step step ++ [("graph_run_classes", Json.ofList Json.string graph.runClasses)]

/-- The events of a run. The initial step is at position -1, where nothing is consumed. -/
def runEvents : Except String (List RunStep) → List Json
  | .ok steps =>
      steps.mapIdx (fun i s =>
        .object (Document.step s ++ [("position", Json.ofInt ((i : Int) - 1))]))
      ++ [.object [("type", .string "end")]]
  | .error message => [.object [("type", .string "error"), ("message", .string message)]]

def answerStream : Except Failure (List Json) := do
  let source ← readRegex limits fields
  let input ← readInput limits fields
  let compiled ← compileRegex engine source
  return runEvents (engine.run compiled.automaton input)

def documentReply : Except Failure Json → Reply
  | .ok body => .document 200 body
  | .error f => .document f.status f.document

/-- A reply of events. A failure is a single event. -/
def eventsReply : Except Failure (List Json) → Reply
  | .ok events => .events 200 events
  | .error f => .events f.status [f.document]

/-- Answers one request. The case of letters in its method does not count. -/
def answer (r : Request) : Reply :=
  if r.method.toUpper ≠ "POST" then .notAllowed "POST"
  else
    let fields := receiveBody engine limits r.body
    match r.endpoint with
    | .compile => documentReply (fields.bind (answerCompile engine limits))
    | .hint => documentReply (fields.bind (answerHint engine limits))
    | .simulate => documentReply (fields.bind (answerSimulate engine limits))
    | .stream => eventsReply (fields.bind (answerStream engine limits))

end RegexDiagram.Service
