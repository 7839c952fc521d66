import RegexDiagram.Json.Encoding
import RegexDiagram.Json.Lexer

/-!
Reads JSON documents in one pass over their lexemes, with the containers that are still open on a
stack. The stack may be limited: a container that finds no place on it ends the reading, whatever
comes behind it.
-/
namespace RegexDiagram.Json

inductive Container
  | array
  | object
deriving DecidableEq

def Container.name : Container → String
  | array => "array"
  | object => "object"

/-- Why a text is not read. -/
inductive ReadError
  | malformed
  | tooDeep (c : Container)
deriving DecidableEq

/-- A container that is still open. What it holds so far is in reverse. -/
inductive Frame
  | array (items : List Json)
  | object (fields : List (String × Json))
  /-- An object whose last field still lacks its value. -/
  | field (fields : List (String × Json)) (key : String)

/-- What may come next. -/
inductive Reader
  | value (stack : List Frame)
  /-- After an opening bracket: an item or the closing bracket. -/
  | firstItem (stack : List Frame)
  /-- After an opening brace: a key or the closing brace. -/
  | firstKey (stack : List Frame)
  | key (fields : List (String × Json)) (stack : List Frame)
  | colon (fields : List (String × Json)) (key : String) (stack : List Frame)
  /-- After a value inside a container: a comma or the end of the container. -/
  | separator (stack : List Frame)
  | done (j : Json)

namespace Reader

/-- Puts a finished value in its place. -/
def complete (j : Json) : List Frame → Except ReadError Reader
  | [] => .ok (done j)
  | .array items :: stack => .ok (separator (.array (j :: items) :: stack))
  | .field fields k :: stack => .ok (separator (.object ((k, j) :: fields) :: stack))
  | .object _ :: _ => .error .malformed

/-- Inside a container that has just been opened. -/
def opened : Container → List Frame → Reader
  | .array, stack => firstItem stack
  | .object, stack => firstKey stack

/-- Opens a container if fewer than `nesting` are open. -/
def enter (nesting : Nat) (c : Container) (stack : List Frame) : Except ReadError Reader :=
  if stack.length < nesting then .ok (opened c stack) else .error (.tooDeep c)

def startValue (nesting : Nat) (stack : List Frame) : Lexeme → Except ReadError Reader
  | .openArray => enter nesting .array stack
  | .openObject => enter nesting .object stack
  | .null => complete .null stack
  | .bool b => complete (.bool b) stack
  | .number n => complete (.number n) stack
  | .text s => complete (.string s) stack
  | _ => .error .malformed

def step (nesting : Nat) : Reader → Lexeme → Except ReadError Reader
  | value stack, l => startValue nesting stack l
  | firstItem stack, .closeArray => complete (.array []) stack
  | firstItem stack, l => startValue nesting (.array [] :: stack) l
  | firstKey stack, .closeObject => complete (.object []) stack
  | firstKey stack, .text s => .ok (colon [] s stack)
  | key fields stack, .text s => .ok (colon fields s stack)
  | colon fields k stack, .colon => .ok (value (.field fields k :: stack))
  | separator (.array items :: stack), .comma => .ok (value (.array items :: stack))
  | separator (.array items :: stack), .closeArray => complete (.array items.reverse) stack
  | separator (.object fields :: stack), .comma => .ok (key fields stack)
  | separator (.object fields :: stack), .closeObject => complete (.object fields.reverse) stack
  | _, _ => .error .malformed

def run (nesting : Nat) (r : Reader) : List Lexeme → Except ReadError Reader
  | [] => .ok r
  | l :: ls => (r.step nesting l).bind (run nesting · ls)

def document : Reader → Except ReadError Json
  | done j => .ok j
  | _ => .error .malformed

end Reader

/-- Reads lexemes that are one JSON document, with at most `nesting` containers open at once. -/
def readLexemes (nesting : Nat) (ls : List Lexeme) : Except ReadError Json :=
  ((Reader.value []).run nesting ls).bind Reader.document

/-- Reads a text that is one JSON document. No more containers can be open than there are lexemes,
as each is opened by one. -/
def read? (cs : List Char) : Option Json :=
  let ls := Lexeme.readAll cs
  (readLexemes ls.length ls).toOption

/-- Reads bytes that are one JSON document in some encoding. -/
def readBytes? (bytes : List UInt8) : Option Json := (Encoding.text? bytes).bind read?

/-- Reads bytes that are one JSON document in some encoding, as long as it is not nested too
deep. -/
def readBytes (nesting : Nat) (bytes : List UInt8) : Except ReadError Json :=
  match Encoding.text? bytes with
  | none => .error .malformed
  | some cs => readLexemes nesting (Lexeme.readAll cs)

end RegexDiagram.Json
