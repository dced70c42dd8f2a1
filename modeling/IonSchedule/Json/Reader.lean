import IonSchedule.Json.Token

/-! # Reading JSON

Tokens are read by a stack machine. The stack holds the arrays and objects that are open, innermost first; the
state says what may come next. A text is a value when its tokens lead from `start` to `done`. Arrays and objects
that are nested deeper than the limit says can be skipped but not read.
-/
namespace IonSchedule.Json

/-- The entries of an open object, newest first. There are none to be had once a key could not be read. -/
abbrev Entries := Option (List (String × Json))

def Entries.add (key : Option String) (v : Json) (entries : Entries) : Entries :=
  key.bind fun key => entries.map ((key, v) :: ·)

/-- An open array or object whose next value is awaited; what it holds so far stands newest first. -/
inductive Frame where
  | array (items : List Json)
  | object (entries : Entries) (key : Option String)

/-- What may come next, with the stack of open arrays and objects around it. -/
inductive Reader where
  | value (stack : List Frame)
  /-- The first value of an array, or its end. -/
  | firstItem (stack : List Frame)
  /-- The end of an array, or a comma and another value. -/
  | afterItem (items : List Json) (stack : List Frame)
  /-- The first key of an object, or its end. -/
  | firstKey (stack : List Frame)
  | nextKey (entries : Entries) (stack : List Frame)
  /-- The colon after a key. -/
  | colon (entries : Entries) (key : Option String) (stack : List Frame)
  /-- The end of an object, or a comma and another key. -/
  | afterEntry (entries : Entries) (stack : List Frame)
  | done (value : Json)

namespace Reader

def start : Reader := .value []

/-- Hands a finished value to the innermost open array or object. -/
def complete (v : Json) : List Frame → Reader
  | [] => .done v
  | .array items :: stack => .afterItem (v :: items) stack
  | .object entries key :: stack => .afterEntry (entries.add key v) stack

def endArray (limit : Nat) (items : List Json) (stack : List Frame) : Reader :=
  complete (if stack.length < limit then .array items.reverse else .unreadable) stack

def endObject (limit : Nat) (entries : Entries) (stack : List Frame) : Reader :=
  match entries with
  | some entries => complete (if stack.length < limit then .object entries.reverse else .unreadable) stack
  | none => complete .unreadable stack

/-- Begins a value with its first token. -/
def open? (stack : List Frame) : Token → Option Reader
  | .openBracket => some (.firstItem stack)
  | .openBrace => some (.firstKey stack)
  | .null => some (complete .null stack)
  | .bool b => some (complete (.bool b) stack)
  | .number n => some (complete (.number n) stack)
  | .string text => some (complete (text.elim .unreadable .string) stack)
  | _ => none

def step? (limit : Nat) : Reader → Token → Option Reader
  | .value stack, t => open? stack t
  | .firstItem stack, .closeBracket => some (endArray limit [] stack)
  | .firstItem stack, t => open? (.array [] :: stack) t
  | .afterItem items stack, .closeBracket => some (endArray limit items stack)
  | .afterItem items stack, .comma => some (.value (.array items :: stack))
  | .firstKey stack, .closeBrace => some (endObject limit (some []) stack)
  | .firstKey stack, .string key => some (.colon (some []) key stack)
  | .nextKey entries stack, .string key => some (.colon entries key stack)
  | .colon entries key stack, .colon => some (.value (.object entries key :: stack))
  | .afterEntry entries stack, .closeBrace => some (endObject limit entries stack)
  | .afterEntry entries stack, .comma => some (.nextKey entries stack)
  | _, _ => none

def result? : Reader → Option Json
  | .done v => some v
  | _ => none

end Reader

def ofTokens? (limit : Nat) (ts : List Token) : Option Json :=
  (ts.foldlM (Reader.step? limit) Reader.start).bind Reader.result?

def maxDepth : Nat := 127

/-- The value of a text, of which what is nested deeper than `limit` cannot be read. -/
def parseWithin? (limit : Nat) (text : String) : Option Json := (Token.ofChars? text.toList).bind (ofTokens? limit)

def parse? (text : String) : Option Json := parseWithin? maxDepth text

end IonSchedule.Json
