import IonSchedule.Yaml.Lexer

/-! # Reading YAML

Tokens are read by a stack machine. Its stack holds the lists and mappings that are open, innermost first, each
with what it waits for. An item, key or value may be left out; the token that comes instead shows that, so
before a token is taken in, what it shows to be missing is filled in with `blank`.
-/
namespace IonSchedule.Yaml

/-- How the end of a list or mapping shows. -/
inductive Layout where
  /-- By a closing bracket. -/
  | flow
  /-- By the indentation. -/
  | block
  /-- By the next token alone. So ends a list whose dashes stand right below the key it belongs to, and a
  mapping of one entry that stands without braces in a list. -/
  | bare
deriving DecidableEq

/-- Where the reader is in a mapping. -/
inductive Place where
  | entry
  | after
  | key
  | colon (key : Yaml)
  | value (key : Yaml)

/-- An open list or mapping; what it holds so far stands newest first. -/
inductive Frame where
  /-- A list, which waits for an item, or for what has to come before the next one. -/
  | sequence (layout : Layout) (items : List Yaml) (waiting : Bool)
  | mapping (layout : Layout) (entries : List (Yaml × Yaml)) (place : Place)

/-- A reader: the open lists and mappings and, when all are closed, the value that was read. -/
structure Reader where
  stack : List Frame
  root : Option Yaml

namespace Reader

def start : Reader := ⟨[], none⟩

/-- Hands a value to the innermost open list or mapping, if that waits for one. Between braces a value alone is
a key. -/
def put? (v : Yaml) : List Frame → Option Reader
  | [] => some ⟨[], some v⟩
  | .sequence layout items true :: stack => some ⟨.sequence layout (v :: items) false :: stack, none⟩
  | .mapping layout entries .key :: stack => some ⟨.mapping layout entries (.colon v) :: stack, none⟩
  | .mapping .block entries (.value k) :: stack => some ⟨.mapping .block ((k, v) :: entries) .entry :: stack, none⟩
  | .mapping .flow entries (.value k) :: stack => some ⟨.mapping .flow ((k, v) :: entries) .after :: stack, none⟩
  | .mapping .bare _ (.value k) :: stack => put? (.mapping [(k, v)]) stack
  | .mapping .flow entries .entry :: stack => some ⟨.mapping .flow ((v, blank) :: entries) .after :: stack, none⟩
  | _ => none

/-- Whether a value may come next. -/
def waits (r : Reader) : Bool :=
  match r.stack with
  | [] => r.root.isNone
  | .sequence _ _ waiting :: _ => waiting
  | .mapping _ _ .key :: _ => true
  | .mapping _ _ (.value _) :: _ => true
  | .mapping .flow _ .entry :: _ => true
  | _ => false

/-- The tokens that show, when they come instead of an item, key or value, that it is left out. -/
def ends : Frame → List Token
  | .sequence .block _ true => [.dash, .blockEnd]
  | .sequence .bare _ true => [.dash, .key, .colon, .blockEnd]
  | .mapping .block _ .key => [.key, .colon, .blockEnd]
  | .mapping .block _ (.value _) => [.key, .colon, .blockEnd]
  | .mapping .flow _ .key => [.colon, .comma, .closeBrace]
  | .mapping .flow _ (.value _) => [.comma, .closeBrace]
  | .mapping .bare _ (.value _) => [.comma, .closeBracket]
  | _ => []

/-- Fills in an item, key or value that is left out. -/
def fill? (t : Token) (r : Reader) : Option Reader :=
  match r.stack with
  | frame :: _ => if (ends frame).contains t then put? blank r.stack else some r
  | [] => some r

/-- Ends a list whose end shows by the next token alone. -/
def close? (t : Token) (r : Reader) : Option Reader :=
  match r.stack with
  | .sequence .bare items false :: stack => if t = .dash then some r else put? (.sequence items.reverse) stack
  | _ => some r

/-- Fills in the value of a key that no colon follows. -/
def fillValue? (t : Token) (r : Reader) : Option Reader :=
  match r.stack with
  | .mapping layout entries (.colon k) :: stack =>
    if t = .colon then some r else put? blank (.mapping layout entries (.value k) :: stack)
  | _ => some r

def push? (frame : Frame) (r : Reader) : Option Reader :=
  if r.waits then some { r with stack := frame :: r.stack } else none

/-- Takes in a token once nothing before it is missing. In a mapping of one entry without braces, the token that
comes instead of a key is dropped. -/
def accept? (r : Reader) : Token → Option Reader
  | .scalar quoted text => if r.waits then put? (.scalar quoted text) r.stack else none
  | .openBracket => r.push? (.sequence .flow [] true)
  | .openBrace => r.push? (.mapping .flow [] .entry)
  | .blockSequence => r.push? (.sequence .block [] false)
  | .blockMapping => r.push? (.mapping .block [] .entry)
  | .blockEnd =>
    match r.stack with
    | .sequence .block items false :: stack => put? (.sequence items.reverse) stack
    | .mapping .block entries .entry :: stack => put? (.mapping entries.reverse) stack
    | _ => none
  | .closeBracket =>
    match r.stack with
    | .sequence .flow items _ :: stack => put? (.sequence items.reverse) stack
    | .mapping .bare entries .key :: stack =>
      some { r with stack := .mapping .bare entries (.colon blank) :: stack }
    | _ => none
  | .closeBrace =>
    match r.stack with
    | .mapping .flow entries .entry :: stack => put? (.mapping entries.reverse) stack
    | .mapping .flow entries .after :: stack => put? (.mapping entries.reverse) stack
    | _ => none
  | .comma =>
    match r.stack with
    | .sequence .flow items false :: stack => some { r with stack := .sequence .flow items true :: stack }
    | .mapping .flow entries .after :: stack => some { r with stack := .mapping .flow entries .entry :: stack }
    | .mapping .bare entries .key :: stack =>
      some { r with stack := .mapping .bare entries (.colon blank) :: stack }
    | _ => none
  | .dash =>
    match r.stack with
    | .sequence .block items false :: stack => some { r with stack := .sequence .block items true :: stack }
    | .sequence .bare items false :: stack => some { r with stack := .sequence .bare items true :: stack }
    | .mapping .block _ .key :: _ => r.push? (.sequence .bare [] true)
    | .mapping .block _ (.value _) :: _ => r.push? (.sequence .bare [] true)
    | _ => none
  | .key =>
    match r.stack with
    | .mapping .block entries .entry :: stack => some { r with stack := .mapping .block entries .key :: stack }
    | .mapping .flow entries .entry :: stack => some { r with stack := .mapping .flow entries .key :: stack }
    | .sequence .flow _ true :: _ => r.push? (.mapping .bare [] .key)
    | _ => none
  | .colon =>
    match r.stack with
    | .mapping layout entries (.colon k) :: stack =>
      some { r with stack := .mapping layout entries (.value k) :: stack }
    | .mapping .bare entries .key :: stack =>
      some { r with stack := .mapping .bare entries (.colon blank) :: stack }
    | _ => none
  | .documentStart => none
  | .documentEnd => none

def step? (r : Reader) (t : Token) : Option Reader := do
  let r ← r.fill? t
  let r ← r.close? t
  let r ← r.fillValue? t
  r.accept? t

/-- The value that was read, if nothing is open. -/
def result? (r : Reader) : Option Yaml := if r.stack.isEmpty then r.root else none

end Reader

def ofTokens? (ts : List Token) : Option Yaml := (ts.foldlM Reader.step? Reader.start).bind Reader.result?

/-- Whether a token stands between documents. -/
def Token.isDocumentMark (t : Token) : Bool := t = .documentStart || t = .documentEnd

/-- The value of the only document in a list of tokens. The document may have a start mark and any number of end
marks; it is blank if there is nothing in it. -/
def ofDocument? (ts : List Token) : Option Yaml :=
  let content := if ts.head? = some .documentStart then ts.tail else ts
  let body := content.takeWhile (!·.isDocumentMark)
  if (content.dropWhile (!·.isDocumentMark)).all (· = .documentEnd) then
    if body.isEmpty && ts.head? ≠ some .documentEnd then some blank else ofTokens? body
  else none

def parse? (text : String) : Option Yaml := (Token.ofChars? text.toList).bind ofDocument?

end IonSchedule.Yaml
