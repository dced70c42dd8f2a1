import IonSchedule.Yaml

/-! # YAML tokens

Besides scalars and marks, the tokens of a document hold what only its layout shows: where a block starts, where
it ends because a line is indented less, and which of its scalars are keys.
-/
namespace IonSchedule.Yaml

inductive Token where
  | scalar (quoted : Bool) (text : String)
  /-- The line `---`. -/
  | documentStart
  /-- The line `...`. -/
  | documentEnd
  /-- The start of a list whose items are led by dashes. -/
  | blockSequence
  /-- The start of a mapping whose entries stand on lines of their own. -/
  | blockMapping
  /-- The end of either. -/
  | blockEnd
  | openBracket
  | closeBracket
  | openBrace
  | closeBrace
  | comma
  | dash
  /-- The place before a key, whether or not a question mark stands there. -/
  | key
  | colon
deriving DecidableEq

/-! ## Characters -/

/-- The characters that a document may hold: no control characters but tabs and line breaks. -/
def isAllowed (c : Char) : Bool :=
  let n := c.toNat
  n = 0x09 || n = 0x0A || n = 0x0D || (0x20 ≤ n && n ≤ 0x7E) || n = 0x85 || (0xA0 ≤ n && n ≤ 0xFFFD) || 0x10000 ≤ n

def isBlank (c : Char) : Bool := c = ' ' || c = '\t'

/-- Line breaks, once `unifyBreaks` has been applied. -/
def isBreak (c : Char) : Bool := c = '\n' || c = '\u2028' || c = '\u2029'

/-- Writes carriage returns, alone or before a line feed, and next-line characters as line feeds. -/
def unifyBreaks : List Char → List Char
  | [] => []
  | '\r' :: '\n' :: rest => '\n' :: unifyBreaks rest
  | c :: rest => (if c = '\r' || c = '\u0085' then '\n' else c) :: unifyBreaks rest

/-- The characters of a document: a byte order mark in front is dropped and line breaks are unified. -/
def document? (cs : List Char) : Option (List Char) :=
  let cs := if cs.head? = some '\ufeff' then cs.drop 1 else cs
  if cs.all isAllowed then some (unifyBreaks cs) else none

/-- Whether nothing but a blank or the end of the line may come next. -/
def atGap : List Char → Bool
  | [] => true
  | c :: _ => isBlank c || isBreak c

/-- Whether the next characters are the mark that starts or ends a document. -/
def atDocumentMark : List Char → Bool
  | a :: b :: c :: rest => (a = '-' || a = '.') && a = b && a = c && atGap rest
  | _ => false

end IonSchedule.Yaml
