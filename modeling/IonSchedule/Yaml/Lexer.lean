import IonSchedule.Yaml.Scalar

/-! # From text to YAML tokens

A document is read from left to right, one character at a time. Whether a scalar is a key shows only at the
colon behind it, so the lexer remembers where a key may have started and puts the missing tokens there when the
colon comes. A key stands on one line with its colon and is at most `keyLength` characters long.
-/
namespace IonSchedule.Yaml

/-- A place where a key may have started. -/
structure KeyStart where
  /-- How many tokens come before it. -/
  index : Nat
  line : Nat
  column : Nat
  /-- Whether something else than a key would be out of place there. -/
  required : Bool

/-- What the lexer is in the middle of. Collected characters stand newest first. -/
inductive Mode where
  | idle
  | comment
  /-- Inside the mark of a document's start or end; `left` of its characters are still to come. -/
  | mark (left : Nat)
  /-- Inside a plain scalar, whose further lines must be indented by at least `least`. -/
  | plain (least : Nat) (chars : List Char) (gap : Gap)
  | single (chars : List Char) (gap : Gap)
  /-- At the second of two single quotes, which stand for one. -/
  | twice (chars : List Char)
  | double (chars : List Char) (gap : Gap)
  | escaped (chars : List Char)
  /-- Inside a numeric escape; `left` digits are still to come. -/
  | numeric (chars : List Char) (left : Nat) (value : Nat)

structure Lexer where
  mode : Mode
  line : Nat
  column : Nat
  /-- The tokens so far, newest first, and their number. -/
  tokens : List Token
  count : Nat
  /-- The columns of the open blocks, innermost first. -/
  blocks : List Nat
  /-- Where a key may have started inside the innermost open bracket, or outside of all. -/
  key : Option KeyStart
  /-- The same for what is around the innermost bracket, one for each open bracket. -/
  around : List (Option KeyStart)
  /-- Whether a key may start here. -/
  keyAllowed : Bool

namespace Lexer

def initial : Lexer := ⟨.idle, 0, 0, [], 0, [], none, [], true⟩

def inFlow (l : Lexer) : Bool := !l.around.isEmpty

def emit (l : Lexer) (t : Token) : Lexer := { l with tokens := t :: l.tokens, count := l.count + 1 }

/-- Puts a token after the first `index` ones. -/
def emitAt (l : Lexer) (index : Nat) (t : Token) : Lexer :=
  let later := l.count - index
  { l with tokens := l.tokens.take later ++ t :: l.tokens.drop later, count := l.count + 1 }

def advance (l : Lexer) (c : Char) : Lexer :=
  if isBreak c then { l with line := l.line + 1, column := 0 } else { l with column := l.column + 1 }

/-! ## Keys -/

/-- How far a key's colon may be from its start. -/
def keyLength : Nat := 1024

/-- Whether a key that started there can no longer be completed. -/
def isStale (l : Lexer) (k : KeyStart) : Bool := k.line < l.line || k.column + keyLength < l.column

def forgetStale? (l : Lexer) : Option KeyStart → Option (Option KeyStart)
  | none => some none
  | some k => if l.isStale k then (if k.required then none else some none) else some (some k)

/-- Forgets the places whose key can no longer be completed. -/
def dropStale? (l : Lexer) : Option Lexer := do
  let key ← l.forgetStale? l.key
  let around ← l.around.mapM l.forgetStale?
  return { l with key, around }

/-- Forgets where the innermost key may have started. -/
def dropKey? (l : Lexer) : Option Lexer :=
  match l.key with
  | none => some l
  | some k => if k.required then none else some { l with key := none }

/-- Remembers that a key may start here. -/
def saveKey? (l : Lexer) : Option Lexer :=
  if l.keyAllowed then
    l.dropKey?.map fun l =>
      { l with key := some ⟨l.count, l.line, l.column, !l.inFlow && l.blocks.head? = some l.column⟩ }
  else some l

def allowKey (l : Lexer) (allowed : Bool) : Lexer := { l with keyAllowed := allowed }

/-! ## Blocks -/

/-- Opens a block at a column if it is deeper than the innermost open one; its token goes after the first
`index` ones. -/
def openBlock (l : Lexer) (t : Token) (column index : Nat) : Lexer :=
  if l.inFlow || l.blocks.head?.any (column ≤ ·) then l
  else { l.emitAt index t with blocks := column :: l.blocks }

/-- Opens a block here, where a key or item of it starts. -/
def openBlockHere? (l : Lexer) (t : Token) : Option Lexer :=
  if l.inFlow then some l
  else if l.keyAllowed then some (l.openBlock t l.column l.count)
  else none

/-- Closes the innermost blocks as long as their column is one that `ends`. -/
def closeBlocks (l : Lexer) (ends : Nat → Bool) : Lexer :=
  if l.inFlow then l
  else
    let closed := l.blocks.takeWhile ends
    { l with
      blocks := l.blocks.dropWhile ends
      tokens := closed.map (fun _ => .blockEnd) ++ l.tokens
      count := l.count + closed.length }

/-! ## Marks -/

def documentMark? (l : Lexer) (c : Char) : Option Lexer := do
  let l ← (l.closeBlocks fun _ => true).dropKey?
  let l := l.emit (if c = '-' then .documentStart else .documentEnd)
  return { l with mode := .mark 2, keyAllowed := false }

def openBracket? (l : Lexer) (t : Token) : Option Lexer := do
  let l ← l.saveKey?
  return { l.emit t with key := none, around := l.key :: l.around, keyAllowed := true }

def closeBracket? (l : Lexer) (t : Token) : Option Lexer := do
  let l ← l.dropKey?
  return { l.emit t with key := l.around.head?.join, around := l.around.tail, keyAllowed := false }

def comma? (l : Lexer) : Option Lexer := do
  let l ← l.dropKey?
  return (l.emit .comma).allowKey true

def dash? (l : Lexer) : Option Lexer := do
  let l ← (← l.openBlockHere? .blockSequence).dropKey?
  return (l.emit .dash).allowKey true

def questionMark? (l : Lexer) : Option Lexer := do
  let l ← (← l.openBlockHere? .blockMapping).dropKey?
  return (l.emit .key).allowKey !l.inFlow

/-- A colon turns what came before it into a key. -/
def colon? (l : Lexer) : Option Lexer :=
  match l.key with
  | some k =>
    let l := (l.emitAt k.index .key).openBlock .blockMapping k.column k.index
    some { l.emit .colon with key := none, keyAllowed := false }
  | none => do
    let l ← l.openBlockHere? .blockMapping
    return (l.emit .colon).allowKey !l.inFlow

def scalar? (l : Lexer) (mode : Mode) : Option Lexer := do
  let l ← l.saveKey?
  return { l with mode, keyAllowed := false }

/-- The characters that have a meaning of their own and start no plain scalar. -/
def indicators : List Char :=
  ['-', '?', ':', ',', '[', ']', '{', '}', '#', '&', '*', '!', '|', '>', '\'', '"', '%', '@', '\x60']

/-- Whether a plain scalar starts with a character. -/
def startsPlain (l : Lexer) (c : Char) (rest : List Char) : Bool :=
  !indicators.contains c && !atGap [c] || c = '-' && !atGap rest || !l.inFlow && (c = '?' || c = ':') && !atGap rest

/-- The columns that lie deeper than the innermost open block. -/
def deeper (l : Lexer) : Nat := (l.blocks.head?.map (· + 1)).getD 0

def token? (l : Lexer) (c : Char) (rest : List Char) : Option Lexer :=
  if l.column = 0 && atDocumentMark (c :: rest) then l.documentMark? c
  else if c = '[' then l.openBracket? .openBracket
  else if c = '{' then l.openBracket? .openBrace
  else if c = ']' then l.closeBracket? .closeBracket
  else if c = '}' then l.closeBracket? .closeBrace
  else if c = ',' then l.comma?
  else if c = '-' && atGap rest then l.dash?
  else if c = '?' && (l.inFlow || atGap rest) then l.questionMark?
  else if c = ':' && (l.inFlow || atGap rest) then l.colon?
  else if c = '\'' then l.scalar? (.single [] .empty)
  else if c = '"' then l.scalar? (.double [] .empty)
  else if l.startsPlain c rest then l.scalar? (.plain l.deeper [c] .empty)
  else none

def endLine (l : Lexer) : Lexer := { l with mode := .idle, keyAllowed := l.keyAllowed || !l.inFlow }

/-- Skips blanks and comments between tokens, or starts a token. A tab is not skipped where it could be taken for
indentation. -/
def idle? (l : Lexer) (c : Char) (rest : List Char) : Option Lexer :=
  if c = ' ' || c = '\t' && (l.inFlow || !l.keyAllowed) then some l
  else if c = '#' then some { l with mode := .comment }
  else if isBreak c then some l.endLine
  else l.dropStale?.bind fun l => (l.closeBlocks (l.column < ·)).token? c rest

/-! ## Scalars -/

def endScalar (l : Lexer) (quoted : Bool) (chars : List Char) : Lexer :=
  { l.emit (.scalar quoted (String.ofList chars.reverse)) with mode := .idle }

/-- Ends a plain scalar: the gap behind it is dropped, and a key may start on a new line. -/
def endPlain (l : Lexer) (chars : List Char) (gap : Gap) : Lexer :=
  (l.endScalar false chars).allowKey (l.keyAllowed || gap.isBroken)

/-- Whether a plain scalar ends before a word because of where the word stands, or because it is a comment. -/
def endsBefore (l : Lexer) (least : Nat) (c : Char) (rest : List Char) : Bool :=
  !l.inFlow && l.column < least || l.column = 0 && atDocumentMark (c :: rest) || c = '#'

def plain? (l : Lexer) (least : Nat) (chars : List Char) (gap : Gap) (c : Char) (rest : List Char) : Option Lexer :=
  if atGap [c] then
    if gap.isBroken && c = '\t' && l.column < least then none
    else some { l with mode := .plain least chars (gap.add c) }
  else if !gap.isEmpty && l.endsBefore least c rest then (l.endPlain chars gap).idle? c rest
  else if l.inFlow && c = ':' && rest.head?.any [',', '?', '[', ']', '{', '}'].contains then none
  else if c = ':' && atGap rest || l.inFlow && [',', '[', ']', '{', '}'].contains c then
    (l.endPlain chars gap).idle? c rest
  else some { l with mode := .plain least (c :: (gap.folded ++ chars)) .empty }

def single? (l : Lexer) (chars : List Char) (gap : Gap) (c : Char) (rest : List Char) : Option Lexer :=
  if l.column = 0 && atDocumentMark (c :: rest) then none
  else if atGap [c] then some { l with mode := .single chars (gap.add c) }
  else
    let chars := gap.folded ++ chars
    if c ≠ '\'' then some { l with mode := .single (c :: chars) .empty }
    else if rest.head? = some '\'' then some { l with mode := .twice chars }
    else some (l.endScalar true chars)

def double? (l : Lexer) (chars : List Char) (gap : Gap) (c : Char) (rest : List Char) : Option Lexer :=
  if l.column = 0 && atDocumentMark (c :: rest) then none
  else if atGap [c] then some { l with mode := .double chars (gap.add c) }
  else
    let chars := gap.folded ++ chars
    if c = '"' then some (l.endScalar true chars)
    else if c = '\\' then some { l with mode := .escaped chars }
    else some { l with mode := .double (c :: chars) .empty }

/-- Reads what a backslash escapes. An escaped line break is dropped with the blanks of the next line. -/
def escaped? (l : Lexer) (chars : List Char) (c : Char) : Option Lexer :=
  if isBreak c then some { l with mode := .double chars (.breaks none []) }
  else
    match escapeWidth? c with
    | some width => some { l with mode := .numeric chars width 0 }
    | none => (unescape? c).map fun d => { l with mode := .double (d :: chars) .empty }

def numeric? (l : Lexer) (chars : List Char) (left value : Nat) (c : Char) : Option Lexer := do
  let value := 16 * value + (← Hexadecimal.value? c)
  if left ≤ 1 then return { l with mode := .double ((← ofCodePoint? value) :: chars) .empty }
  else return { l with mode := .numeric chars (left - 1) value }

/-- Takes in one character; `rest` is what comes after it. -/
def consume? (l : Lexer) (c : Char) (rest : List Char) : Option Lexer :=
  match l.mode with
  | .idle => l.idle? c rest
  | .comment => some (if isBreak c then l.endLine else l)
  | .mark left => some { l with mode := if left ≤ 1 then .idle else .mark (left - 1) }
  | .plain least chars gap => l.plain? least chars gap c rest
  | .single chars gap => l.single? chars gap c rest
  | .twice chars => some { l with mode := .single ('\'' :: chars) .empty }
  | .double chars gap => l.double? chars gap c rest
  | .escaped chars => l.escaped? chars c
  | .numeric chars left value => l.numeric? chars left value c

/-- Ends the text. No quotes may be open. -/
def finish? (l : Lexer) : Option (List Token) := do
  let l ←
    match l.mode with
    | .idle | .comment => some l
    | .plain _ chars gap => some (l.endPlain chars gap)
    | _ => none
  let l ← (← l.dropStale?).dropKey?
  return (l.closeBlocks fun _ => true).tokens.reverse

def run? : Lexer → List Char → Option (List Token)
  | l, [] => l.finish?
  | l, c :: rest => (l.consume? c rest).bind fun l => (l.advance c).run? rest

end Lexer

def Token.ofChars? (cs : List Char) : Option (List Token) := (document? cs).bind Lexer.initial.run?

end IonSchedule.Yaml
