import IonSchedule.Hexadecimal
import IonSchedule.Json

/-! # JSON tokens

A text is read from left to right, one character at a time. The lexer is a small machine: its mode says what it
is in the middle of, and it collects the tokens that are complete. Every character is consumed by exactly one
`step`, so the tokens of a text are a fold over its characters.
-/
namespace IonSchedule.Json

/-- The brackets, separators and scalars of a JSON text. -/
inductive Token where
  | openBrace
  | closeBrace
  | openBracket
  | closeBracket
  | colon
  | comma
  | null
  | bool (value : Bool)
  | number (literal : Literal)
  /-- A string, with its text if that is a sequence of characters. -/
  | string (text : Option String)
deriving DecidableEq

namespace Token

/-! ## Strings

An escape `\uXXXX` names a UTF-16 code unit. The two halves of a surrogate pair give one character; a half that
stands alone gives none. -/

/-- The text of an open string, newest character first. -/
inductive Text where
  | chars (cs : List Char)
  /-- The characters, and after them the first half of a surrogate pair. -/
  | half (cs : List Char) (high : Nat)
  /-- Half of a surrogate pair stood alone. -/
  | broken

namespace Text

def push (c : Char) : Text → Text
  | .chars cs => .chars (c :: cs)
  | _ => .broken

def isHigh (unit : Nat) : Bool := 0xD800 ≤ unit && unit < 0xDC00

def isLow (unit : Nat) : Bool := 0xDC00 ≤ unit && unit < 0xE000

def ofPair (high low : Nat) : Nat := 0x10000 + (high - 0xD800) * 0x400 + (low - 0xDC00)

def pushUnit (unit : Nat) : Text → Text
  | .chars cs =>
    if isHigh unit then .half cs unit
    else if isLow unit then .broken
    else .chars (Char.ofNat unit :: cs)
  | .half cs high => if isLow unit then .chars (Char.ofNat (ofPair high unit) :: cs) else .broken
  | .broken => .broken

def result? : Text → Option String
  | .chars cs => some (String.ofList cs.reverse)
  | _ => none

end Text

/-! ## The machine -/

/-- What the lexer is in the middle of. Collected characters stand newest first. -/
inductive Mode where
  | idle
  | word (letters : List Char)
  | number (chars : List Char)
  | string (text : Text)
  | escaped (text : Text)
  /-- Inside `\uXXXX`: `left` hexadecimal digits are still to come. -/
  | unicode (text : Text) (left : Nat) (value : Nat)

/-- A lexer: its mode and the tokens so far, newest first. -/
structure Lexer where
  mode : Mode
  tokens : List Token

namespace Lexer

def initial : Lexer := ⟨.idle, []⟩

def emit (tokens : List Token) (t : Token) : Lexer := ⟨.idle, t :: tokens⟩

def isBlank (c : Char) : Bool := c = ' ' || c = '\t' || c = '\r' || c = '\n'

def isNumberChar (c : Char) : Bool := c.isDigit || c = '+' || c = '-' || c = '.' || c = 'e' || c = 'E'

def isLetter (c : Char) : Bool := 'a' ≤ c && c ≤ 'z'

def ofWord? (letters : List Char) : Option Token :=
  if letters = ['n', 'u', 'l', 'l'] then some .null
  else if letters = ['t', 'r', 'u', 'e'] then some (.bool true)
  else if letters = ['f', 'a', 'l', 's', 'e'] then some (.bool false)
  else none

/-- Starts a token, or skips a blank. -/
def start? (tokens : List Token) (c : Char) : Option Lexer :=
  if isBlank c then some ⟨.idle, tokens⟩
  else if c = '{' then some (emit tokens .openBrace)
  else if c = '}' then some (emit tokens .closeBrace)
  else if c = '[' then some (emit tokens .openBracket)
  else if c = ']' then some (emit tokens .closeBracket)
  else if c = ':' then some (emit tokens .colon)
  else if c = ',' then some (emit tokens .comma)
  else if c = '"' then some ⟨.string (.chars []), tokens⟩
  else if c = '-' || c.isDigit then some ⟨.number [c], tokens⟩
  else if isLetter c then some ⟨.word [c], tokens⟩
  else none

/-- The character behind a one-letter escape. -/
def unescape? (c : Char) : Option Char :=
  if c = '"' || c = '\\' || c = '/' then some c
  else if c = 'b' then some '\x08'
  else if c = 'f' then some '\x0c'
  else if c = 'n' then some '\n'
  else if c = 'r' then some '\r'
  else if c = 't' then some '\t'
  else none

def step? (l : Lexer) (c : Char) : Option Lexer :=
  match l.mode with
  | .idle => start? l.tokens c
  | .word letters =>
    if isLetter c then some ⟨.word (c :: letters), l.tokens⟩
    else (ofWord? letters.reverse).bind fun t => start? (t :: l.tokens) c
  | .number chars =>
    if isNumberChar c then some ⟨.number (c :: chars), l.tokens⟩
    else (Literal.ofChars? chars.reverse).bind fun n => start? (.number n :: l.tokens) c
  | .string text =>
    if c = '"' then some (emit l.tokens (.string text.result?))
    else if c = '\\' then some ⟨.escaped text, l.tokens⟩
    else if c.toNat < 0x20 then none
    else some ⟨.string (text.push c), l.tokens⟩
  | .escaped text =>
    if c = 'u' then some ⟨.unicode text 4 0, l.tokens⟩
    else (unescape? c).map fun d => ⟨.string (text.push d), l.tokens⟩
  | .unicode text left value =>
    (Hexadecimal.value? c).map fun d =>
      let value := 16 * value + d
      if left = 1 then ⟨.string (text.pushUnit value), l.tokens⟩ else ⟨.unicode text (left - 1) value, l.tokens⟩

/-- Ends the text: an open word or number is finished, and nothing else may be open. -/
def finish? (l : Lexer) : Option (List Token) :=
  match l.mode with
  | .idle => some l.tokens.reverse
  | .word letters => (ofWord? letters.reverse).map fun t => (t :: l.tokens).reverse
  | .number chars => (Literal.ofChars? chars.reverse).map fun n => (.number n :: l.tokens).reverse
  | _ => none

end Lexer

def ofChars? (cs : List Char) : Option (List Token) := (cs.foldlM Lexer.step? Lexer.initial).bind Lexer.finish?

end Token

end IonSchedule.Json
