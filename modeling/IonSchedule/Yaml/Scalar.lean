import IonSchedule.Hexadecimal
import IonSchedule.Yaml.Token

/-! # Folding and escapes

A scalar may run over several lines. Between two of its words a single line break counts as a blank, and of
several line breaks the first is dropped; blanks around line breaks are dropped too.
-/
namespace IonSchedule.Yaml

/-- The blanks and line breaks since the last word of a scalar, newest first. What they stand for is known when
the next word begins. -/
inductive Gap where
  | blanks (chars : List Char)
  /-- The first line break and those after it. There is no first one if it was escaped. -/
  | breaks (first : Option Char) (more : List Char)

namespace Gap

def empty : Gap := .blanks []

def isEmpty : Gap → Bool
  | .blanks [] => true
  | _ => false

def isBroken : Gap → Bool
  | .blanks _ => false
  | .breaks _ _ => true

/-- Adds a blank or a line break. -/
def add (c : Char) : Gap → Gap
  | .blanks chars => if isBreak c then .breaks (some c) [] else .blanks (c :: chars)
  | .breaks first more => .breaks first (if isBreak c then c :: more else more)

/-- What a gap between two words stands for, newest first. -/
def folded : Gap → List Char
  | .blanks chars => chars
  | .breaks (some '\n') [] => [' ']
  | .breaks (some '\n') more => more
  | .breaks first more => more ++ first.toList

end Gap

def unescape? (c : Char) : Option Char :=
  if c = '"' || c = '/' || c = '\\' || c = ' ' || c = '\t' then some c
  else if c = '0' then some '\x00'
  else if c = 'a' then some '\x07'
  else if c = 'b' then some '\x08'
  else if c = 't' then some '\t'
  else if c = 'n' then some '\n'
  else if c = 'v' then some '\x0b'
  else if c = 'f' then some '\x0c'
  else if c = 'r' then some '\r'
  else if c = 'e' then some '\x1b'
  else if c = 'N' then some '\u0085'
  else if c = '_' then some '\u00a0'
  else if c = 'L' then some '\u2028'
  else if c = 'P' then some '\u2029'
  else none

/-- How many hexadecimal digits follow the letter of an escape. -/
def escapeWidth? (c : Char) : Option Nat :=
  if c = 'x' then some 2 else if c = 'u' then some 4 else if c = 'U' then some 8 else none

def ofCodePoint? (n : Nat) : Option Char := if n.isValidChar then some (Char.ofNat n) else none

end IonSchedule.Yaml
