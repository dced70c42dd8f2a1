import IonSchedule.Hexadecimal
import IonSchedule.Json

/-! # Writing JSON

The compact form has no blanks. The pretty form puts every item and entry on a line of its own, two blanks
deeper than what holds it, and a blank after each colon; an array or object that is empty stays on its line in
both. What cannot be read is written as `null`.
-/
namespace IonSchedule.Json

/-- A character inside a string: quotes, backslashes and control characters are escaped. -/
def escapeChar (c : Char) : List Char :=
  if c = '"' then ['\\', '"']
  else if c = '\\' then ['\\', '\\']
  else if c = '\x08' then ['\\', 'b']
  else if c = '\x0c' then ['\\', 'f']
  else if c = '\n' then ['\\', 'n']
  else if c = '\r' then ['\\', 'r']
  else if c = '\t' then ['\\', 't']
  else if c.toNat < 0x20 then
    ['\\', 'u', '0', '0', Hexadecimal.digit (c.toNat / 16), Hexadecimal.digit (c.toNat % 16)]
  else [c]

def quoted (s : String) : List Char := '"' :: (s.toList.flatMap escapeChar ++ ['"'])

def boolChars : Bool → List Char
  | true => "true".toList
  | false => "false".toList

mutual

def compactChars : Json → List Char
  | .null | .unreadable => "null".toList
  | .bool b => boolChars b
  | .number literal => literal.chars
  | .string s => quoted s
  | .array items => '[' :: (compactItems items ++ [']'])
  | .object entries => '{' :: (compactEntries entries ++ ['}'])

def compactItems : List Json → List Char
  | [] => []
  | [v] => compactChars v
  | v :: rest => compactChars v ++ ',' :: compactItems rest

def compactEntries : List (String × Json) → List Char
  | [] => []
  | [(key, v)] => quoted key ++ ':' :: compactChars v
  | (key, v) :: rest => quoted key ++ ':' :: (compactChars v ++ ',' :: compactEntries rest)

end

def newline (depth : Nat) : List Char := '\n' :: List.replicate (2 * depth) ' '

mutual

/-- The pretty form of a value that stands `depth` levels deep. -/
def prettyChars (depth : Nat) : Json → List Char
  | .null | .unreadable => "null".toList
  | .bool b => boolChars b
  | .number literal => literal.chars
  | .string s => quoted s
  | .array items =>
    if items.isEmpty then ['[', ']'] else '[' :: (prettyItems (depth + 1) items ++ newline depth ++ [']'])
  | .object entries =>
    if entries.isEmpty then ['{', '}'] else '{' :: (prettyEntries (depth + 1) entries ++ newline depth ++ ['}'])

def prettyItems (depth : Nat) : List Json → List Char
  | [] => []
  | [v] => newline depth ++ prettyChars depth v
  | v :: rest => newline depth ++ prettyChars depth v ++ ',' :: prettyItems depth rest

def prettyEntries (depth : Nat) : List (String × Json) → List Char
  | [] => []
  | [(key, v)] => newline depth ++ quoted key ++ ':' :: ' ' :: prettyChars depth v
  | (key, v) :: rest =>
    newline depth ++ quoted key ++ ':' :: ' ' :: (prettyChars depth v ++ ',' :: prettyEntries depth rest)

end

def compact (v : Json) : String := String.ofList (compactChars v)

def pretty (v : Json) : String := String.ofList (prettyChars 0 v)

end IonSchedule.Json
