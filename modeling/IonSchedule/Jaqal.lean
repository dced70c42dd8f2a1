import IonSchedule.Circuit

/-! # Jaqal text

A circuit as a Jaqal program: registers, constants, macros and the statements of the body, one to a line. A
parallel block stands between `<` and `>` and any other block between braces, its statements four blanks deeper.
Only finite numbers can be written, and only those index lists that are a range.
-/
namespace IonSchedule

inductive NumberPlace where
  | constant (name : String)
  | call (gate : String)
deriving DecidableEq

def NumberPlace.text : NumberPlace → String
  | .constant name => s!"constant '{name}'"
  | .call gate => s!"call to '{gate}'"

inductive JaqalError where
  | nonFinite (value : Binary64) (place : NumberPlace)
  | unsupportedSelection (register : String)
deriving DecidableEq

def JaqalError.message : JaqalError → String
  | .nonFinite value place => s!"Cannot emit non-finite number {value.text} in {place.text}"
  | .unsupportedSelection register =>
    s!"Mapped register '{register}' selects indices that cannot be written as a slice"

namespace Jaqal

def checkNumber (place : NumberPlace) (value : Binary64) : Except JaqalError Unit :=
  if value.isFinite then .ok () else .error (.nonFinite value place)

def sliceText (start stop step : Nat) : String :=
  if step = 1 then s!"[{start}:{stop}]" else s!"[{start}:{stop}:{step}]"

/-- What follows the name of the source in a map declaration. -/
def selectionText (register : String) : Selection → Except JaqalError String
  | .whole => return ""
  | .slice start stop step => return sliceText start stop step
  | .indices positions =>
    match Selection.asSlice? positions with
    | some (start, stop, step) => return sliceText start stop step
    | none => .error (.unsupportedSelection register)

def registerLine (r : Register) : Except JaqalError String :=
  match r.kind with
  | .fundamental size => return s!"register {r.name}[{size}]"
  | .mapped source selection => do
    let shown ← selectionText r.name selection
    return s!"map {r.name} {source}{shown}"

def registerLines : List Register → Except JaqalError (List String)
  | [] => return []
  | r :: rest => do
    let line ← registerLine r
    let lines ← registerLines rest
    return line :: lines

def constantLines : List (String × Binary64) → Except JaqalError (List String)
  | [] => return []
  | (name, value) :: rest => do
    checkNumber (.constant name) value
    let lines ← constantLines rest
    return s!"let {name} {value.text}" :: lines

def checkArguments (gate : String) : List Argument → Except JaqalError Unit
  | [] => return ()
  | .number value :: rest => do
    checkNumber (.call gate) value
    checkArguments gate rest
  | _ :: rest => checkArguments gate rest

def gateLine (g : GateCall) : Except JaqalError String := do
  checkArguments g.name g.args
  return g.text

def delimiters : BlockKind → String × String
  | .parallel => ("<", ">")
  | _ => ("\x7b", "\x7d")

/-- Four blanks before a line that is not empty. -/
def indent (line : String) : String := if line.isEmpty then line else "    " ++ line

/-- A block: what stands before its opening delimiter, the lines of its statements, and its closing delimiter. -/
def blockLines (header : String) (kind : BlockKind) (lines : List String) : List String :=
  (header ++ (delimiters kind).1) :: (lines.map indent ++ [(delimiters kind).2])

mutual

def statementLines : Statement → Except JaqalError (List String)
  | .gate g => do
    let line ← gateLine g
    return [line]
  | .block kind statements => do
    let lines ← statementsLines statements
    return blockLines "" kind lines
  | .loop count kind body => do
    let lines ← statementsLines body
    return blockLines s!"loop {count.text} " kind lines

def statementsLines : List Statement → Except JaqalError (List String)
  | [] => return []
  | s :: rest => do
    let first ← statementLines s
    let others ← statementsLines rest
    return first ++ others

end

/-- A macro, and an empty line after it. -/
def macroLines (m : Macro) : Except JaqalError (List String) := do
  let lines ← statementsLines m.body.statements
  let header := (m.parameters.foldl (fun s p => s ++ " " ++ p) ("macro " ++ m.name)) ++ " "
  return blockLines header m.body.kind lines ++ [""]

def macrosLines : List Macro → Except JaqalError (List String)
  | [] => return []
  | m :: rest => do
    let first ← macroLines m
    let others ← macrosLines rest
    return first ++ others

end Jaqal

/-- The lines of a circuit; an empty line ends the declarations, if there are any. -/
def Circuit.jaqalLines (c : Circuit) : Except JaqalError (List String) := do
  let registers ← Jaqal.registerLines c.registers.values
  let constants ← Jaqal.constantLines c.constants.items
  let gap := if c.registers.isEmpty && c.constants.isEmpty then [] else [""]
  let macros ← Jaqal.macrosLines c.macros.values
  let body ← Jaqal.statementsLines c.body.statements
  return registers ++ constants ++ gap ++ macros ++ body

def Circuit.toJaqal (c : Circuit) : Except JaqalError String := do
  let lines ← c.jaqalLines
  return String.join (lines.map (· ++ "\n"))

end IonSchedule
