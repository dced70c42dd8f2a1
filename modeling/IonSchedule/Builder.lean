import IonSchedule.Circuit

/-! # Building circuits

A builder takes a circuit apart into calls: declarations, gates, and the opening and closing of blocks, loops
and macros. Statements go into the innermost open frame; the outermost frame is the body and stays open until
the circuit is built. A gate is checked against the circuit as it stands, with the parameters of an open macro
in scope.
-/
namespace IonSchedule

inductive FrameKind where
  | block (kind : BlockKind)
  | loop (count : LoopCount)
  | macroBody (name : String) (parameters : List String)
deriving DecidableEq

def BlockKind.text : BlockKind → String
  | .sequential => "sequential block"
  | .parallel => "parallel block"
  | .unscheduled => "unscheduled block"

def FrameKind.text : FrameKind → String
  | .block kind => kind.text
  | .loop _ => "loop"
  | .macroBody name _ => s!"macro '{name}'"

/-- An open block, loop or macro with its statements so far. -/
structure Frame where
  kind : FrameKind
  statements : List Statement

inductive Closing where
  | block
  | unscheduledBlock
  | loop
  | macroBody
deriving DecidableEq

namespace Closing

def text : Closing → String
  | .block => "block"
  | .unscheduledBlock => "unscheduled block"
  | .loop => "loop"
  | .macroBody => "macro"

def fits : Closing → FrameKind → Bool
  | .block, .block _ => true
  | .unscheduledBlock, .block .unscheduled => true
  | .loop, .loop _ => true
  | .macroBody, .macroBody _ _ => true
  | _, _ => false

end Closing

inductive BuilderError where
  | circuit (fault : CircuitError)
  | nothingOpen (closing : Closing)
  | wrongFrame (closing : Closing) (found : FrameKind)
  | macroNotTopLevel (name : String)
  | leftOpen (found : FrameKind)
deriving DecidableEq

def BuilderError.message : BuilderError → String
  | .circuit fault => fault.message
  | .nothingOpen closing => s!"Invalid builder state: no open {closing.text} to close"
  | .wrongFrame closing found => s!"Invalid builder state: expected to close a {closing.text}, found {found.text}"
  | .macroNotTopLevel name => s!"Invalid builder state: macro '{name}' must be defined at top level"
  | .leftOpen found => s!"Invalid builder state: {found.text} left open"

/-- A circuit under construction: `body` holds the statements of its body so far, and `frames` what is open
inside it, innermost first. -/
structure Builder where
  circuit : Circuit
  body : List Statement
  frames : List Frame

namespace Builder

def new (nativeGates : GateTable) : Builder := ⟨.empty nativeGates, [], []⟩

def scopeOf : List Frame → List String
  | [] => []
  | ⟨.macroBody _ parameters, _⟩ :: _ => parameters
  | _ :: rest => scopeOf rest

def scope (b : Builder) : List String := scopeOf b.frames

def current (b : Builder) : List Statement :=
  match b.frames with
  | [] => b.body
  | frame :: _ => frame.statements

def append (b : Builder) (s : Statement) : Builder :=
  match b.frames with
  | [] => { b with body := b.body ++ [s] }
  | frame :: rest => { b with frames := { frame with statements := frame.statements ++ [s] } :: rest }

def openFrame (b : Builder) (kind : FrameKind) : Builder := { b with frames := ⟨kind, []⟩ :: b.frames }

/-- A change to a builder that may fail. What was changed before it fails stays changed. -/
abbrev Action := EStateM BuilderError Builder

/-- The builder after an action, and what the action gives. -/
def Action.outcome {α : Type} (x : Action α) (b : Builder) : Builder × Except BuilderError α :=
  match x.run b with
  | .ok a after => (after, .ok a)
  | .error e after => (after, .error e)

/-- Takes off the innermost open frame, which must fit. -/
def closeFrame (closing : Closing) : Action Frame := do
  let b ← get
  match b.frames with
  | [] => throw (.nothingOpen closing)
  | frame :: rest =>
    if closing.fits frame.kind then
      set { b with frames := rest }
      return frame
    else throw (.wrongFrame closing frame.kind)

inductive Call where
  | register (name : String) (size : Nat)
  | map (name source : String) (selection : Selection)
  | constant (name : String) (value : Binary64)
  | gate (name : String) (args : List Argument)
  /-- A gate without arguments, unless the innermost frame already ends with a gate of that name. -/
  | gateUnlessLast (name : String)
  | beginBlock (kind : BlockKind)
  | endBlock
  /-- Ends an unscheduled block and begins another; an empty one is dropped. -/
  | barrier
  | beginLoop (count : LoopCount)
  | endLoop
  | beginMacro (name : String) (parameters : List String)
  | endMacro

def declare (declaration : Circuit → Except CircuitError Circuit) : Action Unit := do
  let b ← get
  match declaration b.circuit with
  | .ok circuit => set { b with circuit }
  | .error e => throw (.circuit e)

def gate (name : String) (args : List Argument) : Action Unit := do
  let b ← get
  match b.circuit.gate b.scope name args with
  | .ok g => set (b.append (.gate g))
  | .error e => throw (.circuit e)

def endsWith (b : Builder) (name : String) : Bool :=
  (b.current.getLast?.bind Statement.gate?).any (·.name = name)

def gateUnlessLast (name : String) : Action Unit := do
  let b ← get
  if b.endsWith name then return else gate name []

def endBlock : Action Unit := do
  let frame ← closeFrame .block
  match frame.kind with
  | .block kind => modify (·.append (.block kind frame.statements))
  | _ => return

def barrier : Action Unit := do
  let frame ← closeFrame .unscheduledBlock
  modify fun b =>
    let b := if frame.statements.isEmpty then b else b.append (.block .unscheduled frame.statements)
    b.openFrame (.block .unscheduled)

/-- The count of a loop that is about to end: a symbol must be a constant or a parameter of the macro around the
loop. -/
def checkCount : Action Unit := do
  let b ← get
  match b.frames with
  | ⟨.loop (.symbol name), _⟩ :: rest =>
    if b.circuit.constants.contains name || (scopeOf rest).contains name then return
    else throw (.circuit (.unresolvedReference name))
  | _ => return

def endLoop : Action Unit := do
  checkCount
  let frame ← closeFrame .loop
  match frame.kind with
  | .loop count => modify (·.append (.loop count .sequential frame.statements))
  | _ => return

def beginMacro (name : String) (parameters : List String) : Action Unit := do
  let b ← get
  if b.frames.isEmpty then set (b.openFrame (.macroBody name parameters)) else throw (.macroNotTopLevel name)

/-- The frame of a macro is taken off before the macro is checked. -/
def endMacro : Action Unit := do
  let frame ← closeFrame .macroBody
  match frame.kind with
  | .macroBody name parameters => declare (·.declareMacro name parameters (.sequential frame.statements))
  | _ => return

def perform : Call → Action Unit
  | .register name size => declare (·.declareRegister name size)
  | .map name source selection => declare (·.declareMap name source selection)
  | .constant name value => declare (·.declareConstant name value)
  | .gate name args => gate name args
  | .gateUnlessLast name => gateUnlessLast name
  | .beginBlock kind => modify (·.openFrame (.block kind))
  | .endBlock => endBlock
  | .barrier => barrier
  | .beginLoop count => modify (·.openFrame (.loop count))
  | .endLoop => endLoop
  | .beginMacro name parameters => beginMacro name parameters
  | .endMacro => endMacro

/-- Carries out a call. The builder after it is given even when the call fails. -/
def run (b : Builder) (call : Call) : Builder × Except BuilderError Unit := (perform call).outcome b

def runAll (b : Builder) (calls : List Call) : Builder := calls.foldl (fun b call => (b.run call).1) b

/-- The finished circuit; nothing but the body may be open. -/
def build (b : Builder) : Except BuilderError Circuit :=
  match b.frames with
  | [] => .ok { b.circuit with body := .sequential b.body }
  | frame :: _ => .error (.leftOpen frame.kind)

end Builder

end IonSchedule
