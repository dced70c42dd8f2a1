import IonSchedule.Gate
import IonSchedule.Literal
import IonSchedule.Register

/-! # Statements

Gate calls, blocks and loops. The statements of a block run one after another, at the same time, or in an order
that is still to be chosen. A block inside a statement is kept as its kind and its list of statements, so that
recursion runs on statements and lists of statements alone; `Block` pairs the two for bodies.
-/
namespace IonSchedule

/-- How numbers are written in Jaqal: without an exponent, and a whole number without a point. -/
def numberLayout : Literal.Layout where
  half := .up
  positional _ := true
  pointZero := false

def Binary64.text : Binary64 → String
  | .nan => "NaN"
  | .infinity negative => if negative then "-inf" else "inf"
  | x@(.finite ..) => ((Literal.ofBinary64? numberLayout x).map Literal.text).getD ""

inductive Argument where
  | number (value : Binary64)
  | qubit (qubit : Qubit)
  /-- A constant, or a parameter of the macro around it. -/
  | ref (name : String)
deriving DecidableEq

namespace Argument

def text : Argument → String
  | .number value => value.text
  | .qubit q => q.text
  | .ref name => name

/-- Equality of arguments, numbers compared as numbers. -/
def agrees : Argument → Argument → Bool
  | .number x, .number y => x.agrees y
  | a, b => a = b

end Argument

structure GateCall where
  name : String
  kind : GateKind
  args : List Argument
deriving DecidableEq

namespace GateCall

def native (definition : GateDefinition) (args : List Argument) : GateCall :=
  ⟨definition.name, .native definition, args⟩

def composite (name : String) (args : List Argument) : GateCall := ⟨name, .composite, args⟩

def definition? (g : GateCall) : Option GateDefinition :=
  match g.kind with
  | .native definition => some definition
  | .composite => none

def isNative (g : GateCall) : Bool := g.definition?.isSome

/-- Whether this is a native gate on every qubit of the machine. -/
def isBarrier (g : GateCall) : Bool := g.isNative && isBarrierName g.name

/-- The arguments at qubit positions of a native gate; every argument of a macro call, whose parameters have no
kind. -/
def quantumArgs (g : GateCall) : List Argument :=
  match g.kind with
  | .native definition => ((g.args.zip definition.parameters).filter (·.2.kind.isQuantum)).map Prod.fst
  | .composite => g.args

def quantumParameterCount? (g : GateCall) : Option Nat := g.definition?.map GateDefinition.qubitCount

/-- A gate may share a moment with others if it is native, acts on at most one qubit and is no barrier. -/
def isParallelizable (g : GateCall) : Bool := !g.isBarrier && g.quantumParameterCount?.any (· ≤ 1)

def text (g : GateCall) : String := g.args.foldl (fun s a => s ++ " " ++ a.text) g.name

/-- Equality of calls, numbers compared as numbers. -/
def agrees (a b : GateCall) : Bool :=
  a.name = b.name && a.kind = b.kind && a.args.length = b.args.length &&
    (a.args.zip b.args).all fun (x, y) => x.agrees y

end GateCall

inductive LoopCount where
  | fixed (count : Nat)
  /-- A constant, or a parameter of the macro around it. -/
  | symbol (name : String)
deriving DecidableEq

def LoopCount.text : LoopCount → String
  | .fixed count => toString count
  | .symbol name => name

inductive BlockKind where
  /-- One after another. -/
  | sequential
  /-- At the same time. -/
  | parallel
  /-- In an order that is still to be chosen. -/
  | unscheduled
deriving DecidableEq

inductive Statement where
  | gate (call : GateCall)
  | block (kind : BlockKind) (statements : List Statement)
  | loop (count : LoopCount) (kind : BlockKind) (body : List Statement)

instance : Inhabited Statement := ⟨.block .sequential []⟩

structure Block where
  kind : BlockKind
  statements : List Statement

instance : Inhabited Block := ⟨⟨.sequential, []⟩⟩

namespace Statement

def gate? : Statement → Option GateCall
  | .gate g => some g
  | _ => none

mutual

/-- The number of gate calls at any depth; the body of a loop counts once. -/
def gateCount : Statement → Nat
  | .gate _ => 1
  | .block _ statements => gateCountAll statements
  | .loop _ _ body => gateCountAll body

def gateCountAll : List Statement → Nat
  | [] => 0
  | s :: rest => gateCount s + gateCountAll rest

end

mutual

/-- Whether an order is still to be chosen at any depth. -/
def hasUnscheduled : Statement → Bool
  | .gate _ => false
  | .block kind statements => kind = .unscheduled || anyUnscheduled statements
  | .loop _ kind body => kind = .unscheduled || anyUnscheduled body

def anyUnscheduled : List Statement → Bool
  | [] => false
  | s :: rest => hasUnscheduled s || anyUnscheduled rest

end

mutual

/-- Equality of statements, numbers compared as numbers. -/
def agrees : Statement → Statement → Bool
  | .gate g, .gate h => g.agrees h
  | .block k ss, .block l ts => k = l && agreeAll ss ts
  | .loop c k ss, .loop d l ts => c = d && k = l && agreeAll ss ts
  | _, _ => false

def agreeAll : List Statement → List Statement → Bool
  | [], [] => true
  | s :: ss, t :: ts => agrees s t && agreeAll ss ts
  | _, _ => false

end

end Statement

/-- Whether a block may join a moment: it is parallel and its members are parallelizable gates. -/
def isParallelGroup (kind : BlockKind) (statements : List Statement) : Bool :=
  kind = .parallel && statements.all fun s => s.gate?.any GateCall.isParallelizable

def Statement.isParallelizable : Statement → Bool
  | .gate g => g.isParallelizable
  | .block kind statements => isParallelGroup kind statements
  | .loop .. => false

namespace Block

def sequential (statements : List Statement) : Block := ⟨.sequential, statements⟩

def toStatement (b : Block) : Statement := .block b.kind b.statements

def gateCount (b : Block) : Nat := Statement.gateCountAll b.statements

def hasUnscheduled (b : Block) : Bool := b.toStatement.hasUnscheduled

def isParallelizable (b : Block) : Bool := b.toStatement.isParallelizable

def agrees (a b : Block) : Bool := a.toStatement.agrees b.toStatement

end Block

end IonSchedule
