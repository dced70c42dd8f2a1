import IonSchedule.Circuit
import IonSchedule.Timeline

/-! # Scheduling

Every unscheduled block becomes a sequence of moments. Its statements are placed in listed order; the statements
of a sequential block inside it go one after another, an unscheduled block inside it is scheduled on its own
first and its moments then go one after another, and loops, parallel blocks and gates are leaves. Elsewhere
blocks keep their shape, but a sequential block directly inside a sequential one is spliced into it, except
among the statements of a circuit's body.

The moments of an inner unscheduled block are leaves again, with nothing left to schedule in them, so they are
placed as they are. All functions recurse on the statements of the circuit alone.
-/
namespace IonSchedule

def BlockKind.scheduled : BlockKind → BlockKind
  | .unscheduled => .sequential
  | kind => kind

namespace Schedule

/-- The state after placing statements: where the last one landed, and the counts of blocks scheduled inside
them. -/
structure Placed where
  timeline : Timeline
  last : Option Nat
  stats : Stats

/-- The statements of a finished timeline, with all counts. -/
def Placed.close (p : Placed) : List Statement × Stats := (p.timeline.statements, p.stats + p.timeline.stats)

/-- Places a statement with nothing left to schedule in it. An empty block takes no moment. -/
def placeLeaf (u : Universe) (after : Option Nat) (t : Timeline) :
    Statement → Except CircuitError (Timeline × Option Nat)
  | .gate g => do
    let usage ← u.gateUsage g
    let (t, index) := if g.isParallelizable then t.place (.gate g) usage after else t.isolate (.gate g) usage
    return (t, some index)
  | .loop count kind body => do
    let usage ← u.usageAll body
    let (t, index) := t.isolate (.loop count kind body) usage
    return (t, some index)
  | .block kind statements =>
    if statements.isEmpty then return (t, after)
    else do
      let usage ← u.usageAll statements
      let (t, index) :=
        if isParallelGroup kind statements then t.placeGroup statements usage after
        else t.isolate (.block kind statements) usage
      return (t, some index)

/-- Places statements with nothing left to schedule in them one after another. -/
def placeLeaves (u : Universe) :
    List Statement → Option Nat → Timeline → Except CircuitError (Timeline × Option Nat)
  | [], after, t => return (t, after)
  | s :: rest, after, t => do
    let (t, last) ← placeLeaf u after t s
    placeLeaves u rest last t

mutual

/-- A statement with every unscheduled block in it replaced. -/
def arrange (u : Universe) : Statement → Except CircuitError (Statement × Stats)
  | .gate g => return (.gate g, 0)
  | .block kind statements => do
    let (out, stats) ←
      (match kind with
        | .sequential => splice u false statements
        | .parallel => arrangeEach u statements
        | .unscheduled => Placed.close <$> placeAll u false statements none .empty)
    return (.block kind.scheduled out, stats)
  | .loop count kind body => do
    let (out, stats) ←
      (match kind with
        | .sequential => splice u false body
        | .parallel => arrangeEach u body
        | .unscheduled => Placed.close <$> placeAll u false body none .empty)
    return (.loop count kind.scheduled out, stats)

/-- The statements of a parallel block. -/
def arrangeEach (u : Universe) : List Statement → Except CircuitError (List Statement × Stats)
  | [] => return ([], 0)
  | s :: rest => do
    let (first, stats) ← arrange u s
    let (others, more) ← arrangeEach u rest
    return (first :: others, stats + more)

/-- The statements of a sequential block. Sequential blocks among them are spliced unless this is the body of a
circuit. -/
def splice (u : Universe) (topLevel : Bool) : List Statement → Except CircuitError (List Statement × Stats)
  | [] => return ([], 0)
  | s :: rest => do
    let (first, stats) ←
      (match s with
        | .block .unscheduled statements => Placed.close <$> placeAll u false statements none .empty
        | .block .sequential statements => do
          let (inner, stats) ← splice u false statements
          return (if topLevel then [.block .sequential inner] else inner, stats)
        | s => do
          let (s, stats) ← arrange u s
          return ([s], stats))
    let (others, more) ← splice u topLevel rest
    return (first ++ others, stats + more)

/-- Places the statements of a block, each after `after`; with `chained` also each after the one before it. -/
def placeAll (u : Universe) (chained : Bool) : List Statement → Option Nat → Timeline → Except CircuitError Placed
  | [], after, t => return ⟨t, after, 0⟩
  | s :: rest, after, t => do
    let first : Placed ←
      (match s with
        | .block .sequential statements => placeAll u true statements after t
        | .block .unscheduled statements => do
          let (inner, stats) ← Placed.close <$> placeAll u false statements none .empty
          let (t, last) ← placeLeaves u inner after t
          return ⟨t, last, stats⟩
        | s => do
          let (s, stats) ← arrange u s
          let (t, last) ← placeLeaf u after t s
          return ⟨t, last, stats⟩)
    let others ← placeAll u chained rest (if chained then first.last else after) first.timeline
    return { others with stats := first.stats + others.stats }

end

/-- The moments of an unscheduled block. -/
def scheduleBlock (u : Universe) (statements : List Statement) : Except CircuitError (List Statement × Stats) :=
  Placed.close <$> placeAll u false statements none .empty

def arrangeBlock (u : Universe) (b : Block) : Except CircuitError (Block × Stats) := do
  let (out, stats) ←
    (match b.kind with
      | .sequential => splice u false b.statements
      | .parallel => arrangeEach u b.statements
      | .unscheduled => scheduleBlock u b.statements)
  return (⟨b.kind.scheduled, out⟩, stats)

end Schedule

inductive Location where
  | body
  | macroBody (name : String)
deriving DecidableEq

def Location.text : Location → String
  | .body => "body"
  | .macroBody name => s!"macro '{name}'"

/-- A rule of the scheduled form that is broken. -/
inductive Violation where
  | unscheduledRemains
  | nestedSequential
  | nestedParallel
  | loopInParallel
  | notParallelizable (gate : GateCall)
  | sharedQubit
deriving DecidableEq

def Violation.text : Violation → String
  | .unscheduledRemains => "unscheduled block remains"
  | .nestedSequential => "sequential block nested in sequential block"
  | .nestedParallel => "parallel block nested in parallel block"
  | .loopInParallel => "loop inside parallel block"
  | .notParallelizable gate => s!"'{gate.text}' cannot run in parallel with others"
  | .sharedQubit => "members of a parallel block share a qubit"

inductive ScheduleError where
  | circuit (fault : CircuitError)
  | parallelBody
  | violation (location : Location) (problem : Violation)
deriving DecidableEq

namespace ScheduleError

def message : ScheduleError → String
  | .circuit fault => "IR error: " ++ fault.message
  | .parallelBody => "Malformed circuit: top-level body must be a sequential block"
  | .violation location problem => s!"Schedule violation in {location.text}: {problem.text}"

/-- Whether the circuit itself is at fault, and not its schedule. -/
def isMalformed : ScheduleError → Bool
  | .violation _ _ => false
  | _ => true

end ScheduleError

namespace Circuit

def scheduleBody (c : Circuit) : Except ScheduleError (Block × Stats) :=
  match c.body.kind with
  | .parallel => .error .parallelBody
  | .sequential => do
    let (out, stats) ← (Schedule.splice c.slots true c.body.statements).mapError .circuit
    return (.sequential out, stats)
  | .unscheduled => do
    let (out, stats) ← (Schedule.scheduleBlock c.slots c.body.statements).mapError .circuit
    return (.sequential out, stats)

def scheduleMacro (c : Circuit) (m : Macro) : Except ScheduleError (Macro × Stats) := do
  let (body, stats) ← (Schedule.arrangeBlock (c.macroSlots m) m.body).mapError .circuit
  return ({ m with body }, stats)

/-- The circuit with every unscheduled block replaced by its moments, and the counts of what was done. -/
def schedule (c : Circuit) : Except ScheduleError (Circuit × Stats) := do
  let (body, stats) ← c.scheduleBody
  let macros ← c.macros.traverse c.scheduleMacro
  return ({ c with body, macros := macros.map Prod.fst }, macros.values.foldl (fun sum m => sum + m.2) stats)

end Circuit

end IonSchedule
