import IonSchedule.Schedule

/-! # Verification

Checks that a circuit is in scheduled form: nothing is left unscheduled, no sequential block stands directly
inside another except in the body of the circuit, a parallel block holds gates and sequential blocks that share
no slot, and gates that run alongside others are parallelizable. The report counts the blocks that were checked.
-/
namespace IonSchedule

/-- The blocks that were checked. -/
structure Tally where
  blocks : Nat
  parallelBlocks : Nat
  /-- The number of members of the widest parallel block. -/
  width : Nat
deriving DecidableEq

namespace Tally

def empty : Tally := ⟨0, 0, 0⟩

def join (a b : Tally) : Tally := ⟨a.blocks + b.blocks, a.parallelBlocks + b.parallelBlocks, max a.width b.width⟩

def sequential (t : Tally) : Tally := join ⟨1, 0, 0⟩ t

/-- Counts a parallel block of so many members around what was seen. -/
def parallel (members : Nat) (t : Tally) : Tally := join ⟨1, 1, members⟩ t

end Tally

structure Report extends Tally where
  /-- Whether every rule holds. -/
  passed : Bool
deriving DecidableEq

namespace Verification

mutual

/-- The statements of a sequential block. -/
def checkSequence (u : Universe) (location : Location) (topLevel : Bool) :
    List Statement → Except ScheduleError Tally
  | [] => return .empty
  | s :: rest => do
    let first : Tally ←
      (match s with
        | .gate _ => return .empty
        | .block .unscheduled _ => .error (.violation location .unscheduledRemains)
        | .block .sequential statements =>
          if topLevel then .sequential <$> checkSequence u location false statements
          else .error (.violation location .nestedSequential)
        | .block .parallel statements =>
          .parallel statements.length <$> checkMembers u location (1 < statements.length) statements ∅
        | .loop _ .unscheduled _ => .error (.violation location .unscheduledRemains)
        | .loop _ .sequential body => .sequential <$> checkSequence u location false body
        | .loop _ .parallel body => .parallel body.length <$> checkMembers u location (1 < body.length) body ∅)
    let others ← checkSequence u location topLevel rest
    return first.join others

/-- The members of a parallel block; `crowded` says that there is more than one, and `occupied` what those
before use. -/
def checkMembers (u : Universe) (location : Location) (crowded : Bool) :
    List Statement → Usage → Except ScheduleError Tally
  | [], _ => return .empty
  | s :: rest, occupied => do
    let (first, usage) ←
      (match s with
        | .gate g =>
          if crowded && !g.isParallelizable then .error (.violation location (.notParallelizable g))
          else do
            let usage ← (u.gateUsage g).mapError .circuit
            return (.empty, usage)
        | .block .sequential statements => do
          let tally ← checkSequence u location false statements
          let usage ← (u.usageAll statements).mapError .circuit
          return (tally.sequential, usage)
        | .block .parallel _ => .error (.violation location .nestedParallel)
        | .block .unscheduled _ => .error (.violation location .unscheduledRemains)
        | .loop .. => .error (.violation location .loopInParallel))
    if occupied.disjoint usage then do
      let others ← checkMembers u location crowded rest (occupied ∪ usage)
      return first.join others
    else .error (.violation location .sharedQubit)

end

/-- A block that is the body of a circuit or of a macro. -/
def checkBlock (u : Universe) (location : Location) (topLevel : Bool) (b : Block) : Except ScheduleError Tally :=
  match b.kind with
  | .unscheduled => .error (.violation location .unscheduledRemains)
  | .sequential => .sequential <$> checkSequence u location topLevel b.statements
  | .parallel =>
    .parallel b.statements.length <$> checkMembers u location (1 < b.statements.length) b.statements ∅

def checkMacros (c : Circuit) : List Macro → Except ScheduleError Tally
  | [] => return .empty
  | m :: rest => do
    let first ← checkBlock (c.macroSlots m) (.macroBody m.name) false m.body
    let others ← checkMacros c rest
    return first.join others

end Verification

def Circuit.verify (c : Circuit) : Except ScheduleError Report := do
  let body ← Verification.checkBlock c.slots .body true c.body
  let macros ← Verification.checkMacros c c.macros.values
  return { body.join macros with passed := true }

end IonSchedule
