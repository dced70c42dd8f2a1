import Std.Data.ExtTreeMap
import IonSchedule.Usage

/-! # Timelines

A timeline is the list of moments of one unscheduled block under construction, with the last moment in which
each slot is used. A statement goes to the earliest moment after every earlier use of its slots that it may
share with what is there, or else to a new moment at the end. A moment is open as long as it holds
parallelizable gates only.
-/
namespace IonSchedule

/-- Statements that start at the same time. -/
structure Moment where
  statements : List Statement
  /-- The slots in use by any of the statements. -/
  usage : Usage
  /-- Whether other parallelizable gates may join. -/
  isOpen : Bool

namespace Moment

def accepts (m : Moment) (usage : Usage) : Bool := m.isOpen && m.usage.disjoint usage

def join (m : Moment) (statements : List Statement) (usage : Usage) : Moment :=
  { m with statements := m.statements ++ statements, usage := m.usage ∪ usage }

/-- The moment as a statement: its only one, or a parallel block of them. -/
def toStatement? (m : Moment) : Option Statement :=
  match m.statements with
  | [] => none
  | [s] => some s
  | statements => some (.block .parallel statements)

end Moment

structure Stats where
  /-- Unscheduled blocks replaced. -/
  blocksScheduled : Nat
  moments : Nat
  /-- Moments with more than one statement. -/
  parallelMoments : Nat
  statementsPlaced : Nat
deriving DecidableEq

namespace Stats

instance : Zero Stats := ⟨⟨0, 0, 0, 0⟩⟩

instance : Add Stats where
  add a b :=
    ⟨a.blocksScheduled + b.blocksScheduled, a.moments + b.moments, a.parallelMoments + b.parallelMoments,
      a.statementsPlaced + b.statementsPlaced⟩

theorem add_def (a b : Stats) :
    a + b = ⟨a.blocksScheduled + b.blocksScheduled, a.moments + b.moments, a.parallelMoments + b.parallelMoments,
      a.statementsPlaced + b.statementsPlaced⟩ := rfl

theorem zero_def : (0 : Stats) = ⟨0, 0, 0, 0⟩ := rfl

theorem add_assoc (a b c : Stats) : a + b + c = a + (b + c) := by
  simp only [add_def, Nat.add_assoc]

theorem add_comm (a b : Stats) : a + b = b + a := by
  simp only [add_def, Nat.add_comm]

theorem zero_add (a : Stats) : 0 + a = a := by
  simp only [add_def, zero_def, Nat.zero_add]

theorem add_zero (a : Stats) : a + 0 = a := by
  rw [add_comm, zero_add]

end Stats

structure Timeline where
  moments : List Moment
  /-- The last moment in which a slot is used. -/
  lastUse : Std.ExtTreeMap Slot Nat Slot.order

namespace Timeline

def empty : Timeline := ⟨[], ∅⟩

/-- The first moment after `after` and after every earlier use of the slots. -/
def earliest (t : Timeline) (usage : Usage) (after : Option Nat) : Nat :=
  usage.toList.foldl (fun bound slot => ((t.lastUse[slot]?).map (max bound <| · + 1)).getD bound)
    ((after.map (· + 1)).getD 0)

/-- The first of the moments numbered from `index` on that accepts the slots. -/
def firstAccepting? (usage : Usage) : (index : Nat) → List Moment → Option Nat
  | _, [] => none
  | index, m :: rest => if m.accepts usage then some index else firstAccepting? usage (index + 1) rest

/-- The moment that a parallelizable statement may join. -/
def findOpen? (t : Timeline) (usage : Usage) (after : Option Nat) : Option Nat :=
  let start := t.earliest usage after
  firstAccepting? usage start (t.moments.drop start)

/-- Notes a use of every slot in the given moment. -/
def noteUse (t : Timeline) (usage : Usage) (index : Nat) : Std.ExtTreeMap Slot Nat Slot.order :=
  usage.toList.foldl (fun lastUse slot => lastUse.insert slot index) t.lastUse

/-- Adds statements to an existing moment. -/
def merge (t : Timeline) (index : Nat) (statements : List Statement) (usage : Usage) : Timeline × Nat :=
  (⟨t.moments.modify index (·.join statements usage), t.noteUse usage index⟩, index)

def push (t : Timeline) (statements : List Statement) (usage : Usage) (isOpen : Bool) : Timeline × Nat :=
  (⟨t.moments ++ [⟨statements, usage, isOpen⟩], t.noteUse usage t.moments.length⟩, t.moments.length)

/-- Gives a statement a moment of its own at the end. -/
def isolate (t : Timeline) (s : Statement) (usage : Usage) : Timeline × Nat := t.push [s] usage false

def place (t : Timeline) (s : Statement) (usage : Usage) (after : Option Nat) : Timeline × Nat :=
  match t.findOpen? usage after with
  | some index => t.merge index [s] usage
  | none => t.push [s] usage true

/-- Places the members of a parallel block together: they join a moment, or the block keeps one to itself. -/
def placeGroup (t : Timeline) (members : List Statement) (usage : Usage) (after : Option Nat) : Timeline × Nat :=
  match t.findOpen? usage after with
  | some index => t.merge index members usage
  | none => t.isolate (.block .parallel members) usage

def statements (t : Timeline) : List Statement := t.moments.filterMap Moment.toStatement?

/-- What a finished timeline adds to the counts. -/
def stats (t : Timeline) : Stats where
  blocksScheduled := 1
  moments := t.moments.length
  parallelMoments := t.moments.countP fun m => 1 < m.statements.length
  statementsPlaced := t.moments.foldr (fun m count => m.statements.length + count) 0

end Timeline

end IonSchedule
