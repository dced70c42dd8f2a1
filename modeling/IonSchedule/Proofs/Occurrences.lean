import Mathlib.Algebra.Group.Pi.Basic
import IonSchedule.Proofs.Preservation

/-! # What a circuit is made of

Every gate call and every loop is counted with the counts of the loops around it, outermost first. Main
statement: scheduling loses, copies and changes none of them, neither in the body nor in a macro, and it carries
all declarations over.
-/
namespace IonSchedule

namespace Reading

/-- The gate calls under some outer loops. -/
def gateOccurrences : Reading (List LoopCount → Multiset (GateCall × List LoopCount)) where
  gate g := fun outer => {(g, outer)}
  loop count body := fun outer => body (outer ++ [count])

/-- The loops under some outer loops. -/
def loopOccurrences : Reading (List LoopCount → Multiset (LoopCount × List LoopCount)) where
  gate _ := 0
  loop count body := fun outer => {(count, outer)} + body (outer ++ [count])

end Reading

namespace Block

def gateOccurrences (b : Block) : Multiset (GateCall × List LoopCount) :=
  Reading.gateOccurrences.readAll b.statements []

def loopOccurrences (b : Block) : Multiset (LoopCount × List LoopCount) :=
  Reading.loopOccurrences.readAll b.statements []

open Schedule

variable {u : Universe} {topLevel : Bool} {b b' : Block}

theorem gateOccurrences_arrangesBlock (h : ArrangesBlock u topLevel b b') :
    b'.gateOccurrences = b.gateOccurrences :=
  congrFun ((Reading.independent_of_comm _ u).readAll_arrangesBlock h) []

theorem loopOccurrences_arrangesBlock (h : ArrangesBlock u topLevel b b') :
    b'.loopOccurrences = b.loopOccurrences :=
  congrFun ((Reading.independent_of_comm _ u).readAll_arrangesBlock h) []

end Block

/-- Scheduling keeps every gate call and every loop, each as often and under the same loops, and every
declaration. -/
theorem Circuit.schedule_occurrences {c c' : Circuit} {stats : Stats} (h : c.schedule = .ok (c', stats)) :
    c'.body.gateOccurrences = c.body.gateOccurrences ∧ c'.body.loopOccurrences = c.body.loopOccurrences ∧
    List.Forall₂ (fun e e' => e'.1 = e.1 ∧ e'.2.name = e.2.name ∧ e'.2.parameters = e.2.parameters ∧
      e'.2.body.gateOccurrences = e.2.body.gateOccurrences ∧ e'.2.body.loopOccurrences = e.2.body.loopOccurrences)
      c.macros.items c'.macros.items ∧
    c'.constants = c.constants ∧ c'.registers = c.registers ∧ c'.nativeGates = c.nativeGates := by
  have ha := Circuit.arranges_of_schedule h
  refine ⟨Block.gateOccurrences_arrangesBlock ha.body, Block.loopOccurrences_arrangesBlock ha.body, ?_,
    ha.constants, ha.registers, ha.nativeGates⟩
  refine ha.macros.imp ?_
  rintro e e' ⟨hkey, hname, hparameters, hbody⟩
  exact ⟨hkey, hname, hparameters, Block.gateOccurrences_arrangesBlock hbody,
    Block.loopOccurrences_arrangesBlock hbody⟩

theorem Circuit.schedule_occurrences_sample :
    ∃ c' stats, sample.schedule = .ok (c', stats) ∧
      c'.body.gateOccurrences = sample.body.gateOccurrences ∧
      c'.body.loopOccurrences = sample.body.loopOccurrences ∧
      List.Forall₂ (fun e e' => e'.1 = e.1 ∧ e'.2.name = e.2.name ∧ e'.2.parameters = e.2.parameters ∧
        e'.2.body.gateOccurrences = e.2.body.gateOccurrences ∧ e'.2.body.loopOccurrences = e.2.body.loopOccurrences)
        sample.macros.items c'.macros.items ∧
      c'.constants = sample.constants ∧ c'.registers = sample.registers ∧ c'.nativeGates = sample.nativeGates := by
  obtain ⟨c', stats, h⟩ := exists_schedule_sample
  exact ⟨c', stats, h, schedule_occurrences h⟩

end IonSchedule
