import Mathlib.Algebra.FreeMonoid.Basic
import IonSchedule.Proofs.Preservation

/-! # The order on each slot

What happens on a slot is a list of gate calls and loops, where a loop shows what happens on the slot in its
body. Main statement: scheduling changes this list for no slot, neither in the body of a circuit nor in a macro,
however blocks and loops are nested.
-/
namespace IonSchedule

/-- One thing that happens on a slot. -/
inductive Event where
  | gate (call : GateCall)
  | loop (count : LoopCount) (events : List Event)

/-- A loop that never touches the slot does nothing there. -/
def Event.ofLoop (count : LoopCount) : List Event → List Event
  | [] => []
  | events => [.loop count events]

namespace Statement

mutual

/-- What a statement does on a slot. -/
def onSlot (u : Universe) (x : Slot) : Statement → List Event
  | .gate g => if u.touches x g then [.gate g] else []
  | .block _ statements => onSlotAll u x statements
  | .loop count _ body => Event.ofLoop count (onSlotAll u x body)

def onSlotAll (u : Universe) (x : Slot) : List Statement → List Event
  | [] => []
  | s :: rest => onSlot u x s ++ onSlotAll u x rest

end

end Statement

/-- What a block does on a slot. -/
def Block.onSlot (b : Block) (u : Universe) (x : Slot) : List Event := Statement.onSlotAll u x b.statements

namespace Reading

variable {u : Universe} {x : Slot}

/-- Events on a slot, as a reading. -/
def events (u : Universe) (x : Slot) : Reading (FreeAddMonoid Event) where
  gate g := .ofList (if u.touches x g then [.gate g] else [])
  loop count body := .ofList (Event.ofLoop count body.toList)

mutual

theorem read_events (u : Universe) (x : Slot) : (s : Statement) →
    (events u x).read s = FreeAddMonoid.ofList (s.onSlot u x)
  | .gate g => by
    rw [read_gate, Statement.onSlot]
    rfl
  | .block _ ss => by
    rw [read_block, Statement.onSlot]
    exact readAll_events u x ss
  | .loop count _ body => by
    rw [read_loop, Statement.onSlot, readAll_events u x body]
    rfl

theorem readAll_events (u : Universe) (x : Slot) : (ss : List Statement) →
    (events u x).readAll ss = FreeAddMonoid.ofList (Statement.onSlotAll u x ss)
  | [] => by
    rw [readAll_nil, Statement.onSlotAll]
    rfl
  | s :: rest => by
    rw [readAll_cons, Statement.onSlotAll, read_events u x s, readAll_events u x rest]
    rfl

end

theorem readAll_events_of_notMem {ss : List Statement} {used : Usage} (hu : u.usageAll ss = .ok used)
    (hx : x ∉ used) :
    (events u x).readAll ss = 0 := by
  refine readAll_eq_zero (fun _ => rfl) ss fun g hg => ?_
  have huntouched : u.touches x g = false := by
    by_contra htouch
    exact hx (((Universe.usageAll_eq_ok_iff ss).1 hu).mem_iff x |>.2 ⟨g, hg, by simpa using htouch⟩)
  simp [events, huntouched]

/-- A reading of what happens on one slot is independent: of two lists without a common slot, at most one is on
it. -/
theorem independent_of_slot {M : Type} [AddMonoid M] {r : Reading M} (x : Slot)
    (h : ∀ {ss used}, u.usageAll ss = .ok used → x ∉ used → r.readAll ss = 0) : r.Independent u := by
  intro ss ts a b ha hb hab
  by_cases hx : x ∈ a
  · rw [h hb (Usage.disjoint_iff.1 hab x hx)]
    exact AddCommute.zero_right _
  · rw [h ha hx]
    exact AddCommute.zero_left _

theorem events_independent (u : Universe) (x : Slot) : (events u x).Independent u :=
  independent_of_slot x readAll_events_of_notMem

end Reading

open Schedule in
theorem Block.onSlot_arrangesBlock {u : Universe} {topLevel : Bool} {b b' : Block}
    (h : ArrangesBlock u topLevel b b') (x : Slot) : b'.onSlot u x = b.onSlot u x := by
  have hread := (Reading.events_independent u x).readAll_arrangesBlock h
  rw [Reading.readAll_events, Reading.readAll_events] at hread
  exact FreeAddMonoid.ofList.injective hread

/-- Scheduling keeps what happens on every slot, in the body and in every macro. -/
theorem Circuit.schedule_onSlot {c c' : Circuit} {stats : Stats} (h : c.schedule = .ok (c', stats)) :
    (∀ x, c'.body.onSlot c'.slots x = c.body.onSlot c.slots x) ∧
    List.Forall₂ (fun e e' => e'.1 = e.1 ∧
      ∀ x, e'.2.body.onSlot (c'.macroSlots e'.2) x = e.2.body.onSlot (c.macroSlots e.2) x)
      c.macros.items c'.macros.items := by
  have ha := Circuit.arranges_of_schedule h
  rw [ha.slots]
  refine ⟨Block.onSlot_arrangesBlock ha.body, ha.macros.imp ?_⟩
  rintro e e' ⟨hkey, -, hparameters, hbody⟩
  refine ⟨hkey, fun x => ?_⟩
  rw [ha.macroSlots hparameters]
  exact Block.onSlot_arrangesBlock hbody x

theorem Circuit.schedule_onSlot_sample :
    ∃ c' stats, sample.schedule = .ok (c', stats) ∧
      (∀ x, c'.body.onSlot c'.slots x = sample.body.onSlot sample.slots x) ∧
      List.Forall₂ (fun e e' => e'.1 = e.1 ∧
        ∀ x, e'.2.body.onSlot (c'.macroSlots e'.2) x = e.2.body.onSlot (sample.macroSlots e.2) x)
        sample.macros.items c'.macros.items := by
  obtain ⟨c', stats, h⟩ := exists_schedule_sample
  exact ⟨c', stats, h, schedule_onSlot h⟩

end IonSchedule
