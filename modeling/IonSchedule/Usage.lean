import Std.Data.ExtTreeSet
import IonSchedule.Statement

/-! # Qubit usage

Which slots a statement touches. A slot is a place in a fundamental register, or a parameter of the macro around
the statement: a parameter stands for one qubit, so two statements on it conflict whatever it is bound to. The
universe holds every slot there is; a barrier gate touches all of them, a block what its statements touch, and a
loop what its body touches.
-/
namespace IonSchedule

/-- What slots are counted within. -/
inductive SlotGroup where
  | register (name : String)
  | parameter (name : String)
deriving DecidableEq

structure Slot where
  group : SlotGroup
  index : Nat
deriving DecidableEq

namespace SlotGroup

/-- Registers come before parameters. -/
def rank : SlotGroup → Nat
  | .register _ => 0
  | .parameter _ => 1

def name : SlotGroup → String
  | .register name => name
  | .parameter name => name

theorem eq_of_rank_of_name {g h : SlotGroup} (hr : g.rank = h.rank) (hn : g.name = h.name) : g = h := by
  cases g <;> cases h <;> simp_all [rank, name]

end SlotGroup

namespace Slot

/-- Slots are ordered by kind of group, then name, then index. -/
def order : Slot → Slot → Ordering :=
  compareLex (compareOn (·.group.rank)) (compareLex (compareOn (·.group.name)) (compareOn (·.index)))

instance : Std.TransCmp order := inferInstanceAs (Std.TransCmp (compareLex _ (compareLex _ _)))

theorem eq_of_order_eq {a b : Slot} (h : order a b = .eq) : a = b := by
  simp only [order, compareLex, Ordering.then_eq_eq, compareOn, Std.LawfulEqOrd.compare_eq_iff_eq] at h
  obtain ⟨hr, hn, hi⟩ := h
  cases a; cases b
  simp only [mk.injEq]
  exact ⟨SlotGroup.eq_of_rank_of_name hr hn, hi⟩

instance : Std.LawfulEqCmp order where
  eq_of_compare := eq_of_order_eq

end Slot

abbrev Usage := Std.ExtTreeSet Slot Slot.order

namespace Usage

/-- No slot is in both sets. -/
def disjoint (a b : Usage) : Bool := (a ∩ b).isEmpty

/-- The places in use within a group, in order. -/
def indices (u : Usage) (group : SlotGroup) : List Nat := (u.toList.filter (·.group = group)).map Slot.index

def ofList (slots : List Slot) : Usage := slots.foldl (fun u s => u.insert s) ∅

end Usage

/-- Every slot there is, with the registers that named qubits are resolved against. -/
structure Universe where
  registers : Registers
  /-- The groups with their sizes, in order of declaration. -/
  groups : List (SlotGroup × Nat)
  full : Usage

namespace Universe

/-- Sets the size of a group; a group that is already there keeps its place. -/
def setSize (group : SlotGroup) (size : Nat) : List (SlotGroup × Nat) → List (SlotGroup × Nat)
  | [] => [(group, size)]
  | (g, n) :: rest => if g = group then (group, size) :: rest else (g, n) :: setSize group size rest

def addGroup (u : Universe) (group : SlotGroup) (size : Nat) : Universe :=
  { u with
    groups := setSize group size u.groups
    full := u.full ∪ Usage.ofList ((List.range size).map (⟨group, ·⟩)) }

def ofRegisters (t : Registers) : Universe :=
  t.fundamental.foldl (fun u (name, size) => u.addGroup (.register name) size) ⟨t, [], ∅⟩

/-- One more slot for each parameter of a macro. -/
def withParameters (u : Universe) (parameters : List String) : Universe :=
  parameters.foldl (fun u name => u.addGroup (.parameter name) 1) u

def hasParameter (u : Universe) (name : String) : Bool := u.groups.any fun entry => entry.1 = .parameter name

def qubitCount (u : Universe) : Nat := u.groups.foldr (fun entry count => entry.2 + count) 0

/-- The slots touched through one argument at a qubit position. A reference must name a parameter of the macro
around the call; only among the arguments of a macro call may it be a constant, which touches nothing. -/
def argumentUsage (u : Universe) (g : GateCall) : Argument → Except CircuitError Usage
  | .qubit q =>
    match u.registers.resolve q with
    | .ok p => .ok {⟨.register p.register, p.index⟩}
    | .error e => .error (e.inCall g.name)
  | .ref name =>
    if u.hasParameter name then .ok {⟨.parameter name, 0⟩}
    else if g.isNative then .error (.unresolvedReference name)
    else .ok ∅
  | .number _ => .ok ∅

def argumentsUsage (u : Universe) (g : GateCall) : List Argument → Except CircuitError Usage
  | [] => .ok ∅
  | a :: rest => do
    let first ← u.argumentUsage g a
    let others ← u.argumentsUsage g rest
    return first ∪ others

def gateUsage (u : Universe) (g : GateCall) : Except CircuitError Usage :=
  if g.isBarrier then .ok u.full else u.argumentsUsage g g.quantumArgs

mutual

def usage (u : Universe) : Statement → Except CircuitError Usage
  | .gate g => u.gateUsage g
  | .block _ statements => u.usageAll statements
  | .loop _ _ body => u.usageAll body

def usageAll (u : Universe) : List Statement → Except CircuitError Usage
  | [] => .ok ∅
  | s :: rest => do
    let first ← u.usage s
    let others ← u.usageAll rest
    return first ∪ others

end

end Universe

end IonSchedule
