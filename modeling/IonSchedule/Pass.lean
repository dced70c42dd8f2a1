import IonSchedule.Verification

/-! # Passes

Passes run in order over one circuit and leave what they found in a store of properties, which holds at most one
value of each sort. The first failing pass ends the run; what the passes before it did stays.
-/
namespace IonSchedule

/-- At most one value for each sort of property. -/
def Properties (κ : Type) (β : κ → Type) : Type := (k : κ) → Option (β k)

namespace Properties

variable {κ : Type} {β : κ → Type} [DecidableEq κ]

def empty : Properties κ β := fun _ => none

def get? (p : Properties κ β) (k : κ) : Option (β k) := p k

def contains (p : Properties κ β) (k : κ) : Bool := (p k).isSome

def insert (p : Properties κ β) (k : κ) (value : β k) : Properties κ β :=
  fun j => if h : k = j then some (h ▸ value) else p j

def erase (p : Properties κ β) (k : κ) : Properties κ β := fun j => if k = j then none else p j

theorem get?_insert_self (p : Properties κ β) (k : κ) (value : β k) : (p.insert k value).get? k = some value := by
  simp [get?, insert]

theorem get?_insert_of_ne (p : Properties κ β) {k j : κ} (value : β k) (h : k ≠ j) :
    (p.insert k value).get? j = p.get? j := by
  simp [get?, insert, h]

end Properties

inductive Finding where
  | stats
  | verification
deriving DecidableEq

def Finding.Value : Finding → Type
  | .stats => Stats
  | .verification => Report

abbrev Findings := Properties Finding Finding.Value

/-- The circuit that passes work on, with what was found about it. -/
structure Workpiece where
  circuit : Circuit
  findings : Findings

/-- Work on a circuit that may fail. What was changed before it fails stays changed. -/
abbrev Work := EStateM ScheduleError Workpiece

inductive Pass where
  | scheduler
  | verification
  /-- A pass that applies to nothing, whatever its work would be. -/
  | skipped (name : String) (work : Work Unit)

namespace Pass

def name : Pass → String
  | .scheduler => "parallel_scheduler"
  | .verification => "schedule_verification"
  | .skipped name _ => name

def applies : Pass → Bool
  | .skipped _ _ => false
  | _ => true

/-- What `f` makes of the circuit as it stands. -/
def evaluate {α : Type} (f : Circuit → Except ScheduleError α) : Work α := do
  MonadExcept.ofExcept (f (← get).circuit)

def work : Pass → Work Unit
  | .scheduler => do
    let (scheduled, stats) ← evaluate Circuit.schedule
    modify fun w => { w with circuit := scheduled }
    modify fun w => { w with findings := w.findings.insert .stats stats }
  | .verification => do
    let report ← evaluate Circuit.verify
    modify fun w => { w with findings := w.findings.insert .verification report }
  | .skipped _ work => work

/-- A pass that does not apply is passed over. -/
def perform (p : Pass) : Work Unit := if p.applies then p.work else return

def performAll : List Pass → Work Unit
  | [] => return
  | p :: rest => do
    p.perform
    performAll rest

/-- The circuit and findings after a run of passes, and the failure that ended it, if one did. -/
structure Outcome extends Workpiece where
  failure : Option ScheduleError

def runAll (passes : List Pass) (c : Circuit) (found : Findings) : Outcome :=
  match (performAll passes).run ⟨c, found⟩ with
  | .ok _ after => { after with failure := none }
  | .error e after => { after with failure := some e }

def pipeline (verify : Bool) : List Pass := .scheduler :: if verify then [.verification] else []

end Pass

end IonSchedule
