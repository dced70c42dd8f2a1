import IonSchedule.Pass
import IonSchedule.Proofs.NormalForm

/-! # Runs of passes

A pass makes up its result before it changes anything, so a pass that fails leaves the circuit and the findings
as they were, and what a run leaves behind is what the passes before the failing one have done. Schedules are in
normal form, so a scheduler that follows another one finds nothing to do: it cannot fail, it keeps the circuit
and it counts nothing. Main statement: any list of passes schedules a circuit at most once in effect, and the
findings are those of the passes that completed last.
-/
namespace IonSchedule

namespace Pass

variable {p : Pass} {passes done more : List Pass} {w w₁ w₂ : Workpiece} {c : Circuit} {e : ScheduleError}

/-- What a pass that completes makes of its workpiece. -/
inductive Completes : Pass → Workpiece → Workpiece → Prop
  | scheduler {w : Workpiece} {c : Circuit} {stats : Stats} (h : w.circuit.schedule = .ok (c, stats)) :
      Completes .scheduler w ⟨c, w.findings.insert .stats stats⟩
  | verification {w : Workpiece} {report : Report} (h : w.circuit.verify = .ok report) :
      Completes .verification w ⟨w.circuit, w.findings.insert .verification report⟩
  | skipped {w : Workpiece} {name : String} {work : Work Unit} : Completes (.skipped name work) w w

inductive Fails (w : Workpiece) : Pass → ScheduleError → Prop
  | scheduler {e : ScheduleError} (h : w.circuit.schedule = .error e) : Fails w .scheduler e
  | verification {e : ScheduleError} (h : w.circuit.verify = .error e) : Fails w .verification e

theorem completes_or_fails (p : Pass) (w : Workpiece) : (∃ w₁, Completes p w w₁) ∨ ∃ e, Fails w p e := by
  cases p with
  | scheduler =>
    cases h : w.circuit.schedule with
    | error e => exact .inr ⟨e, .scheduler h⟩
    | ok result => exact .inl ⟨_, .scheduler h⟩
  | verification =>
    cases h : w.circuit.verify with
    | error e => exact .inr ⟨e, .verification h⟩
    | ok report => exact .inl ⟨_, .verification h⟩
  | skipped name work => exact .inl ⟨w, .skipped⟩

section Evaluate

variable {α : Type} {f : Circuit → Except ScheduleError α}

theorem run_evaluate_of_ok {a : α} (h : f w.circuit = .ok a) : (evaluate f).run w = .ok a w := by
  change EStateM.run (MonadExcept.ofExcept (f w.circuit) : Work α) w = .ok a w
  rw [h]
  rfl

theorem run_evaluate_of_error (h : f w.circuit = .error e) : (evaluate f).run w = .error e w := by
  change EStateM.run (MonadExcept.ofExcept (f w.circuit) : Work α) w = .error e w
  rw [h]
  rfl

end Evaluate

theorem perform_of_applies (h : p.applies = true) : p.perform = p.work := if_pos h

theorem Completes.run_perform (h : Completes p w w₁) : p.perform.run w = .ok () w₁ := by
  cases h with
  | scheduler h =>
    rw [perform_of_applies rfl, work, EStateM.run_bind, run_evaluate_of_ok h]
    rfl
  | verification h =>
    rw [perform_of_applies rfl, work, EStateM.run_bind, run_evaluate_of_ok h]
    rfl
  | skipped => rfl

/-- A pass that fails leaves its workpiece as it was. -/
theorem Fails.run_perform (h : Fails w p e) : p.perform.run w = .error e w := by
  cases h with
  | scheduler h => rw [perform_of_applies rfl, work, EStateM.run_bind, run_evaluate_of_error h]
  | verification h => rw [perform_of_applies rfl, work, EStateM.run_bind, run_evaluate_of_error h]

theorem Completes.run_performAll (h : Completes p w w₁) (rest : List Pass) :
    (performAll (p :: rest)).run w = (performAll rest).run w₁ := by
  rw [performAll, EStateM.run_bind, h.run_perform]

theorem Fails.run_performAll (h : Fails w p e) (rest : List Pass) :
    (performAll (p :: rest)).run w = .error e w := by
  rw [performAll, EStateM.run_bind, h.run_perform]

/-- Passes that all complete, one after another. -/
inductive CompleteAll : Workpiece → List Pass → Workpiece → Prop
  | nil (w : Workpiece) : CompleteAll w [] w
  | cons {p : Pass} {passes : List Pass} {w w₁ w₂ : Workpiece} (first : Completes p w w₁)
      (others : CompleteAll w₁ passes w₂) : CompleteAll w (p :: passes) w₂

theorem CompleteAll.append (h : CompleteAll w done w₁) (h' : CompleteAll w₁ more w₂) :
    CompleteAll w (done ++ more) w₂ := by
  induction h with
  | nil w => exact h'
  | cons first others ih => exact .cons first (ih h')

theorem CompleteAll.run_performAll (h : CompleteAll w done w₁) : (performAll done).run w = .ok () w₁ := by
  induction h with
  | nil w => rfl
  | cons first others ih => rw [first.run_performAll, ih]

/-- A run completes the passes up to the first one that fails, and this one changes nothing. -/
theorem exists_completeAll (passes : List Pass) (w : Workpiece) :
    ∃ done rest w₁, passes = done ++ rest ∧ CompleteAll w done w₁ ∧
      (rest = [] ∧ (performAll passes).run w = .ok () w₁ ∨
        ∃ p later e, rest = p :: later ∧ Fails w₁ p e ∧ (performAll passes).run w = .error e w₁) := by
  induction passes generalizing w with
  | nil => exact ⟨[], [], w, rfl, .nil w, .inl ⟨rfl, rfl⟩⟩
  | cons p passes ih =>
    rcases completes_or_fails p w with ⟨w₁, hfirst⟩ | ⟨e, hfails⟩
    · obtain ⟨done, rest, w₂, rfl, hdone, hrest⟩ := ih w₁
      rw [hfirst.run_performAll]
      exact ⟨p :: done, rest, w₂, rfl, .cons hfirst hdone, hrest⟩
    · exact ⟨[], p :: passes, w, rfl, .nil w, .inr ⟨p, passes, e, rfl, hfails, hfails.run_performAll passes⟩⟩

theorem runAll_of_ok {found : Findings} (h : (performAll passes).run ⟨c, found⟩ = .ok () w) :
    runAll passes c found = { w with failure := none } := by
  rw [runAll, h]

theorem runAll_of_error {found : Findings} (h : (performAll passes).run ⟨c, found⟩ = .error e w) :
    runAll passes c found = { w with failure := some e } := by
  rw [runAll, h]

def isScheduler : Pass → Bool
  | .scheduler => true
  | _ => false

/-- How many of the passes are schedulers. -/
def schedulers (passes : List Pass) : Nat := passes.countP isScheduler

theorem schedulers_concat (passes : List Pass) (p : Pass) :
    schedulers (passes ++ [p]) = schedulers passes + if p.isScheduler then 1 else 0 := by
  simp only [schedulers, List.countP_append, List.countP_singleton]

/-- What scheduling leaves behind, if it started from the circuit `c` about which nothing was found. -/
structure Schedules (c : Circuit) (done : List Pass) (w : Workpiece) : Prop where
  unscheduled : schedulers done = 0 → w.circuit = c ∧ w.findings.get? .stats = none
  scheduled : 0 < schedulers done → ∃ stats, c.schedule = .ok (w.circuit, stats) ∧
    w.findings.get? .stats = some (if schedulers done = 1 then stats else ⟨0, 0, 0, 0⟩)

/-- What verification leaves behind: the report of the last one, on the circuit as it was then. -/
structure Verifies (c : Circuit) (done : List Pass) (w : Workpiece) : Prop where
  unverified : .verification ∉ done → w.findings.get? .verification = none
  last : ∀ earlier later, done = earlier ++ .verification :: later → .verification ∉ later →
    ∃ report, (runAll earlier c .empty).circuit.verify = .ok report ∧ w.findings.get? .verification = some report

theorem schedules_nil (c : Circuit) : Schedules c [] ⟨c, .empty⟩ where
  unscheduled _ := ⟨rfl, rfl⟩
  scheduled hpos := by simp [schedulers] at hpos

theorem verifies_nil (c : Circuit) : Verifies c [] ⟨c, .empty⟩ where
  unverified _ := rfl
  last earlier later h := by simp at h

theorem Schedules.congr (h : Schedules c done w) (hp : p.isScheduler = false) (hcircuit : w₁.circuit = w.circuit)
    (hstats : w₁.findings.get? .stats = w.findings.get? .stats) : Schedules c (done ++ [p]) w₁ := by
  have hcount : schedulers (done ++ [p]) = schedulers done := by simp [schedulers_concat, hp]
  constructor
  · rw [hcount, hcircuit, hstats]
    exact h.unscheduled
  · rw [hcount, hcircuit, hstats]
    exact h.scheduled

/-- A first scheduler gives the schedule of the circuit. A further one works on this schedule, which is its own. -/
theorem Schedules.scheduler (h : Schedules c done w) {c' : Circuit} {stats : Stats}
    (hw : w.circuit.schedule = .ok (c', stats)) :
    Schedules c (done ++ [.scheduler]) ⟨c', w.findings.insert .stats stats⟩ := by
  have hcount : schedulers (done ++ [.scheduler]) = schedulers done + 1 := schedulers_concat done .scheduler
  have hstored : (w.findings.insert .stats stats).get? .stats = some stats := Properties.get?_insert_self _ _ _
  refine ⟨fun hzero => by omega, fun _ => ?_⟩
  rcases Nat.eq_zero_or_pos (schedulers done) with hzero | hpos
  · rw [(h.unscheduled hzero).1] at hw
    refine ⟨stats, hw, ?_⟩
    rw [if_pos (by omega)]
    exact hstored
  · obtain ⟨first, hfirst, -⟩ := h.scheduled hpos
    rw [(Circuit.isNormal_of_schedule hfirst).schedule_eq] at hw
    cases hw
    refine ⟨first, hfirst, ?_⟩
    rw [if_neg (by omega)]
    exact hstored

/-- Where one pass has been added, it is either the one that a split singles out or the last one behind it. -/
theorem eq_concat_cases {earlier later : List Pass} {q : Pass} (h : done ++ [p] = earlier ++ q :: later) :
    (later = [] ∧ done = earlier ∧ p = q) ∨ ∃ between, later = between ++ [p] ∧ done = earlier ++ q :: between := by
  rcases List.eq_nil_or_concat' later with rfl | ⟨between, last, rfl⟩
  · obtain ⟨hdone, hlast⟩ := List.append_inj' h rfl
    exact .inl ⟨rfl, hdone, List.singleton_inj.1 hlast⟩
  · have hconcat : done ++ [p] = (earlier ++ q :: between) ++ [last] := by
      rw [List.append_assoc]
      exact h
    obtain ⟨hdone, hlast⟩ := List.append_inj' hconcat rfl
    obtain rfl : p = last := List.singleton_inj.1 hlast
    exact .inr ⟨between, rfl, hdone⟩

theorem Verifies.congr (h : Verifies c done w) (hp : p ≠ .verification)
    (hreport : w₁.findings.get? .verification = w.findings.get? .verification) : Verifies c (done ++ [p]) w₁ := by
  constructor
  · intro hnone
    rw [hreport]
    exact h.unverified fun hmem => hnone (List.mem_append_left [p] hmem)
  · intro earlier later hsplit hlast
    rcases eq_concat_cases hsplit with ⟨-, -, hpass⟩ | ⟨between, rfl, hdone⟩
    · exact absurd hpass hp
    · rw [hreport]
      exact h.last earlier between hdone fun hmem => hlast (List.mem_append_left [p] hmem)

theorem Verifies.verification (hdone : CompleteAll ⟨c, .empty⟩ done w) {report : Report}
    (hw : w.circuit.verify = .ok report) :
    Verifies c (done ++ [.verification]) ⟨w.circuit, w.findings.insert .verification report⟩ := by
  refine ⟨fun hnone => absurd (List.mem_append_right done (List.mem_singleton_self _)) hnone, ?_⟩
  intro earlier later hsplit hlast
  rcases eq_concat_cases hsplit with ⟨-, rfl, -⟩ | ⟨between, rfl, -⟩
  · rw [runAll_of_ok hdone.run_performAll]
    exact ⟨report, hw, Properties.get?_insert_self _ _ _⟩
  · -- the verification added last would stand behind the last verification
    exact absurd (List.mem_append_right between (List.mem_singleton_self _)) hlast

theorem Schedules.concat (h : Schedules c done w) (hp : Completes p w w₁) : Schedules c (done ++ [p]) w₁ := by
  cases hp with
  | scheduler hw => exact h.scheduler hw
  | verification hw => exact h.congr rfl rfl (Properties.get?_insert_of_ne _ _ (by simp))
  | skipped => exact h.congr rfl rfl rfl

theorem Verifies.concat (h : Verifies c done w) (hdone : CompleteAll ⟨c, .empty⟩ done w) (hp : Completes p w w₁) :
    Verifies c (done ++ [p]) w₁ := by
  cases hp with
  | scheduler hw => exact h.congr (by simp) (Properties.get?_insert_of_ne _ _ (by simp))
  | verification hw => exact .verification hdone hw
  | skipped => exact h.congr (by simp) rfl

/-- What each pass that completes keeps, all of them keep. -/
theorem CompleteAll.accounts (h : CompleteAll w more w₁) (hdone : CompleteAll ⟨c, .empty⟩ done w)
    (hs : Schedules c done w) (hv : Verifies c done w) :
    Schedules c (done ++ more) w₁ ∧ Verifies c (done ++ more) w₁ := by
  induction h generalizing done with
  | nil w =>
    rw [List.append_nil]
    exact ⟨hs, hv⟩
  | @cons p passes w w₁ w₂ first others ih =>
    rw [List.append_cons]
    exact ih (hdone.append (.cons first (.nil w₁))) (hs.concat first) (hv.concat hdone first)

/-- Where a scheduler has completed, no other one fails. -/
theorem Schedules.of_fails (h : Schedules c done w) (hfails : Fails w .scheduler e) :
    schedulers done = 0 ∧ c.schedule = .error e := by
  cases hfails with
  | scheduler hw =>
    rcases Nat.eq_zero_or_pos (schedulers done) with hzero | hpos
    · rw [(h.unscheduled hzero).1] at hw
      exact ⟨hzero, hw⟩
    · obtain ⟨stats, hschedule, -⟩ := h.scheduled hpos
      rw [(Circuit.isNormal_of_schedule hschedule).schedule_eq] at hw
      cases hw

/-- Any passes over a circuit about which nothing was found complete in order up to the first that fails, if one
does, and leave what those that completed have done. The circuit is the given one if no scheduler completed and
else its schedule, and only a scheduler before which none has completed can fail. The counts are those of the
schedule after one scheduler and zero after more. The report is that of the last verification, on the circuit as
it was then. -/
theorem runAll_schedules_once (c : Circuit) (passes : List Pass) :
    ∃ done rest, passes = done ++ rest ∧
      runAll done c .empty = { runAll passes c .empty with failure := none } ∧
      (rest = [] ∧ (runAll passes c .empty).failure = none ∨
        ∃ p later e, rest = p :: later ∧ (runAll passes c .empty).failure = some e ∧
          (p = .scheduler ∧ schedulers done = 0 ∧ c.schedule = .error e ∨
            p = .verification ∧ (runAll passes c .empty).circuit.verify = .error e)) ∧
      (schedulers done = 0 →
        (runAll passes c .empty).circuit = c ∧ (runAll passes c .empty).findings.get? .stats = none) ∧
      (0 < schedulers done → ∃ stats, c.schedule = .ok ((runAll passes c .empty).circuit, stats) ∧
        (runAll passes c .empty).findings.get? .stats =
          some (if schedulers done = 1 then stats else ⟨0, 0, 0, 0⟩)) ∧
      (.verification ∉ done → (runAll passes c .empty).findings.get? .verification = none) ∧
      ∀ earlier later, done = earlier ++ .verification :: later → .verification ∉ later →
        ∃ report, (runAll earlier c .empty).circuit.verify = .ok report ∧
          (runAll passes c .empty).findings.get? .verification = some report := by
  obtain ⟨done, rest, w, rfl, hdone, hrest⟩ := exists_completeAll passes ⟨c, .empty⟩
  obtain ⟨hs, hv⟩ := hdone.accounts (.nil _) (schedules_nil c) (verifies_nil c)
  rw [List.nil_append] at hs hv
  refine ⟨done, rest, rfl, ?_⟩
  rw [runAll_of_ok hdone.run_performAll]
  rcases hrest with ⟨rfl, hrun⟩ | ⟨p, later, e, rfl, hfails, hrun⟩
  · rw [runAll_of_ok hrun]
    exact ⟨rfl, .inl ⟨rfl, rfl⟩, hs.unscheduled, hs.scheduled, hv.unverified, hv.last⟩
  · rw [runAll_of_error hrun]
    refine ⟨rfl, .inr ⟨p, later, e, rfl, rfl, ?_⟩, hs.unscheduled, hs.scheduled, hv.unverified, hv.last⟩
    cases hfails with
    | scheduler hw => exact .inl ⟨rfl, hs.of_fails (.scheduler hw)⟩
    | verification hw => exact .inr ⟨rfl, hw⟩

end Pass

end IonSchedule
