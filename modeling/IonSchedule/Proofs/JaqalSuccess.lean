import IonSchedule.Proofs.JaqalLines

/-! # When a circuit has a Jaqal text

Two things cannot be written: a number that is not finite, and a list of positions that is not a range.
Everything else is, and every gate call at any depth comes to be written. So a circuit has a text exactly if its
constants and the numbers in its calls are finite and its index lists are ranges. Main statement: this, and that
a schedule has a text exactly if the circuit has one, since scheduling keeps the declarations and the calls.
-/
namespace IonSchedule

namespace Selection

/-- The positions grow by the same step throughout. -/
def IsProgression (positions : List Nat) : Prop :=
  ∃ start step, 0 < step ∧ positions = List.range' start positions.length step

theorem regular_iff {step before : Nat} {positions : List Nat} :
    regular step before positions = true ↔ positions = List.range' (before + step) positions.length step := by
  induction positions generalizing before with
  | nil => simp [regular]
  | cons next rest ih =>
    rw [regular, List.length_cons, List.range'_succ, List.cons.injEq, Bool.and_eq_true, decide_eq_true_eq, ih]
    constructor
    · rintro ⟨rfl, hrest⟩
      exact ⟨rfl, hrest⟩
    · rintro ⟨rfl, hrest⟩
      exact ⟨rfl, hrest⟩

/-- The lists that can be written as a range. -/
theorem exists_asSlice?_iff {positions : List Nat} :
    (∃ range, asSlice? positions = some range) ↔
      positions = [] ∨ (∃ only, positions = [only]) ∨ IsProgression positions := by
  rcases positions with _ | ⟨first, _ | ⟨second, rest⟩⟩
  · simp [asSlice?]
  · simp [asSlice?]
  · have hprogression : IsProgression (first :: second :: rest) ↔
        first < second ∧ rest = List.range' (second + (second - first)) rest.length (second - first) := by
      simp only [IsProgression, List.length_cons, List.range'_succ, List.cons.injEq]
      constructor
      · rintro ⟨start, step, hstep, rfl, rfl, hrest⟩
        rw [Nat.add_sub_cancel_left]
        exact ⟨by omega, hrest⟩
      · rintro ⟨hlt, hrest⟩
        refine ⟨first, second - first, by omega, rfl, by omega, ?_⟩
        rw [Nat.add_sub_cancel' (Nat.le_of_lt hlt)]
        exact hrest
    rw [hprogression, asSlice?]
    simp [regular_iff]

end Selection

section Success

variable {ε α β : Type} {x : Except ε α}

/-- Whether the second part succeeds may not depend on what the first part gives. -/
theorem exists_bind_eq_ok_iff {f : α → Except ε β} {P : Prop} (h : ∀ a, (∃ b, f a = .ok b) ↔ P) :
    (∃ b, x >>= f = .ok b) ↔ (∃ a, x = .ok a) ∧ P := by
  cases x with
  | error e => simp [bind, Except.bind]
  | ok a => simp [bind, Except.bind, h a]

theorem exists_bind_pure_eq_ok_iff {f : α → β} : (∃ b, x >>= (fun a => pure (f a)) = .ok b) ↔ ∃ a, x = .ok a := by
  cases x with
  | error e => simp [bind, Except.bind]
  | ok a => simp [bind, Except.bind, pure, Except.pure]

theorem exists_eq_ok_unit_iff {x : Except ε Unit} : (∃ a, x = .ok a) ↔ x = .ok () := by
  constructor
  · rintro ⟨_, h⟩
    exact h
  · intro h
    exact ⟨(), h⟩

end Success

/-- The numbers among the arguments are finite. -/
def GateCall.IsFinite (g : GateCall) : Prop := ∀ value, .number value ∈ g.args → value.isFinite = true

/-- A register that shows listed positions shows a range of them. -/
def Register.IsRanged (r : Register) : Prop :=
  ∀ source positions, r.kind = .mapped source (.indices positions) →
    positions = [] ∨ (∃ only, positions = [only]) ∨ Selection.IsProgression positions

namespace Jaqal

theorem exists_gateLine_iff {g : GateCall} : (∃ line, gateLine g = .ok line) ↔ g.IsFinite := by
  rw [gateLine, exists_bind_pure_eq_ok_iff, exists_eq_ok_unit_iff]
  exact checkArguments_eq_ok_iff

theorem exists_statementsLines_of {ss : List Statement}
    (hss : ∀ s ∈ ss, ((∃ lines, statementLines s = .ok lines) ↔ ∀ g ∈ Reading.calls.read s, g.IsFinite)) :
    (∃ lines, statementsLines ss = .ok lines) ↔ ∀ g ∈ Reading.calls.readAll ss, g.IsFinite := by
  induction ss with
  | nil => simp [statementsLines, pure_eq_ok_iff]
  | cons s rest ih =>
    rw [List.forall_mem_cons] at hss
    rw [statementsLines, exists_bind_eq_ok_iff fun _ => exists_bind_pure_eq_ok_iff, hss.1, ih hss.2,
      Reading.readAll_cons]
    simp only [Multiset.mem_add, or_imp, forall_and]

/-- Every call at any depth of a statement comes to be written. -/
theorem exists_statementLines_iff (s : Statement) :
    (∃ lines, statementLines s = .ok lines) ↔ ∀ g ∈ Reading.calls.read s, g.IsFinite := by
  induction s using Statement.induction with
  | gate g =>
    rw [statementLines, exists_bind_pure_eq_ok_iff, exists_gateLine_iff, Reading.read_gate]
    simp
  | block kind ss ih =>
    rw [statementLines, exists_bind_pure_eq_ok_iff, exists_statementsLines_of ih, Reading.read_block]
  | loop count kind body ih =>
    rw [statementLines, exists_bind_pure_eq_ok_iff, exists_statementsLines_of ih, Reading.read_loop,
      Reading.calls_loop]

theorem exists_statementsLines_iff {ss : List Statement} :
    (∃ lines, statementsLines ss = .ok lines) ↔ ∀ g ∈ Reading.calls.readAll ss, g.IsFinite :=
  exists_statementsLines_of fun s _ => exists_statementLines_iff s

theorem exists_macrosLines_iff {ms : List Macro} :
    (∃ lines, macrosLines ms = .ok lines) ↔
      ∀ m ∈ ms, ∀ g ∈ Reading.calls.readAll m.body.statements, g.IsFinite := by
  induction ms with
  | nil => simp [macrosLines, pure_eq_ok_iff]
  | cons m rest ih =>
    rw [macrosLines, exists_bind_eq_ok_iff fun _ => exists_bind_pure_eq_ok_iff, ih, macroLines,
      exists_bind_pure_eq_ok_iff, exists_statementsLines_iff, List.forall_mem_cons]

theorem exists_constantLines_iff {entries : List (String × Binary64)} :
    (∃ lines, constantLines entries = .ok lines) ↔ ∀ entry ∈ entries, entry.2.isFinite = true := by
  induction entries with
  | nil => simp [constantLines, pure_eq_ok_iff]
  | cons entry rest ih =>
    rw [constantLines, exists_bind_eq_ok_iff fun _ => exists_bind_pure_eq_ok_iff, ih, exists_eq_ok_unit_iff,
      checkNumber_eq_ok_iff, List.forall_mem_cons]

theorem exists_registerLine_iff {r : Register} : (∃ line, registerLine r = .ok line) ↔ r.IsRanged := by
  obtain ⟨name, kind⟩ := r
  cases kind with
  | fundamental size => simp [registerLine, Register.IsRanged, pure_eq_ok_iff]
  | mapped source selection =>
    simp only [registerLine]
    rw [exists_bind_pure_eq_ok_iff]
    cases selection with
    | whole => simp [selectionText, Register.IsRanged, pure_eq_ok_iff]
    | slice start stop step => simp [selectionText, Register.IsRanged, pure_eq_ok_iff]
    | indices positions =>
      have hranged : (⟨name, .mapped source (.indices positions)⟩ : Register).IsRanged ↔
          ∃ range, Selection.asSlice? positions = some range := by
        rw [Selection.exists_asSlice?_iff]
        simp [Register.IsRanged]
      rw [hranged, selectionText]
      cases Selection.asSlice? positions with
      | none => simp
      | some range => simp [pure_eq_ok_iff]

theorem exists_registerLines_iff {rs : List Register} :
    (∃ lines, registerLines rs = .ok lines) ↔ ∀ r ∈ rs, r.IsRanged := by
  induction rs with
  | nil => simp [registerLines, pure_eq_ok_iff]
  | cons r rest ih =>
    rw [registerLines, exists_bind_eq_ok_iff fun _ => exists_bind_pure_eq_ok_iff, exists_registerLine_iff, ih,
      List.forall_mem_cons]

end Jaqal

namespace Circuit

open Jaqal Schedule

variable {c c' : Circuit}

/-- Numbers are finite and index lists are ranges. -/
def IsPrintable (c : Circuit) : Prop :=
  (∀ entry ∈ c.constants.items, entry.2.isFinite = true) ∧
  (∀ g ∈ Reading.calls.readAll c.body.statements, g.IsFinite) ∧
  (∀ m ∈ c.macros.values, ∀ g ∈ Reading.calls.readAll m.body.statements, g.IsFinite) ∧
  ∀ r ∈ c.registers.values, r.IsRanged

theorem exists_toJaqal_iff : (∃ text, c.toJaqal = .ok text) ↔ c.IsPrintable := by
  rw [toJaqal, exists_bind_pure_eq_ok_iff, jaqalLines,
    exists_bind_eq_ok_iff fun _ => exists_bind_eq_ok_iff fun _ => exists_bind_eq_ok_iff fun _ =>
      exists_bind_pure_eq_ok_iff,
    exists_registerLines_iff, exists_constantLines_iff, exists_macrosLines_iff, exists_statementsLines_iff]
  constructor
  · rintro ⟨hregisters, hconstants, hmacros, hbody⟩
    exact ⟨hconstants, hbody, hmacros, hregisters⟩
  · rintro ⟨hconstants, hbody, hmacros, hregisters⟩
    exact ⟨hregisters, hconstants, hmacros, hbody⟩

/-- Scheduling keeps the calls of every macro. -/
theorem Arranges.map_calls (h : c.Arranges c') :
    c'.macros.values.map (fun m => Reading.calls.readAll m.body.statements) =
      c.macros.values.map fun m => Reading.calls.readAll m.body.statements := by
  rw [← List.forall₂_eq_eq_eq, Table.values, Table.values]
  simp only [List.forall₂_map_left_iff, List.forall₂_map_right_iff]
  refine h.macros.flip.imp ?_
  rintro e' e ⟨-, -, -, hbody⟩
  exact (Reading.independent_of_comm Reading.calls _).readAll_arrangesBlock hbody

theorem Arranges.isPrintable_iff (h : c.Arranges c') : c'.IsPrintable ↔ c.IsPrintable := by
  have hbody : Reading.calls.readAll c'.body.statements = Reading.calls.readAll c.body.statements :=
    (Reading.independent_of_comm Reading.calls c.slots).readAll_arrangesBlock h.body
  have hmacros : (∀ m ∈ c'.macros.values, ∀ g ∈ Reading.calls.readAll m.body.statements, g.IsFinite) ↔
      ∀ m ∈ c.macros.values, ∀ g ∈ Reading.calls.readAll m.body.statements, g.IsFinite := by
    have hall := congrArg (fun lists => ∀ calls ∈ lists, ∀ g ∈ calls, GateCall.IsFinite g) h.map_calls
    simpa only [List.forall_mem_map, eq_iff_iff] using hall
  rw [IsPrintable, IsPrintable, h.constants, h.registers, hmacros, hbody]

/-- A circuit has a text exactly if its constants and the numbers of its calls at any depth, in the body and in
the macros, are finite, and each of its index lists is empty, a single position or a progression. A schedule has
a text exactly if the circuit has one. -/
theorem toJaqal_succeeds_iff (c : Circuit) :
    ((∃ text, c.toJaqal = .ok text) ↔
      (∀ entry ∈ c.constants.items, entry.2.isFinite = true) ∧
      (∀ g ∈ Reading.calls.readAll c.body.statements, g.IsFinite) ∧
      (∀ m ∈ c.macros.values, ∀ g ∈ Reading.calls.readAll m.body.statements, g.IsFinite) ∧
      ∀ r ∈ c.registers.values, r.IsRanged) ∧
    ∀ c' stats, c.schedule = .ok (c', stats) →
      ((∃ text, c'.toJaqal = .ok text) ↔ ∃ text, c.toJaqal = .ok text) := by
  refine ⟨exists_toJaqal_iff, fun c' stats h => ?_⟩
  rw [exists_toJaqal_iff, exists_toJaqal_iff]
  exact (arranges_of_schedule h).isPrintable_iff

end Circuit

namespace Sample

/-- A rotation in a loop inside an unscheduled body, on a register that shows listed positions. -/
def rotatedPick (angle : Binary64) (positions : List Nat) : Circuit where
  constants := ⟨[("zero", .zero true)], by simp⟩
  registers := ⟨[("q", ⟨"q", .fundamental 4⟩), ("pick", ⟨"pick", .mapped "q" (.indices positions)⟩)], by simp⟩
  macros := ⟨[], by simp⟩
  nativeGates := .qscout
  body := ⟨.unscheduled,
    [px (onQ 0),
      .loop (.symbol "zero") .unscheduled
        [.gate (.native ⟨"Rx", [⟨"q", .qubit⟩, ⟨"angle", .float⟩]⟩ [.qubit ⟨"pick", 1⟩, .number angle]),
          px (onQ 2)]]⟩

end Sample

namespace Circuit

theorem toJaqal_succeeds_rotatedPick :
    (∃ c' stats, (Sample.rotatedPick (.zero true) [1, 3]).schedule = .ok (c', stats) ∧
      ∃ text, c'.toJaqal = .ok text) ∧
    (∃ c' stats, (Sample.rotatedPick .nan [1, 3]).schedule = .ok (c', stats) ∧ ¬ ∃ text, c'.toJaqal = .ok text) ∧
    ∃ c' stats, (Sample.rotatedPick (.zero true) [3, 1]).schedule = .ok (c', stats) ∧
      ¬ ∃ text, c'.toJaqal = .ok text := by
  have hschedule : ∀ c : Circuit, c.schedule.toBool = true → ∃ c' stats, c.schedule = .ok (c', stats) ∧
      ((∃ text, c'.toJaqal = .ok text) ↔ ∃ text, c.toJaqal = .ok text) := by
    intro c hc
    obtain ⟨⟨c', stats⟩, h⟩ := toBool_iff.1 hc
    exact ⟨c', stats, h, (toJaqal_succeeds_iff c).2 c' stats h⟩
  obtain ⟨c₁, stats₁, h₁, htext₁⟩ := hschedule (Sample.rotatedPick (.zero true) [1, 3]) (by decide +kernel)
  obtain ⟨c₂, stats₂, h₂, htext₂⟩ := hschedule (Sample.rotatedPick .nan [1, 3]) (by decide +kernel)
  obtain ⟨c₃, stats₃, h₃, htext₃⟩ := hschedule (Sample.rotatedPick (.zero true) [3, 1]) (by decide +kernel)
  refine ⟨⟨c₁, stats₁, h₁, ?_⟩, ⟨c₂, stats₂, h₂, ?_⟩, ⟨c₃, stats₃, h₃, ?_⟩⟩
  · rw [htext₁, ← toBool_iff]
    decide +kernel
  · rw [htext₂, ← toBool_iff]
    decide +kernel
  · rw [htext₃, ← toBool_iff]
    decide +kernel

end Circuit

end IonSchedule
