import IonSchedule.Proofs.Resolution
import IonSchedule.Proofs.Success

/-! # Validated circuits

Validation looks at every call of a circuit in the scope of the macro around it: a qubit must lie within the
size of its register, and a reference at a qubit position of a native gate must be a parameter. This is what the
usage of a call resolves by, up to index lists that leave their source, which validation does not look at. So a
validated circuit whose index lists stay in range is scheduled, and there is a validated circuit that is not.
-/
namespace IonSchedule

/-- An argument that may stand at a qubit position; `native` says that the call is one of a native gate. -/
def Argument.FitsQubit (c : Circuit) (scope : List String) (native : Bool) : Argument → Prop
  | .qubit q => c.registers.qubit q.register q.index = .ok q
  | .ref name => native = true → name ∈ scope
  | .number _ => native = false

/-- The calls and the counts of loops at any depth. -/
def Reading.mentions : Reading (Multiset (GateCall ⊕ LoopCount)) where
  gate g := {.inl g}
  loop count body := {.inr count} + body

namespace Circuit

variable {c : Circuit} {scope : List String} {gate : String} {position : Nat} {a : Argument} {args : List Argument}

theorem checkQubit_eq_ok_iff {q : Qubit} :
    c.checkQubit gate q = .ok () ↔ c.registers.qubit q.register q.index = .ok q := by
  unfold checkQubit Registers.qubit
  cases c.registers.sizeOf q.register with
  | error e => simp [bind, Except.bind]
  | ok size => by_cases hi : q.index < size <;> simp [bind, Except.bind, hi]

theorem fitsQubit_of_checkNativeArgument (h : c.checkNativeArgument scope gate position .qubit a = .ok ()) :
    a.FitsQubit c scope true := by
  cases a with
  | number value => simp [checkNativeArgument] at h
  | qubit q => exact checkQubit_eq_ok_iff.1 h
  | ref name => exact fun _ => by simpa [checkNativeArgument] using h

theorem fitsQubit_of_checkMacroArgument (h : c.checkMacroArgument scope gate a = .ok ()) :
    a.FitsQubit c scope false := by
  cases a with
  | number value => rfl
  | qubit q => exact checkQubit_eq_ok_iff.1 h
  | ref name =>
    intro hnative
    cases hnative

theorem fitsQubit_of_checkNativeArguments {parameters : List Parameter}
    (h : c.checkNativeArguments scope gate position parameters args = .ok ()) {e : Argument × Parameter}
    (he : e ∈ args.zip parameters) (hquantum : e.2.kind.isQuantum = true) : e.1.FitsQubit c scope true := by
  induction parameters generalizing position args with
  | nil => simp at he
  | cons p ps ih =>
    cases args with
    | nil => simp at he
    | cons a rest =>
      simp only [checkNativeArguments, check_eq_ok_iff] at h
      obtain ⟨hfirst, hrest⟩ := h
      rcases List.mem_cons.1 he with rfl | he
      · have hkind : p.kind = .qubit := by simpa [ParameterKind.isQuantum] using hquantum
        rw [hkind] at hfirst
        exact fitsQubit_of_checkNativeArgument hfirst
      · exact ih hrest he

theorem fitsQubit_of_checkMacroArguments (h : c.checkMacroArguments scope gate args = .ok ()) (ha : a ∈ args) :
    a.FitsQubit c scope false := by
  induction args with
  | nil => simp at ha
  | cons first rest ih =>
    simp only [checkMacroArguments, check_eq_ok_iff] at h
    obtain ⟨hfirst, hrest⟩ := h
    rcases List.mem_cons.1 ha with rfl | ha
    · exact fitsQubit_of_checkMacroArgument hfirst
    · exact ih hrest ha

/-- A call is bound to a native gate, or else to a macro, of its name. -/
theorem checkCall_eq_ok_iff {name : String} {kind : GateKind} :
    c.checkCall scope name args = .ok kind ↔
      (∃ d, c.nativeGates.find? name = some d ∧ d.parameters.length = args.length ∧
        c.checkNativeArguments scope name 0 d.parameters args = .ok () ∧ kind = .native d) ∨
      (c.nativeGates.find? name = none ∧ ∃ m, c.macros.get? name = some m ∧ m.parameters.length = args.length ∧
        c.checkMacroArguments scope name args = .ok () ∧ kind = .composite) := by
  unfold checkCall
  cases c.nativeGates.find? name with
  | some d =>
    by_cases hlength : d.parameters.length = args.length
    · simp only [hlength, if_true, check_eq_ok_iff, pure_eq_ok_iff]
      simp [hlength, eq_comm (a := kind)]
    · simp [hlength]
  | none =>
    cases c.macros.get? name with
    | none => simp
    | some m =>
      by_cases hlength : m.parameters.length = args.length
      · simp only [hlength, if_true, check_eq_ok_iff, pure_eq_ok_iff]
        simp [hlength, eq_comm (a := kind)]
      · simp [hlength]

/-- A call that validation accepts in the scope. -/
def AcceptsCall (c : Circuit) (scope : List String) (g : GateCall) : Prop :=
  c.checkCall scope g.name g.args = .ok g.kind

theorem AcceptsCall.fitsQubit {g : GateCall} (h : c.AcceptsCall scope g) (ha : a ∈ g.quantumArgs) :
    a.FitsQubit c scope g.isNative := by
  obtain ⟨name, kind, args⟩ := g
  rcases checkCall_eq_ok_iff.1 h with ⟨d, -, -, hargs, rfl⟩ | ⟨-, m, -, -, hargs, rfl⟩
  · obtain ⟨e, he, rfl⟩ := List.mem_map.1 ha
    obtain ⟨he, hquantum⟩ := List.mem_filter.1 he
    exact fitsQubit_of_checkNativeArguments hargs he hquantum
  · exact fitsQubit_of_checkMacroArguments hargs ha

section Statements

variable {s : Statement} {ss : List Statement}

theorem checkStatement_gate_iff {g : GateCall} :
    c.checkStatement scope (.gate g) = .ok () ↔ c.AcceptsCall scope g := by
  unfold AcceptsCall
  rw [checkStatement]
  cases c.checkCall scope g.name g.args with
  | error e => simp
  | ok kind => by_cases hkind : kind = g.kind <;> simp [hkind]

theorem checkStatements_eq_ok_iff :
    c.checkStatements scope ss = .ok () ↔ ∀ s ∈ ss, c.checkStatement scope s = .ok () := by
  induction ss with
  | nil => simp [checkStatements]
  | cons s rest ih => simp only [checkStatements, check_eq_ok_iff, ih, List.forall_mem_cons]

theorem checkStatement_loop_iff {count : LoopCount} {kind : BlockKind} :
    c.checkStatement scope (.loop count kind ss) = .ok () ↔
      c.checkCount scope count = .ok () ∧ c.checkStatements scope ss = .ok () := by
  simp only [checkStatement, check_eq_ok_iff]

/-- What validation accepts in the scope, of what statements are made of. -/
def Accepts (c : Circuit) (scope : List String) : GateCall ⊕ LoopCount → Prop
  | .inl g => c.AcceptsCall scope g
  | .inr count => c.checkCount scope count = .ok ()

/-- The check of a statement is that of each call and each count in it. -/
theorem checkStatement_eq_ok_iff :
    c.checkStatement scope s = .ok () ↔ ∀ x ∈ Reading.mentions.read s, c.Accepts scope x := by
  induction s using Statement.induction with
  | gate g =>
    rw [checkStatement_gate_iff, Reading.read_gate]
    simp [Reading.mentions, Accepts]
  | block kind ss ih =>
    rw [checkStatement, checkStatements_eq_ok_iff, Reading.read_block, Reading.forall_readAll_iff]
    exact forall₂_congr ih
  | loop count kind body ih =>
    rw [checkStatement_loop_iff, checkStatements_eq_ok_iff, forall₂_congr ih, ← Reading.forall_readAll_iff,
      Reading.read_loop]
    simp only [Reading.mentions, Multiset.mem_add, Multiset.mem_singleton, forall_eq_or_imp, Accepts]

theorem checkStatements_eq_ok_iff_mentions :
    c.checkStatements scope ss = .ok () ↔ ∀ x ∈ Reading.mentions.readAll ss, c.Accepts scope x := by
  rw [checkStatements_eq_ok_iff, Reading.forall_readAll_iff]
  exact forall₂_congr fun s _ => checkStatement_eq_ok_iff

/-- Validation reaches every call. -/
theorem acceptsCall_of_checkStatement (h : c.checkStatement scope s = .ok ()) :
    ∀ g ∈ Reading.calls.read s, c.AcceptsCall scope g := by
  induction s using Statement.induction with
  | gate g =>
    intro g' hg'
    rw [Reading.read_gate] at hg'
    rw [Multiset.mem_singleton.1 hg']
    exact checkStatement_gate_iff.1 h
  | block kind ss ih =>
    rw [checkStatement, checkStatements_eq_ok_iff] at h
    intro g hg
    rw [Reading.read_block, Reading.mem_calls_readAll_iff] at hg
    obtain ⟨s, hs, hg⟩ := hg
    exact ih s hs (h s hs) g hg
  | loop count kind body ih =>
    have hbody := checkStatements_eq_ok_iff.1 (checkStatement_loop_iff.1 h).2
    intro g hg
    rw [Reading.read_loop, Reading.calls_loop, Reading.mem_calls_readAll_iff] at hg
    obtain ⟨s, hs, hg⟩ := hg
    exact ih s hs (hbody s hs) g hg

/-- Validation reaches every block. -/
theorem allBlocks_of_checkStatement (h : c.checkStatement scope s = .ok ()) :
    s.AllBlocks fun b => c.checkStatements scope b.statements = .ok () := by
  induction s using Statement.induction with
  | gate g => exact Statement.allBlocks_gate g
  | block kind ss ih =>
    rw [checkStatement] at h
    exact Statement.allBlocks_block_iff.2 ⟨h, fun s hs => ih s hs (checkStatements_eq_ok_iff.1 h s hs)⟩
  | loop count kind body ih =>
    obtain ⟨-, h⟩ := checkStatement_loop_iff.1 h
    exact Statement.allBlocks_loop_iff.2 ⟨h, fun s hs => ih s hs (checkStatements_eq_ok_iff.1 h s hs)⟩

theorem checkStatements_of_mem_blocks {b b' : Block} (h : c.checkStatements scope b.statements = .ok ())
    (hb : b' ∈ b.blocks) : c.checkStatements scope b'.statements = .ok () :=
  Block.forall_blocks_iff.2 ⟨h, fun s hs => allBlocks_of_checkStatement (checkStatements_eq_ok_iff.1 h s hs)⟩ b' hb

theorem checkMacros_eq_ok_iff {ms : List Macro} :
    c.checkMacros ms = .ok () ↔ ∀ m ∈ ms, c.checkStatements m.parameters m.body.statements = .ok () := by
  induction ms with
  | nil => simp [checkMacros]
  | cons m rest ih => simp only [checkMacros, check_eq_ok_iff, ih, List.forall_mem_cons]

/-- In a validated circuit each block is validated in a scope, and its slots are those of the registers and of
the scope. -/
theorem exists_scope_of_hasBlock (h : c.validate = .ok ()) {u : Universe} {b : Block} (hb : c.HasBlock u b) :
    ∃ scope, u = c.slots.withParameters scope ∧ c.checkStatements scope b.statements = .ok () := by
  simp only [validate, check_eq_ok_iff, checkMacros_eq_ok_iff] at h
  obtain ⟨hmacros, hbody⟩ := h
  cases hb with
  | body hb => exact ⟨[], rfl, checkStatements_of_mem_blocks hbody hb⟩
  | @inMacro m b hm hb => exact ⟨m.parameters, rfl, checkStatements_of_mem_blocks (hmacros m hm) hb⟩

end Statements

section Usage

theorem registers_slots_withParameters : (c.slots.withParameters scope).registers = c.registers := by
  rw [Universe.registers_withParameters]
  exact Universe.registers_ofRegisters c.registers

theorem hasParameter_slots_withParameters {name : String} :
    (c.slots.withParameters scope).hasParameter name = true ↔ name ∈ scope := by
  simp [Universe.hasParameter_withParameters, slots, Universe.hasParameter_ofRegisters]

theorem exists_argumentUsage (hr : c.registers.InRange) {g : GateCall} (ha : a.FitsQubit c scope g.isNative) :
    ∃ used, (c.slots.withParameters scope).argumentUsage g a = .ok used := by
  cases a with
  | number value => exact ⟨∅, rfl⟩
  | qubit q =>
    obtain ⟨p, hp⟩ := hr.exists_resolve ha
    refine ⟨{⟨.register p.register, p.index⟩}, ?_⟩
    simp only [Universe.argumentUsage, registers_slots_withParameters, hp]
  | ref name =>
    simp only [Universe.argumentUsage]
    by_cases hname : name ∈ scope
    · exact ⟨{⟨.parameter name, 0⟩}, by simp [hasParameter_slots_withParameters.2 hname]⟩
    · have hnative : g.isNative = false := Bool.eq_false_iff.2 fun hnative => hname (ha hnative)
      exact ⟨∅, by simp [hasParameter_slots_withParameters, hname, hnative]⟩

theorem exists_argumentsUsage {u : Universe} {g : GateCall}
    (h : ∀ a ∈ args, ∃ used, u.argumentUsage g a = .ok used) : ∃ used, u.argumentsUsage g args = .ok used := by
  induction args with
  | nil => exact ⟨∅, rfl⟩
  | cons a rest ih =>
    obtain ⟨hfirst, hrest⟩ := List.forall_mem_cons.1 h
    obtain ⟨first, hfirst⟩ := hfirst
    obtain ⟨others, hothers⟩ := ih hrest
    exact ⟨first ∪ others, by simp only [Universe.argumentsUsage, hfirst, hothers]; rfl⟩

/-- What validation accepts resolves, as long as index lists stay in range. -/
theorem AcceptsCall.exists_gateUsage (hr : c.registers.InRange) {g : GateCall} (h : c.AcceptsCall scope g) :
    ∃ used, (c.slots.withParameters scope).gateUsage g = .ok used := by
  unfold Universe.gateUsage
  split
  · exact ⟨_, rfl⟩
  · exact exists_argumentsUsage fun a ha => exists_argumentUsage hr (h.fitsQubit ha)

theorem resolves_of_checkStatements (hr : c.registers.InRange) {ss : List Statement}
    (h : c.checkStatements scope ss = .ok ()) : (c.slots.withParameters scope).Resolves ss := by
  intro g hg
  have hblock : c.checkStatement scope (.block .sequential ss) = .ok () := by rwa [checkStatement]
  exact (acceptsCall_of_checkStatement hblock g (by simpa using hg)).exists_gateUsage hr

end Usage

/-- A validated circuit is scheduled if its body is not parallel and its index lists stay within their sources. -/
theorem exists_schedule_of_validate (c : Circuit) (hkind : c.body.kind ≠ .parallel) (hr : c.registers.InRange)
    (h : c.validate = .ok ()) : ∃ c' stats, c.schedule = .ok (c', stats) := by
  refine exists_schedule hkind fun u b hb _ => ?_
  obtain ⟨scope, rfl, hcheck⟩ := exists_scope_of_hasBlock h hb
  exact resolves_of_checkStatements hr hcheck

end Circuit

namespace Circuit

open Sample

/-- Index lists that stay in range, one of them on a mapped register, and a macro whose parameter is a qubit of
its calls. -/
def checkedSample : Circuit where
  constants := Catalog.ofList [("turns", Binary64.zero false)]
  registers := Catalog.ofList
    [("q", ⟨"q", .fundamental 4⟩), ("back", ⟨"back", .mapped "q" (.indices [3, 1])⟩),
      ("first", ⟨"first", .mapped "back" (.indices [0])⟩)]
  macros := Catalog.ofList [("twice", ⟨"twice", ["a"], ⟨.unscheduled, [px (.ref "a"), px (.ref "a")]⟩⟩)]
  nativeGates := GateTable.qscout
  body := .sequential
    [.block .unscheduled
      [px (.qubit ⟨"first", 0⟩), py (.qubit ⟨"back", 1⟩),
        .loop (.symbol "turns") .unscheduled [.gate (.composite "twice" [.qubit ⟨"back", 0⟩]), px (onQ 2)]]]

theorem exists_schedule_checkedSample :
    checkedSample.body.kind ≠ .parallel ∧ checkedSample.registers.InRange ∧ checkedSample.validate = .ok () ∧
      ∃ c' stats, checkedSample.schedule = .ok (c', stats) := by
  have hkind : checkedSample.body.kind ≠ .parallel := by decide
  have hr : checkedSample.registers.InRange := by decide
  have h : checkedSample.validate = .ok () := by decide +kernel
  exact ⟨hkind, hr, h, exists_schedule_of_validate checkedSample hkind hr h⟩

/-- A mapped register of one slot that shows a position which its source lacks. -/
def outOfRangeSample : Circuit where
  constants := Catalog.empty
  registers := Catalog.ofList [("q", ⟨"q", .fundamental 2⟩), ("m", ⟨"m", .mapped "q" (.indices [5])⟩)]
  macros := Catalog.empty
  nativeGates := GateTable.qscout
  body := .sequential [.block .unscheduled [px (.qubit ⟨"m", 0⟩)]]

/-- Validation alone does not make a circuit schedulable. -/
theorem schedule_fails_of_validate :
    outOfRangeSample.body.kind ≠ .parallel ∧ outOfRangeSample.validate = .ok () ∧
      outOfRangeSample.schedule = .error (.circuit (.qubitOutOfRange "q" 5 2)) :=
  ⟨by decide, by decide +kernel, rfl⟩

end Circuit

end IonSchedule
