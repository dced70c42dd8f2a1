import IonSchedule.Proofs.BuilderSteps
import IonSchedule.Proofs.ExpandedOrder

/-! # What a builder builds is valid

A gate is checked when it is appended and the count of a loop when the loop ends, each against the circuit as it
then is. Declarations that follow do not take anything back, so at any time the statements of the body and of
every open frame are accepted by the circuit in their scope. What is built is therefore valid, it can be
scheduled, and every call in it touches slots of its universe.
-/
namespace IonSchedule

namespace Circuit

variable {c : Circuit} {scope : List String} {g : GateCall} {used : Usage}

/-- What an argument touches belongs to the universe, if fundamental registers are filed under their own names. -/
theorem mem_full_of_argumentUsage (hnames : c.registers.OwnNames) {a : Argument}
    (hu : (c.slots.withParameters scope).argumentUsage g a = .ok used) {x : Slot} (hx : x ∈ used) :
    x ∈ (c.slots.withParameters scope).full := by
  cases a with
  | number value =>
    cases hu
    simp at hx
  | qubit q =>
    simp only [Universe.argumentUsage, registers_slots_withParameters] at hu
    split at hu
    · rename_i p hp
      cases hu
      obtain ⟨carried, size, hget, hlt⟩ := Registers.get?_of_resolveWithin hp
      obtain rfl : x = ⟨.register p.register, p.index⟩ := (Slot.eq_of_order_eq (by simpa using hx)).symm
      have hfull : (⟨.register p.register, p.index⟩ : Slot) ∈ c.slots.full :=
        Universe.mem_full_ofRegisters.2 ⟨_, hnames.mem_fundamental hget, rfl, hlt⟩
      exact Universe.mem_full_withParameters.2 (Or.inl hfull)
    · cases hu
  | ref name =>
    simp only [Universe.argumentUsage] at hu
    split at hu
    · rename_i hname
      cases hu
      obtain rfl : x = ⟨.parameter name, 0⟩ := (Slot.eq_of_order_eq (by simpa using hx)).symm
      exact Universe.mem_full_withParameters.2 (Or.inr ⟨name, hasParameter_slots_withParameters.1 hname, rfl⟩)
    · split at hu
      · cases hu
      · cases hu
        simp at hx

theorem mem_full_of_argumentsUsage (hnames : c.registers.OwnNames) {args : List Argument}
    (hu : (c.slots.withParameters scope).argumentsUsage g args = .ok used) {x : Slot} (hx : x ∈ used) :
    x ∈ (c.slots.withParameters scope).full := by
  induction args generalizing used with
  | nil =>
    cases hu
    simp at hx
  | cons a rest ih =>
    simp only [Universe.argumentsUsage, bind_eq_ok_iff, pure_eq_ok_iff] at hu
    obtain ⟨first, hfirst, others, hothers, rfl⟩ := hu
    rcases Std.ExtTreeSet.mem_union_iff.1 hx with hx | hx
    · exact mem_full_of_argumentUsage hnames hfirst hx
    · exact ih hothers hx

theorem mem_full_of_gateUsage (hnames : c.registers.OwnNames)
    (hu : (c.slots.withParameters scope).gateUsage g = .ok used) {x : Slot} (hx : x ∈ used) :
    x ∈ (c.slots.withParameters scope).full := by
  unfold Universe.gateUsage at hu
  split at hu
  · cases hu
    exact hx
  · exact mem_full_of_argumentsUsage hnames hu hx

end Circuit

/-- The qubits of the call resolve to slots of the universe. -/
def Universe.Covers (u : Universe) (g : GateCall) : Prop :=
  ∃ used, u.gateUsage g = .ok used ∧ ∀ x ∈ used, x ∈ u.full

theorem Circuit.covers_of_checkStatements {c : Circuit} {scope : List String} (hr : c.registers.InRange)
    (hnames : c.registers.OwnNames) {ss : List Statement} (h : c.checkStatements scope ss = .ok ()) {g : GateCall}
    (hg : g ∈ Reading.calls.readAll ss) : (c.slots.withParameters scope).Covers g := by
  obtain ⟨used, hu⟩ := resolves_of_checkStatements hr h g hg
  exact ⟨used, hu, fun x hx => mem_full_of_gateUsage hnames hu hx⟩

namespace Builder

variable {b b' : Builder}

/-- The statements of every open frame are accepted in its scope. -/
def FramesAccepted (c : Circuit) : List Frame → Prop
  | [] => True
  | frame :: rest => c.checkStatements (scopeOf (frame :: rest)) frame.statements = .ok () ∧ FramesAccepted c rest

/-- The circuit so far was declared step by step, and it accepts all that was appended. -/
structure IsAccepted (b : Builder) : Prop where
  built : b.circuit.Built
  body : b.circuit.checkStatements [] b.body = .ok ()
  frames : FramesAccepted b.circuit b.frames

theorem FramesAccepted.extends {c c' : Circuit} (he : c.Extends c') {frames : List Frame}
    (h : FramesAccepted c frames) : FramesAccepted c' frames := by
  induction frames with
  | nil => trivial
  | cons frame rest ih => exact ⟨he.checkStatements h.1, ih h.2⟩

theorem isAccepted_new (table : GateTable) : (new table).IsAccepted := ⟨.empty table, rfl, trivial⟩

theorem IsAccepted.extends (h : b.IsAccepted) {c : Circuit} (he : b.circuit.Extends c) (hc : c.Built) :
    IsAccepted { b with circuit := c } := ⟨hc, he.checkStatements h.body, h.frames.extends he⟩

theorem IsAccepted.openFrame (h : b.IsAccepted) (kind : FrameKind) : (b.openFrame kind).IsAccepted :=
  ⟨h.built, h.body, rfl, h.frames⟩

theorem IsAccepted.append (h : b.IsAccepted) {s : Statement} (hs : b.circuit.checkStatement b.scope s = .ok ()) :
    (b.append s).IsAccepted := by
  have hsnoc : ∀ {scope ss}, b.circuit.checkStatements scope ss = .ok () →
      b.circuit.checkStatement scope s = .ok () → b.circuit.checkStatements scope (ss ++ [s]) = .ok () := by
    intro scope ss hss hs
    rw [Circuit.checkStatements_eq_ok_iff] at hss ⊢
    simpa [or_imp, forall_and] using ⟨hss, hs⟩
  unfold Builder.append
  split
  · rename_i hframes
    rw [scope, hframes] at hs
    exact ⟨h.built, hsnoc h.body hs, h.frames⟩
  · rename_i frame rest hframes
    rw [scope, hframes] at hs
    have hopen := h.frames
    rw [hframes] at hopen
    -- the scope is that of the frame's kind, whatever the frame holds
    have hscope : scopeOf ({ frame with statements := frame.statements ++ [s] } :: rest) =
        scopeOf (frame :: rest) := by
      obtain ⟨kind, ss⟩ := frame
      cases kind <;> rfl
    refine ⟨h.built, h.body, ?_, hopen.2⟩
    rw [hscope]
    exact hsnoc hopen.1 hs

/-- A frame that is taken off is accepted as one more statement of the frame around it. -/
theorem IsAccepted.close (h : b.IsAccepted) {frame : Frame} {rest : List Frame} (hframes : b.frames = frame :: rest)
    {s : Statement} (hs : b.circuit.checkStatements (scopeOf (frame :: rest)) frame.statements = .ok () →
      b.circuit.checkStatement (scopeOf rest) s = .ok ()) :
    (Builder.append { b with frames := rest } s).IsAccepted := by
  have hopen := h.frames
  rw [hframes] at hopen
  have hrest : ({ b with frames := rest } : Builder).IsAccepted := ⟨h.built, h.body, hopen.2⟩
  exact hrest.append (hs hopen.1)

theorem Step.isAccepted {result : Except BuilderError Unit} (h : Step b b' result) (hb : b.IsAccepted) :
    b'.IsAccepted := by
  cases h with
  | none => exact hb
  | declare hdeclares => exact hb.extends hdeclares.extends (hdeclares.built hb.built)
  | gate g hg => exact hb.append (Circuit.checkStatement_gate_iff.2 hg)
  | beginBlock kind => exact hb.openFrame _
  | beginLoop count => exact hb.openFrame _
  | beginMacro hempty => exact hb.openFrame _
  | endBlock hframes =>
    refine hb.close hframes fun hss => ?_
    rw [Circuit.checkStatement]
    exact hss
  | endLoop hframes hcount => exact hb.close hframes fun hss => Circuit.checkStatement_loop_iff.2 ⟨hcount, hss⟩
  | barrier hframes hne =>
    refine IsAccepted.openFrame (hb.close hframes fun hss => ?_) _
    rw [Circuit.checkStatement]
    exact hss
  | endMacro hframes hdeclare =>
    have hopen := hb.frames
    rw [hframes] at hopen
    have he := Circuit.extends_of_declareMacro hdeclare
    exact ⟨.composite hb.built hdeclare, he.checkStatements hb.body, hopen.2.extends he⟩
  | refuseMacro hframes fault =>
    have hopen := hb.frames
    rw [hframes] at hopen
    exact ⟨hb.built, hb.body, hopen.2⟩

theorem isAccepted_runAll (table : GateTable) (calls : List Call) : ((new table).runAll calls).IsAccepted :=
  runAll_induction Step.isAccepted calls (isAccepted_new table)

/-- The finished circuit accepts its macros and its body. -/
theorem IsAccepted.build (hb : b.IsAccepted) {c : Circuit} (h : b.build = .ok c) :
    c.registers.InRange ∧ c.registers.OwnNames ∧ c.MacrosAccepted ∧
      c.checkStatements [] c.body.statements = .ok () ∧ c.body.kind = .sequential := by
  obtain ⟨-, rfl⟩ := build_eq_ok_iff.1 h
  have he := Circuit.extends_of_body b.circuit (.sequential b.body)
  exact ⟨hb.built.isSourced.inRange, hb.built.ownNames,
    fun m hm => he.checkStatements (hb.built.macrosAccepted m hm), he.checkStatements hb.body, rfl⟩

/-- Whatever is called in whatever order, a circuit that is built is valid and sequential, it is scheduled, and
each of its calls resolves to slots of its universe. -/
theorem build_isValid {table : GateTable} {calls : List Call} {c : Circuit}
    (h : ((new table).runAll calls).build = .ok c) :
    c.validate = .ok () ∧ (∃ c' stats, c.schedule = .ok (c', stats)) ∧ c.body.kind = .sequential ∧
    (∀ g ∈ Reading.calls.readAll c.body.statements, c.slots.Covers g) ∧
    ∀ m ∈ c.macros.values, ∀ g ∈ Reading.calls.readAll m.body.statements, (c.macroSlots m).Covers g := by
  obtain ⟨hr, hnames, hmacros, hbody, hkind⟩ := (isAccepted_runAll table calls).build h
  have hvalid : c.validate = .ok () := check_eq_ok_iff.2 ⟨Circuit.checkMacros_eq_ok_iff.2 hmacros, hbody⟩
  have hresolvable : ∀ u b, c.HasBlock u b → b.IsResolvable u := by
    intro u b hb _
    obtain ⟨scope, rfl, hcheck⟩ := Circuit.exists_scope_of_hasBlock hvalid hb
    exact Circuit.resolves_of_checkStatements hr hcheck
  refine ⟨hvalid, Circuit.exists_schedule (by simp [hkind]) hresolvable, hkind, ?_, ?_⟩
  · exact fun g hg => Circuit.covers_of_checkStatements hr hnames hbody hg
  · exact fun m hm g hg => Circuit.covers_of_checkStatements hr hnames (hmacros m hm) hg

end Builder

namespace Sample

/-- Declarations between statements, inside a macro and inside a loop whose count is not yet known. Five of the
calls fail: a gate on a register that is declared later, the end of a block that is not the innermost, the end
of the loop before its count is declared, a second `q`, and the end of a macro whose parameters are the same. -/
def tangledCalls : List Builder.Call :=
  [.register "q" 3, .gate "Px" [.qubit ⟨"late", 0⟩], .beginMacro "echo" ["a"], .beginBlock .unscheduled,
    .gate "Px" [.ref "a"], .register "r" 2, .beginLoop (.fixed 2), .gate "Py" [.qubit ⟨"r", 1⟩], .endBlock,
    .endLoop, .endBlock, .endMacro, .map "late" "q" (.indices [2, 0]), .beginLoop (.symbol "turns"),
    .gate "echo" [.qubit ⟨"late", 1⟩], .endLoop, .constant "turns" (.zero false), .constant "q" (.zero true),
    .endLoop, .beginMacro "same" ["a", "a"], .endMacro, .gateUnlessLast "measure_all",
    .gateUnlessLast "measure_all"]

end Sample

namespace Builder

theorem build_isValid_tangledCalls :
    ∃ c, ((new .qscout).runAll Sample.tangledCalls).build = .ok c ∧ c.registers.names = ["q", "r", "late"] ∧
      c.macros.names = ["echo"] ∧ Statement.gateCountAll c.body.statements = 2 ∧
      c.validate = .ok () ∧ (∃ c' stats, c.schedule = .ok (c', stats)) ∧ c.body.kind = .sequential ∧
      (∀ g ∈ Reading.calls.readAll c.body.statements, c.slots.Covers g) ∧
      ∀ m ∈ c.macros.values, ∀ g ∈ Reading.calls.readAll m.body.statements, (c.macroSlots m).Covers g := by
  have hbuild :
      (fun c : Circuit => (c.registers.names, c.macros.names, Statement.gateCountAll c.body.statements)) <$>
        ((new .qscout).runAll Sample.tangledCalls).build = .ok (["q", "r", "late"], ["echo"], 2) := by
    decide +kernel
  obtain ⟨c, hc, hparts⟩ := map_eq_ok_iff.1 hbuild
  simp only [Prod.mk.injEq] at hparts
  exact ⟨c, hc, hparts.1, hparts.2.1, hparts.2.2, build_isValid hc⟩

end Builder

end IonSchedule
