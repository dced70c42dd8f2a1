import IonSchedule.Proofs.Relabelling
import IonSchedule.Proofs.ScheduledCircuit

/-! # What a schedule depends on

A circuit is scheduled with its calls replaced just as it is scheduled with the calls themselves, as long as the
new calls touch the same slots and may share a moment where the old ones may. Numbers do not matter, and neither
does the register through which a qubit is named.
-/
namespace IonSchedule

namespace Table

variable {ε α α' β β' : Type} {k : α → Except ε β} {k' : α' → Except ε β'} {φ : α → α'} {ψ : β → β'}

theorem traverseItems_cons (key : String) (a : α) (rest : List (String × α)) :
    traverseItems k ((key, a) :: rest) = (do
      let b ← k a
      let bs ← traverseItems k rest
      return (key, b) :: bs) := by
  rw [traverseItems]
  cases k a with
  | error e => rfl
  | ok b => cases traverseItems k rest <;> rfl

theorem echoes_traverseItems {items : List (String × α)} (h : ∀ e ∈ items, Echoes ψ (k e.2) (k' (φ e.2))) :
    Echoes (·.map fun e => (e.1, ψ e.2)) (traverseItems k items)
      (traverseItems k' (items.map fun e => (e.1, φ e.2))) := by
  induction items with
  | nil => exact echoes_pure rfl
  | cons e rest ih =>
    obtain ⟨key, a⟩ := e
    rw [List.forall_mem_cons] at h
    rw [List.map_cons, traverseItems_cons, traverseItems_cons]
    exact h.1.bind fun b => (ih h.2).bind fun bs => echoes_pure rfl

theorem echoes_traverse {t : Table α} (h : ∀ a ∈ t.values, Echoes ψ (k a) (k' (φ a))) :
    Echoes (Table.map ψ) (t.traverse k) ((t.map φ).traverse k') := by
  have hitems := echoes_traverseItems fun e he => h e.2 (List.mem_map_of_mem he)
  intro b
  rw [traverse_eq_ok_iff, ← traverseItems_eq_ok_iff]
  refine (hitems b.items).trans ⟨?_, ?_⟩
  · rintro ⟨out, hout, hb⟩
    refine ⟨⟨out, by rw [keys_of_traverseItems hout]; exact t.distinct⟩, ?_, Catalog.eq_of_items_eq hb⟩
    rwa [traverse_eq_ok_iff, ← traverseItems_eq_ok_iff]
  · rintro ⟨t', ht', rfl⟩
    rw [traverse_eq_ok_iff, ← traverseItems_eq_ok_iff] at ht'
    exact ⟨t'.items, ht', rfl⟩

end Table

variable {f : GateCall → GateCall}

def Block.mapCalls (f : GateCall → GateCall) (b : Block) : Block := ⟨b.kind, b.statements.map (·.mapCalls f)⟩

def Macro.mapCalls (f : GateCall → GateCall) (m : Macro) : Macro := { m with body := m.body.mapCalls f }

namespace Circuit

open Schedule

/-- The circuit with every call of the body and of the macros replaced. -/
def mapCalls (f : GateCall → GateCall) (c : Circuit) : Circuit :=
  { c with body := c.body.mapCalls f, macros := c.macros.map (·.mapCalls f) }

/-- Every call of the circuit answers like its replacement, where it stands. -/
structure KeepsUsage (c : Circuit) (f : GateCall → GateCall) : Prop where
  body : ∀ g ∈ Reading.calls.readAll c.body.statements, c.slots.Alike g (f g)
  macros : ∀ m ∈ c.macros.values, ∀ g ∈ Reading.calls.readAll m.body.statements, (c.macroSlots m).Alike g (f g)

variable {c : Circuit}

theorem echoes_scheduleBody (h : c.KeepsUsage f) :
    Echoes (Prod.map (·.mapCalls f) id) c.scheduleBody (c.mapCalls f).scheduleBody := by
  have hbody := h.body
  obtain ⟨constants, registers, macros, nativeGates, kind, ss⟩ := c
  cases kind with
  | sequential => exact ((echoes_splice true hbody).mapError _).bind fun out => echoes_pure rfl
  | parallel => exact echoes_error _ _ _
  | unscheduled => exact ((echoes_arrangeBody .unscheduled hbody).mapError _).bind fun out => echoes_pure rfl

theorem echoes_scheduleMacro (h : c.KeepsUsage f) {m : Macro} (hm : m ∈ c.macros.values) :
    Echoes (Prod.map (·.mapCalls f) id) (c.scheduleMacro m) ((c.mapCalls f).scheduleMacro (m.mapCalls f)) := by
  have hbody : Echoes (Prod.map (·.mapCalls f) id) (arrangeBlock (c.macroSlots m) m.body)
      (arrangeBlock (c.macroSlots m) (m.body.mapCalls f)) := by
    rw [arrangeBlock_eq, arrangeBlock_eq]
    exact (echoes_arrangeBody m.body.kind (h.macros m hm)).bind fun out => echoes_pure rfl
  exact (hbody.mapError _).bind fun out => echoes_pure rfl

theorem echoes_schedule (h : c.KeepsUsage f) :
    Echoes (Prod.map (·.mapCalls f) id) c.schedule (c.mapCalls f).schedule := by
  rw [schedule, schedule]
  refine (echoes_scheduleBody h).bind fun body => ?_
  refine (Table.echoes_traverse fun m hm => echoes_scheduleMacro h hm).bind fun macros => echoes_pure ?_
  simp [mapCalls, Table.values, Table.map, List.foldl_map]

/-- Replacing the calls and scheduling can be done in either order: both succeed or neither does, and the
circuit and the counts are the same. -/
def CommutesWith (c : Circuit) (f : GateCall → GateCall) : Prop :=
  ((∃ r, (c.mapCalls f).schedule = .ok r) ↔ ∃ r, c.schedule = .ok r) ∧
  ∀ c' stats, c.schedule = .ok (c', stats) → (c.mapCalls f).schedule = .ok (c'.mapCalls f, stats)

theorem KeepsUsage.commutesWith (h : c.KeepsUsage f) : c.CommutesWith f := by
  have hm := echoes_schedule h
  refine ⟨⟨?_, ?_⟩, fun c' stats hc => (hm _).2 ⟨(c', stats), hc, rfl⟩⟩
  · rintro ⟨r, hr⟩
    obtain ⟨a, ha, -⟩ := (hm r).1 hr
    exact ⟨a, ha⟩
  · rintro ⟨a, ha⟩
    exact ⟨_, (hm _).2 ⟨a, ha, rfl⟩⟩

end Circuit

/-! ## Names, numbers and mapped registers -/

section Identity

variable {ε α : Type} {x y z : Except ε α}

theorem echoes_id_iff : Echoes id x y ↔ ∀ a, y = .ok a ↔ x = .ok a := by simp [Echoes]

theorem echoes_id_trans (hxy : Echoes id x y) (hyz : Echoes id y z) : Echoes id x z :=
  echoes_id_iff.2 fun a => (echoes_id_iff.1 hyz a).trans (echoes_id_iff.1 hxy a)

end Identity

namespace Universe

variable {u : Universe} {g h : GateCall}

theorem Alike.symm (hgh : u.Alike g h) : u.Alike h g :=
  ⟨echoes_id_iff.2 fun used => (echoes_id_iff.1 hgh.usage used).symm, hgh.isParallelizable.symm⟩

theorem Alike.trans {k : GateCall} (hgh : u.Alike g h) (hhk : u.Alike h k) : u.Alike g k :=
  ⟨echoes_id_trans hgh.usage hhk.usage, hhk.isParallelizable.trans hgh.isParallelizable⟩

/-- The name of a call only shows in its errors. -/
theorem echoes_argumentUsage (hkind : h.kind = g.kind) (a : Argument) :
    Echoes id (u.argumentUsage g a) (u.argumentUsage h a) := by
  cases a with
  | number value => exact echoes_pure rfl
  | qubit q =>
    simp only [argumentUsage]
    cases u.registers.resolve q with
    | ok p => exact echoes_pure rfl
    | error e => exact echoes_error _ _ _
  | ref name =>
    simp only [argumentUsage, GateCall.isNative, GateCall.definition?, hkind]
    exact echoes_id_iff.2 fun used => Iff.rfl

theorem echoes_argumentsUsage {φ : Argument → Argument}
    (hargs : ∀ a, Echoes id (u.argumentUsage g a) (u.argumentUsage h (φ a))) (as : List Argument) :
    Echoes id (u.argumentsUsage g as) (u.argumentsUsage h (as.map φ)) := by
  induction as with
  | nil => exact echoes_pure rfl
  | cons a rest ih => exact (hargs a).bind fun first => ih.bind fun others => echoes_pure rfl

theorem quantumArgs_map (name : String) (φ : Argument → Argument) :
    (⟨name, g.kind, g.args.map φ⟩ : GateCall).quantumArgs = g.quantumArgs.map φ := by
  obtain ⟨name', kind, args⟩ := g
  cases kind with
  | composite => rfl
  | native definition => simp [GateCall.quantumArgs, List.zip_map_left, List.filter_map, Function.comp_def]

/-- A call may get another name, if neither is that of a barrier or both are, and other arguments that touch the
same. -/
theorem alike_of_arguments {name : String} {φ : Argument → Argument}
    (hname : isBarrierName name = isBarrierName g.name)
    (hargs : ∀ a, Echoes id (u.argumentUsage g a) (u.argumentUsage g (φ a))) :
    u.Alike g ⟨name, g.kind, g.args.map φ⟩ := by
  have hbarrier : (⟨name, g.kind, g.args.map φ⟩ : GateCall).isBarrier = g.isBarrier := by
    rw [GateCall.isBarrier, GateCall.isBarrier, hname]
    rfl
  refine ⟨?_, ?_⟩
  · rw [gateUsage, gateUsage, hbarrier, quantumArgs_map]
    split
    · exact echoes_pure rfl
    · refine echoes_argumentsUsage (fun a => ?_) g.quantumArgs
      refine echoes_id_trans (hargs a) (echoes_argumentUsage ?_ (φ a))
      rfl
  · rw [GateCall.isParallelizable, GateCall.isParallelizable, hbarrier]
    rfl

end Universe

/-- Every number becomes zero, so that numbers are not told apart. -/
def Argument.blank : Argument → Argument
  | .number _ => .number (.zero false)
  | a => a

def GateCall.blank (g : GateCall) : GateCall := { g with args := g.args.map Argument.blank }

theorem GateCall.blank_blank (g : GateCall) : g.blank.blank = g.blank := by
  have hblank : ∀ a : Argument, a.blank.blank = a.blank := by
    intro a
    cases a <;> rfl
  simp [blank, hblank]

theorem Universe.alike_blank (u : Universe) (g : GateCall) : u.Alike g g.blank := by
  refine alike_of_arguments rfl fun a => ?_
  cases a <;> exact echoes_id_iff.2 fun used => Iff.rfl

/-- Calls that differ in their numbers only. -/
theorem Universe.alike_of_blank_eq (u : Universe) {g h : GateCall} (hblank : h.blank = g.blank) : u.Alike g h :=
  (u.alike_blank g).trans (hblank ▸ (u.alike_blank h).symm)

namespace Registers

/-- A qubit argument by its place in a fundamental register; one that does not resolve is kept. -/
def groundArgument (t : Registers) : Argument → Argument
  | .qubit q =>
    match t.resolve q with
    | .ok p => .qubit ⟨p.register, p.index⟩
    | .error _ => .qubit q
  | a => a

def ground (t : Registers) (g : GateCall) : GateCall := { g with args := g.args.map t.groundArgument }

theorem resolve_of_resolve {t : Registers} {q : Qubit} {p : PhysicalQubit} (h : t.resolve q = .ok p) :
    t.resolve ⟨p.register, p.index⟩ = .ok p := by
  obtain ⟨carried, size, hget, hlt⟩ := get?_of_resolveWithin h
  rw [resolve_of_fundamental hget, if_pos hlt]

end Registers

theorem Universe.alike_ground (u : Universe) (g : GateCall) : u.Alike g (u.registers.ground g) := by
  refine alike_of_arguments rfl fun a => echoes_id_iff.2 fun used => ?_
  cases a with
  | number value => exact Iff.rfl
  | ref name => exact Iff.rfl
  | qubit q =>
    rw [Registers.groundArgument]
    cases hq : u.registers.resolve q with
    | error e => exact Iff.rfl
    | ok p => simp only [argumentUsage, hq, Registers.resolve_of_resolve hq]

namespace Circuit

theorem keepsUsage_of_alike (c : Circuit) (h : ∀ u : Universe, u.registers = c.registers → ∀ g, u.Alike g (f g)) :
    c.KeepsUsage f where
  body g _ := h c.slots (Universe.registers_ofRegisters _) g
  macros m _ g _ :=
    h (c.macroSlots m) (Universe.registers_withParameters.trans (Universe.registers_ofRegisters _)) g

/-- Scheduling reads calls through their usage and legality alone, and so it commutes with every replacement
that keeps both: with any change of numbers, and with naming each qubit by the place that it resolves to. -/
theorem schedule_depends_on_usage (c : Circuit) :
    (∀ f, c.KeepsUsage f → c.CommutesWith f) ∧
    (∀ f : GateCall → GateCall, (∀ g, (f g).blank = g.blank) → c.CommutesWith f) ∧
    c.CommutesWith c.registers.ground := by
  refine ⟨fun f hf => hf.commutesWith, fun f hf => ?_, ?_⟩
  · exact (c.keepsUsage_of_alike fun u _ g => u.alike_of_blank_eq (hf g)).commutesWith
  · refine (c.keepsUsage_of_alike fun u hu g => ?_).commutesWith
    rw [← hu]
    exact u.alike_ground g

/-- Rotations by angles, one of them through a mapped register and one in a macro. -/
def rotations : Circuit :=
  let rx (a : Argument) (angle : Binary64) : Statement :=
    .gate (.native ⟨"Rx", [⟨"target", .qubit⟩, ⟨"angle", .float⟩]⟩ [a, .number angle])
  { constants := Catalog.empty
    registers := Catalog.ofList [("q", ⟨"q", .fundamental 3⟩), ("back", ⟨"back", .mapped "q" (.indices [2, 1, 0])⟩)]
    macros := Catalog.ofList
      [("turn", ⟨"turn", ["a"], ⟨.unscheduled, [rx (.ref "a") .nan, rx (.qubit ⟨"back", 0⟩) .nan]⟩⟩)]
    nativeGates := Catalog.empty
    body := ⟨.unscheduled,
      [rx (.qubit ⟨"q", 0⟩) (.infinity false), rx (.qubit ⟨"back", 2⟩) (.zero true), rx (.qubit ⟨"back", 0⟩) .nan,
        .gate (.composite "turn" [.qubit ⟨"q", 1⟩])]⟩ }

/-- Rotations about another axis. -/
def tilt (g : GateCall) : GateCall := if g.name = "Rx" then { g with name := "Ry" } else g

theorem keepsUsage_tilt (c : Circuit) : c.KeepsUsage tilt := by
  refine c.keepsUsage_of_alike fun u _ g => ?_
  unfold tilt
  split
  · rename_i hname
    have hrenamed : u.Alike g ⟨"Ry", g.kind, g.args.map id⟩ :=
      Universe.alike_of_arguments (by rw [hname]; decide) fun a => echoes_id_iff.2 fun used => Iff.rfl
    rwa [List.map_id] at hrenamed
  · exact .refl u g

theorem schedule_rotations : ∃ c' stats, rotations.schedule = .ok (c', stats) ∧
    (rotations.mapCalls tilt).schedule = .ok (c'.mapCalls tilt, stats) ∧
    (rotations.mapCalls GateCall.blank).schedule = .ok (c'.mapCalls GateCall.blank, stats) ∧
    (rotations.mapCalls rotations.registers.ground).schedule =
      .ok (c'.mapCalls rotations.registers.ground, stats) := by
  have hok : rotations.schedule.toBool = true := by decide +kernel
  obtain ⟨⟨c', stats⟩, h⟩ := toBool_iff.1 hok
  obtain ⟨htilt, hblank, hground⟩ := schedule_depends_on_usage rotations
  exact ⟨c', stats, h, (htilt tilt (keepsUsage_tilt _)).2 c' stats h, (hblank _ GateCall.blank_blank).2 c' stats h,
    hground.2 c' stats h⟩

end Circuit

end IonSchedule
