import IonSchedule.Proofs.ExpandedOrder
import IonSchedule.Proofs.ParallelLegality
import IonSchedule.Proofs.Success

/-! # Scheduled macros under any binding

A macro is scheduled once, with a slot of its own for each parameter, and then called with qubits that the
scheduler has not seen. Main statement: if the parameters are bound to different qubits, none of which the macro
names itself, then the macro and its schedule do the same on every qubit, and members of parallel blocks that
shared no slot share no qubit.

Such a binding renames slots. A qubit is touched by a bound call exactly if one slot of the macro, its stand-in,
is touched by the call before binding: the parameter that is bound to the qubit, or else the qubit itself. What
is known of slots inside the macro thus carries over to qubits.
-/
namespace IonSchedule

/-- The slot of a qubit. -/
def PhysicalQubit.slot (p : PhysicalQubit) : Slot := ⟨.register p.register, p.index⟩

/-- A qubit as an argument, named by its own register. -/
def PhysicalQubit.argument (p : PhysicalQubit) : Argument := .qubit ⟨p.register, p.index⟩

theorem PhysicalQubit.slot_inj {p p' : PhysicalQubit} : p.slot = p'.slot ↔ p = p' := by
  cases p
  cases p'
  simp [slot]

def Block.bind (σ : Binding) (b : Block) : Block := ⟨b.kind, Statement.instantiateAll .gate σ b.statements⟩

namespace Macro

/-- The parameters bound to qubits. -/
def binding (m : Macro) (σ : String → PhysicalQubit) : Binding :=
  m.parameters.map fun name => (name, (σ name).argument)

/-- The statements of a macro with its parameters bound. -/
def bodyAt (m : Macro) (σ : String → PhysicalQubit) : Block := m.body.bind (m.binding σ)

/-- The slot that stands for a qubit in the macro: a parameter that is bound to the qubit, or else its own slot. -/
def standIn (m : Macro) (σ : String → PhysicalQubit) (p : PhysicalQubit) : Slot :=
  match m.parameters.find? fun name => σ name = p with
  | some name => ⟨.parameter name, 0⟩
  | none => p.slot

/-- The second set holds the qubits whose stand-ins are in the first. -/
def Mirrors (m : Macro) (σ : String → PhysicalQubit) (used bound : Usage) : Prop :=
  ∀ x, x ∈ bound ↔ ∃ p : PhysicalQubit, p.slot = x ∧ m.standIn σ p ∈ used

end Macro

/-- The parameters of a macro are bound to different qubits, none of which is named by a call in it. -/
structure Circuit.BindsApart (c : Circuit) (m : Macro) (σ : String → PhysicalQubit) : Prop where
  physical : ∀ name ∈ m.parameters, σ name ∈ c.registers.physicalQubits
  injective : ∀ name ∈ m.parameters, ∀ other ∈ m.parameters, σ name = σ other → name = other
  fresh : ∀ g ∈ Reading.calls.readAll m.body.statements, g.isBarrier = false →
    ∀ name ∈ m.parameters, σ name ∉ c.qubitsOf g

/-! ## Binding calls and blocks -/

namespace GateCall

variable {σ : Binding} {g : GateCall}

theorem isBarrier_bind : (g.bind σ).isBarrier = g.isBarrier := rfl

theorem isNative_bind : (g.bind σ).isNative = g.isNative := rfl

theorem quantumArgs_bind : (g.bind σ).quantumArgs = g.quantumArgs.map (Argument.bind σ) := by
  unfold quantumArgs bind
  cases g.kind with
  | native definition => simp [List.zip_map_left, List.filter_map, Function.comp_def]
  | composite => rfl

end GateCall

namespace Statement

variable {f : GateCall → Statement} {σ : Binding}

theorem instantiateAll_eq_map (ss : List Statement) : instantiateAll f σ ss = ss.map (instantiate f σ) := by
  induction ss with
  | nil => rw [instantiateAll, List.map_nil]
  | cons s rest ih => rw [instantiateAll, List.map_cons, ih]

theorem blocks_instantiate (σ : Binding) (s : Statement) :
    (s.instantiate .gate σ).blocks = s.blocks.map (Block.bind σ) := by
  have hlist : ∀ ss : List Statement, (∀ s ∈ ss, (s.instantiate .gate σ).blocks = s.blocks.map (Block.bind σ)) →
      blocksAll (instantiateAll .gate σ ss) = (blocksAll ss).map (Block.bind σ) := by
    intro ss hss
    rw [blocksAll_eq_flatMap, blocksAll_eq_flatMap, instantiateAll_eq_map, List.flatMap_map, List.map_flatMap]
    exact List.flatMap_congr hss
  induction s using Statement.induction with
  | gate g => simp [instantiate, blocks]
  | block kind ss ih => simp only [instantiate, blocks, hlist ss ih, List.map_cons, Block.bind]
  | loop count kind body ih => simp only [instantiate, blocks, hlist body ih, List.map_cons, Block.bind]

end Statement

theorem Block.blocks_bind (σ : Binding) (b : Block) : (b.bind σ).blocks = b.blocks.map (Block.bind σ) := by
  have hblock := Statement.blocks_instantiate σ b.toStatement
  simpa [Statement.instantiate, Block.toStatement, Statement.blocks, Block.blocks, Block.bind] using hblock

theorem Reading.mem_calls_bind_iff {σ : Binding} {ss : List Statement} {h : GateCall} :
    h ∈ calls.readAll (Statement.instantiateAll .gate σ ss) ↔ ∃ g ∈ calls.readAll ss, g.bind σ = h := by
  rw [readAll_instantiate, mem_readAll_through_iff]
  simp only [read_gate, calls_gate, Multiset.mem_singleton, eq_comm]

/-! ## Qubits and their stand-ins -/

theorem Registers.resolve_of_mem_physicalQubits {t : Registers} {p : PhysicalQubit} (hp : p ∈ t.physicalQubits) :
    t.resolve ⟨p.register, p.index⟩ = .ok p := by
  obtain ⟨⟨key, name, kind⟩, he, hp⟩ := List.mem_flatMap.1 hp
  cases kind with
  | mapped source selection => simp at hp
  | fundamental size =>
    obtain ⟨i, hi, rfl⟩ := List.mem_map.1 hp
    simp only [resolve, resolveWithin, Table.get?_eq_some_iff.2 he, if_pos (List.mem_range.1 hi)]

namespace Macro

variable {m : Macro} {σ : String → PhysicalQubit} {p : PhysicalQubit} {name : String} {a b a' b' : Usage}

theorem lookup_binding :
    (m.binding σ).lookup name = if name ∈ m.parameters then some (σ name).argument else none := by
  unfold binding
  induction m.parameters with
  | nil => rfl
  | cons first rest ih =>
    by_cases hname : name = first
    · simp [hname]
    · have hbeq : (name == first) = false := by simpa using hname
      simp only [List.map_cons, List.lookup_cons, hbeq, ih, List.mem_cons, hname, false_or]

theorem standIn_of_notMem (h : ∀ name ∈ m.parameters, σ name ≠ p) : m.standIn σ p = p.slot := by
  have hfind : m.parameters.find? (fun name => σ name = p) = none := by simpa using h
  rw [standIn, hfind]

theorem standIn_of_mem (hinjective : ∀ name ∈ m.parameters, ∀ other ∈ m.parameters, σ name = σ other → name = other)
    (hname : name ∈ m.parameters) : m.standIn σ (σ name) = ⟨.parameter name, 0⟩ := by
  have hsome : (m.parameters.find? fun other => σ other = σ name).isSome = true :=
    List.find?_isSome.2 ⟨name, hname, by simp⟩
  obtain ⟨other, hfind⟩ := Option.isSome_iff_exists.1 hsome
  have hsame : σ other = σ name := by simpa using List.find?_some hfind
  rw [standIn, hfind, hinjective other (List.mem_of_find?_eq_some hfind) name hname hsame]

theorem mirrors_empty : m.Mirrors σ ∅ ∅ := by simp [Mirrors]

theorem Mirrors.union (ha : m.Mirrors σ a a') (hb : m.Mirrors σ b b') : m.Mirrors σ (a ∪ b) (a' ∪ b') := by
  intro x
  simp only [Std.ExtTreeSet.mem_union_iff, ha x, hb x, and_or_left, exists_or]

theorem mirrors_singleton {x : Slot} (h : ∀ p', m.standIn σ p' = x ↔ p' = p) : m.Mirrors σ {x} {p.slot} := by
  have hsingleton : ∀ y z : Slot, y ∈ ({z} : Usage) ↔ z = y := by simp
  intro y
  simp only [hsingleton]
  constructor
  · rintro rfl
    exact ⟨p, rfl, ((h p).2 rfl).symm⟩
  · rintro ⟨p', rfl, hx⟩
    rw [(h p').1 hx.symm]

end Macro

namespace Circuit

variable {c : Circuit} {m : Macro} {σ : String → PhysicalQubit} {g : GateCall} {used : Usage}

theorem slot_mem_full (hnames : c.registers.OwnNames) {p : PhysicalQubit} (hp : p ∈ c.registers.physicalQubits) :
    p.slot ∈ c.slots.full := by
  obtain ⟨carried, size, hget, hlt⟩ := Registers.get?_of_resolveWithin (Registers.resolve_of_mem_physicalQubits hp)
  exact Universe.mem_full_ofRegisters.2 ⟨_, hnames.mem_fundamental hget, rfl, hlt⟩

namespace BindsApart

theorem standIn_eq_parameter_iff (hσ : c.BindsApart m σ) {name : String} (hname : name ∈ m.parameters)
    (p : PhysicalQubit) : m.standIn σ p = ⟨.parameter name, 0⟩ ↔ p = σ name := by
  by_cases hp : ∃ other ∈ m.parameters, σ other = p
  · obtain ⟨other, hother, rfl⟩ := hp
    rw [Macro.standIn_of_mem hσ.injective hother]
    simp only [Slot.mk.injEq, SlotGroup.parameter.injEq, and_true]
    exact ⟨fun h => h ▸ rfl, hσ.injective other hother name hname⟩
  · push Not at hp
    rw [Macro.standIn_of_notMem hp]
    have hne : p ≠ σ name := (hp name hname).symm
    simp [PhysicalQubit.slot, hne]

/-- A qubit that no parameter is bound to stands for itself, and nothing else does. -/
theorem standIn_eq_slot_iff (hσ : c.BindsApart m σ) {p : PhysicalQubit} (hp : ∀ name ∈ m.parameters, σ name ≠ p)
    (p' : PhysicalQubit) : m.standIn σ p' = p.slot ↔ p' = p := by
  by_cases hp' : ∃ name ∈ m.parameters, σ name = p'
  · obtain ⟨name, hname, rfl⟩ := hp'
    rw [Macro.standIn_of_mem hσ.injective hname]
    simp [PhysicalQubit.slot, hp name hname]
  · push Not at hp'
    rw [Macro.standIn_of_notMem hp', PhysicalQubit.slot_inj]

theorem mirrors_full (hσ : c.BindsApart m σ) (hnames : c.registers.OwnNames) :
    m.Mirrors σ (c.macroSlots m).full c.slots.full := by
  intro x
  simp only [macroSlots, Universe.mem_full_withParameters]
  constructor
  · intro hx
    obtain ⟨e, -, hgroup, -⟩ := Universe.mem_full_ofRegisters.1 hx
    have hslot : (⟨e.1, x.index⟩ : PhysicalQubit).slot = x := by rw [PhysicalQubit.slot, ← hgroup]
    refine ⟨_, hslot, ?_⟩
    by_cases hp : ∃ name ∈ m.parameters, σ name = ⟨e.1, x.index⟩
    · obtain ⟨name, hname, hp⟩ := hp
      rw [← hp, Macro.standIn_of_mem hσ.injective hname]
      exact Or.inr ⟨name, hname, rfl⟩
    · push Not at hp
      rw [Macro.standIn_of_notMem hp, hslot]
      exact Or.inl hx
  · rintro ⟨p, rfl, hp⟩
    by_cases hbound : ∃ name ∈ m.parameters, σ name = p
    · obtain ⟨name, hname, rfl⟩ := hbound
      exact slot_mem_full hnames (hσ.physical name hname)
    · push Not at hbound
      rw [Macro.standIn_of_notMem hbound] at hp
      rcases hp with hp | ⟨name, -, hp⟩
      · exact hp
      · simp [PhysicalQubit.slot] at hp

theorem exists_argumentUsage (hσ : c.BindsApart m σ) {a : Argument}
    (hfresh : ∀ q p, a = .qubit q → c.registers.resolve q = .ok p → ∀ name ∈ m.parameters, σ name ≠ p)
    (hu : (c.macroSlots m).argumentUsage g a = .ok used) :
    ∃ bound, c.slots.argumentUsage (g.bind (m.binding σ)) (a.bind (m.binding σ)) = .ok bound ∧
      m.Mirrors σ used bound := by
  have hregisters : c.slots.registers = c.registers := Universe.registers_ofRegisters c.registers
  cases a with
  | number value =>
    cases hu
    exact ⟨∅, rfl, Macro.mirrors_empty⟩
  | qubit q =>
    simp only [Universe.argumentUsage, macroSlots, registers_slots_withParameters] at hu
    split at hu
    · rename_i p hp
      cases hu
      refine ⟨{p.slot}, ?_, Macro.mirrors_singleton (hσ.standIn_eq_slot_iff (hfresh q p rfl hp))⟩
      simp only [Argument.bind, Universe.argumentUsage, hregisters, hp, PhysicalQubit.slot]
    · cases hu
  | ref name =>
    by_cases hname : name ∈ m.parameters
    · simp only [Universe.argumentUsage, macroSlots, hasParameter_slots_withParameters.2 hname, if_true] at hu
      cases hu
      refine ⟨{(σ name).slot}, ?_, Macro.mirrors_singleton (hσ.standIn_eq_parameter_iff hname)⟩
      have hresolve := Registers.resolve_of_mem_physicalQubits (hσ.physical name hname)
      simp only [Argument.bind, Macro.lookup_binding, if_pos hname, Option.getD_some, PhysicalQubit.argument,
        Universe.argumentUsage, hregisters, hresolve, PhysicalQubit.slot]
    · have hscope : (c.macroSlots m).hasParameter name = false :=
        Bool.eq_false_iff.2 (mt hasParameter_slots_withParameters.1 hname)
      have hglobal : c.slots.hasParameter name = false := Universe.hasParameter_ofRegisters c.registers
      simp only [Universe.argumentUsage, hscope, Bool.false_eq_true, if_false] at hu
      split at hu
      · cases hu
      · rename_i hnative
        cases hu
        refine ⟨∅, ?_, Macro.mirrors_empty⟩
        simp only [Argument.bind, Macro.lookup_binding, if_neg hname, Option.getD_none, Universe.argumentUsage,
          hglobal, GateCall.isNative_bind, hnative, Bool.false_eq_true, if_false]

theorem exists_argumentsUsage (hσ : c.BindsApart m σ) {args : List Argument}
    (hfresh : ∀ q p, .qubit q ∈ args → c.registers.resolve q = .ok p → ∀ name ∈ m.parameters, σ name ≠ p)
    (hu : (c.macroSlots m).argumentsUsage g args = .ok used) :
    ∃ bound, c.slots.argumentsUsage (g.bind (m.binding σ)) (args.map (Argument.bind (m.binding σ))) = .ok bound ∧
      m.Mirrors σ used bound := by
  induction args generalizing used with
  | nil =>
    cases hu
    exact ⟨∅, rfl, Macro.mirrors_empty⟩
  | cons a rest ih =>
    simp only [Universe.argumentsUsage, bind_eq_ok_iff, pure_eq_ok_iff] at hu
    obtain ⟨first, hfirst, others, hothers, rfl⟩ := hu
    obtain ⟨first', hfirst', hmirror⟩ :=
      hσ.exists_argumentUsage (fun q p ha => hfresh q p (ha ▸ List.mem_cons_self)) hfirst
    obtain ⟨others', hothers', hmirrors⟩ := ih (fun q p ha => hfresh q p (List.mem_cons_of_mem a ha)) hothers
    refine ⟨first' ∪ others', ?_, hmirror.union hmirrors⟩
    simp only [List.map_cons, Universe.argumentsUsage, bind_eq_ok_iff, pure_eq_ok_iff]
    exact ⟨first', hfirst', others', hothers', rfl⟩

/-- A bound call touches the qubits whose stand-ins the call touches in the macro. -/
theorem exists_gateUsage (hσ : c.BindsApart m σ) (hnames : c.registers.OwnNames)
    (hg : g ∈ Reading.calls.readAll m.body.statements) (hu : (c.macroSlots m).gateUsage g = .ok used) :
    ∃ bound, c.slots.gateUsage (g.bind (m.binding σ)) = .ok bound ∧ m.Mirrors σ used bound := by
  by_cases hbarrier : g.isBarrier = true
  · simp only [Universe.gateUsage, hbarrier, if_true] at hu
    cases hu
    refine ⟨c.slots.full, ?_, hσ.mirrors_full hnames⟩
    simp only [Universe.gateUsage, GateCall.isBarrier_bind, hbarrier, if_true]
  · have hfresh : ∀ q p, .qubit q ∈ g.quantumArgs → c.registers.resolve q = .ok p →
        ∀ name ∈ m.parameters, σ name ≠ p := by
      rintro q p hq hp name hname rfl
      refine hσ.fresh g hg (by simpa using hbarrier) name hname ?_
      rw [qubitsOf, if_neg hbarrier]
      exact List.mem_filterMap.2 ⟨.qubit q, hq, by simp [hp, Except.toOption]⟩
    rw [Universe.gateUsage, if_neg hbarrier] at hu
    obtain ⟨bound, hbound, hmirrors⟩ := hσ.exists_argumentsUsage hfresh hu
    refine ⟨bound, ?_, hmirrors⟩
    rwa [Universe.gateUsage, GateCall.isBarrier_bind, if_neg hbarrier, GateCall.quantumArgs_bind]

variable (hσ : c.BindsApart m σ) (hnames : c.registers.OwnNames)
  (hresolves : (c.macroSlots m).Resolves m.body.statements)

include hσ hnames hresolves

theorem touches_bind_iff (hg : g ∈ Reading.calls.readAll m.body.statements) {x : Slot} :
    c.slots.touches x (g.bind (m.binding σ)) = true ↔
      ∃ p : PhysicalQubit, p.slot = x ∧ (c.macroSlots m).touches (m.standIn σ p) g = true := by
  obtain ⟨used, hu⟩ := hresolves g hg
  obtain ⟨bound, hbound, hmirrors⟩ := hσ.exists_gateUsage hnames hg hu
  simp [Universe.touches_iff, hu, hbound, hmirrors x]

theorem touches_slot_bind (hg : g ∈ Reading.calls.readAll m.body.statements) (p : PhysicalQubit) :
    c.slots.touches p.slot (g.bind (m.binding σ)) = (c.macroSlots m).touches (m.standIn σ p) g := by
  rw [Bool.eq_iff_iff, hσ.touches_bind_iff hnames hresolves hg]
  simp [PhysicalQubit.slot_inj]

theorem resolves_bind {ss : List Statement}
    (hss : ∀ g ∈ Reading.calls.readAll ss, g ∈ Reading.calls.readAll m.body.statements) :
    c.slots.Resolves (Statement.instantiateAll .gate (m.binding σ) ss) := by
  intro h hh
  obtain ⟨g, hg, rfl⟩ := Reading.mem_calls_bind_iff.1 hh
  obtain ⟨used, hu⟩ := hresolves g (hss g hg)
  obtain ⟨bound, hbound, -⟩ := hσ.exists_gateUsage hnames (hss g hg) hu
  exact ⟨bound, hbound⟩

/-! ## Order and legality under the binding -/

/-- On the calls of the macro, what happens on a qubit is what happens on its stand-in, with the calls bound. -/
theorem events_independent (p : PhysicalQubit) :
    (((Reading.events c.slots p.slot).through .gate (m.binding σ)).restrict fun g =>
      g ∈ Reading.calls.readAll m.body.statements).Independent (c.macroSlots m) := by
  refine Reading.independent_of_slot (m.standIn σ p) fun {ss used} hu hx => ?_
  refine Reading.readAll_eq_zero (fun _ => rfl) ss fun g hg => ?_
  by_cases hbody : g ∈ Reading.calls.readAll m.body.statements
  · have huntouched : (c.macroSlots m).touches (m.standIn σ p) g = false := by
      by_contra htouch
      exact hx ((((Universe.usageAll_eq_ok_iff ss).1 hu).mem_iff _).2 ⟨g, hg, by simpa using htouch⟩)
    rw [← hσ.touches_slot_bind hnames hresolves hbody] at huntouched
    simp [Reading.restrict, hbody, Reading.through, Reading.events, huntouched]
  · simp [Reading.restrict, hbody]

theorem onSlot_bind {b : Block} {topLevel : Bool} (hb : Schedule.ArrangesBlock (c.macroSlots m) topLevel m.body b)
    (p : PhysicalQubit) : (b.bind (m.binding σ)).onSlot c.slots p.slot = (m.bodyAt σ).onSlot c.slots p.slot := by
  have hcalls := (Reading.independent_of_comm Reading.calls (c.macroSlots m)).readAll_arrangesBlock hb
  have hread := (hσ.events_independent hnames hresolves p).readAll_arrangesBlock hb
  rw [Reading.readAll_restrict (by simp [hcalls]), Reading.readAll_restrict (by simp),
    ← Reading.readAll_instantiate, ← Reading.readAll_instantiate, Reading.readAll_events,
    Reading.readAll_events] at hread
  exact FreeAddMonoid.ofList.injective hread

theorem apart_bind {s s' : Statement} (hs : ∀ g ∈ Reading.calls.read s, g ∈ Reading.calls.readAll m.body.statements)
    (hs' : ∀ g ∈ Reading.calls.read s', g ∈ Reading.calls.readAll m.body.statements)
    (h : (c.macroSlots m).Apart s s') :
    c.slots.Apart (s.instantiate .gate (m.binding σ)) (s'.instantiate .gate (m.binding σ)) := by
  intro a b ha hb
  rw [Usage.disjoint_iff]
  intro x hxa hxb
  -- a qubit that both touch has one stand-in, which both touch in the macro
  have hmem : ∀ {s : Statement} {used : Usage},
      (∀ g ∈ Reading.calls.read s, g ∈ Reading.calls.readAll m.body.statements) →
      c.slots.usage (s.instantiate .gate (m.binding σ)) = .ok used → x ∈ used →
      ∃ p : PhysicalQubit, p.slot = x ∧ ∃ inner, (c.macroSlots m).usage s = .ok inner ∧ m.standIn σ p ∈ inner := by
    intro s used hs hu hx
    obtain ⟨h, hh, htouch⟩ := (((Universe.usage_eq_ok_iff _).1 hu).mem_iff x).1 hx
    rw [Reading.read_instantiate, Reading.mem_read_through_iff] at hh
    obtain ⟨g, hg, hh⟩ := hh
    rw [Multiset.mem_singleton.1 hh, hσ.touches_bind_iff hnames hresolves (hs g hg)] at htouch
    obtain ⟨p, hp, htouch⟩ := htouch
    obtain ⟨inner, hinner⟩ := Universe.exists_uses fun g hg => hresolves g (hs g hg)
    exact ⟨p, hp, inner, (Universe.usage_eq_ok_iff s).2 hinner, (hinner.mem_iff _).2 ⟨g, hg, htouch⟩⟩
  obtain ⟨p, hp, inner, hinner, hstand⟩ := hmem hs ha hxa
  obtain ⟨p', hp', inner', hinner', hstand'⟩ := hmem hs' hb hxb
  obtain rfl : p = p' := PhysicalQubit.slot_inj.1 (hp.trans hp'.symm)
  exact Usage.disjoint_iff.1 (h inner inner' hinner hinner') _ hstand hstand'

/-- Members of a parallel block that share no slot in the macro share no qubit. -/
theorem pairwise_apart_bind {b root : Block} (hb : b ∈ root.blocks)
    (hroot : Reading.calls.readAll root.statements = Reading.calls.readAll m.body.statements)
    (h : b.statements.Pairwise (c.macroSlots m).Apart) :
    (b.bind (m.binding σ)).statements.Pairwise c.slots.Apart := by
  have hcalls : ∀ s ∈ b.statements, ∀ g ∈ Reading.calls.read s, g ∈ Reading.calls.readAll m.body.statements := by
    intro s hs g hg
    have hmem : g ∈ Reading.calls.readAll b.statements := Reading.mem_calls_readAll_iff.2 ⟨s, hs, hg⟩
    have hinside := Statement.mem_calls_of_mem_blocks (s := root.toStatement) hb g hmem
    rwa [Block.toStatement, Reading.read_block, hroot] at hinside
  rw [Block.bind, Statement.instantiateAll_eq_map, List.pairwise_map]
  exact h.imp_of_mem fun hs hs' hapart => hσ.apart_bind hnames hresolves (hcalls _ hs) (hcalls _ hs') hapart

end BindsApart

theorem Arranges.exists_get? {c' : Circuit} (h : c.Arranges c') {key : String} (hm : c.macros.get? key = some m) :
    ∃ m', c'.macros.get? key = some m' ∧ m'.parameters = m.parameters ∧
      Schedule.ArrangesBlock (c.macroSlots m) false m.body m'.body := by
  obtain ⟨⟨key', m'⟩, he', hkey, -, hparameters, hbody⟩ :=
    exists_left_of_forall₂ h.macros.flip (Table.get?_eq_some_iff.1 hm)
  obtain rfl : key' = key := hkey
  exact ⟨m', Table.get?_eq_some_iff.2 he', hparameters, hbody⟩

/-- A macro whose calls resolve and its schedule, with the parameters bound to different qubits that the macro
does not name itself: every call resolves, barriers act on all qubits, both do the same on every qubit, and if
no two members of a parallel block of the macro share a slot, then no two members of a parallel block of its
schedule share a qubit. -/
theorem schedule_bodyAt {c c' : Circuit} {stats : Stats} {key : String} {m : Macro} {σ : String → PhysicalQubit}
    (hnames : c.registers.OwnNames) (h : c.schedule = .ok (c', stats)) (hm : c.macros.get? key = some m)
    (hresolves : (c.macroSlots m).Resolves m.body.statements) (hσ : c.BindsApart m σ) :
    c.slots.Resolves (m.bodyAt σ).statements ∧
    (∀ g, g.isBarrier = true → ∀ p ∈ c.registers.physicalQubits, c.slots.touches p.slot g = true) ∧
    ∃ m', c'.macros.get? key = some m' ∧ m'.parameters = m.parameters ∧ c'.slots.Resolves (m'.bodyAt σ).statements ∧
      (∀ p : PhysicalQubit, (m'.bodyAt σ).onSlot c'.slots p.slot = (m.bodyAt σ).onSlot c.slots p.slot) ∧
      ((∀ b ∈ m.body.blocks, b.kind = .parallel → b.statements.Pairwise (c.macroSlots m).Apart) →
        ∀ b ∈ (m'.bodyAt σ).blocks, b.kind = .parallel → b.statements.Pairwise c'.slots.Apart) := by
  have ha := arranges_of_schedule h
  obtain ⟨m', hm', hparameters, hbody⟩ := ha.exists_get? hm
  have hbinding : m'.binding σ = m.binding σ := by rw [Macro.binding, hparameters, Macro.binding]
  have hcalls := (Reading.independent_of_comm Reading.calls (c.macroSlots m)).readAll_arrangesBlock hbody
  rw [ha.slots]
  refine ⟨hσ.resolves_bind hnames hresolves fun g hg => hg, ?_, m', hm', hparameters, ?_, ?_, ?_⟩
  · intro g hg p hp
    exact Universe.touches_iff.2 ⟨c.slots.full, by rw [Universe.gateUsage, if_pos hg], slot_mem_full hnames hp⟩
  · rw [Macro.bodyAt, hbinding]
    exact hσ.resolves_bind hnames hresolves fun g hg => hcalls ▸ hg
  · intro p
    rw [Macro.bodyAt, hbinding]
    exact hσ.onSlot_bind hnames hresolves hbody p
  · intro hapart b hb hkind
    rw [Macro.bodyAt, hbinding, Block.blocks_bind] at hb
    obtain ⟨b', hb', rfl⟩ := List.mem_map.1 hb
    have hkept := hbody.obeys (Universe.memberRule_apart _) hapart b' hb' hkind
    exact hσ.pairwise_apart_bind hnames hresolves hb' hcalls hkept

open Sample

/-- A macro with two parameters, a qubit that it names itself in two ways, a barrier, a parallel block and a
loop. -/
def mixMacro : Macro :=
  ⟨"mix", ["a", "b"], ⟨.unscheduled,
    [px (.ref "a"), py (onQ 3), px (.ref "b"), py (.ref "a"), .gate prepareAll,
      .block .parallel [py (.ref "b"), px (.qubit ⟨"back", 0⟩)],
      .loop (.fixed 2) .unscheduled [px (.ref "a"), py (.ref "b")], py (.ref "a")]⟩⟩

def boundSample : Circuit where
  constants := Catalog.empty
  registers := Catalog.ofList
    [("q", ⟨"q", .fundamental 4⟩), ("back", ⟨"back", .mapped "q" (.indices [3, 2, 1, 0])⟩)]
  macros := Catalog.ofList [("mix", mixMacro)]
  nativeGates := GateTable.qscout
  body := .sequential [.gate (.composite "mix" [onQ 2, onQ 0])]

/-- The parameter `a` is bound to `q[2]`, and `b` to `q[0]`. -/
def boundQubits (name : String) : PhysicalQubit := ⟨"q", if name = "a" then 2 else 0⟩

theorem schedule_bodyAt_boundSample :
    boundSample.registers.OwnNames ∧ boundSample.macros.get? "mix" = some mixMacro ∧
      (boundSample.macroSlots mixMacro).Resolves mixMacro.body.statements ∧
      boundSample.BindsApart mixMacro boundQubits ∧
      (∀ b ∈ mixMacro.body.blocks, b.kind = .parallel →
        b.statements.Pairwise (boundSample.macroSlots mixMacro).Apart) ∧
      ∃ c' stats m', boundSample.schedule = .ok (c', stats) ∧ c'.macros.get? "mix" = some m' ∧
        (∀ p : PhysicalQubit, (m'.bodyAt boundQubits).onSlot c'.slots p.slot =
          (mixMacro.bodyAt boundQubits).onSlot boundSample.slots p.slot) ∧
        ∀ b ∈ (m'.bodyAt boundQubits).blocks, b.kind = .parallel → b.statements.Pairwise c'.slots.Apart := by
  have hnames : boundSample.registers.OwnNames := by decide +kernel
  have hm : boundSample.macros.get? "mix" = some mixMacro := Table.get?_eq_some_iff.2 (List.mem_singleton.2 rfl)
  have hused : ((boundSample.macroSlots mixMacro).usageAll mixMacro.body.statements).toBool = true := by
    decide +kernel
  have hresolves := Universe.resolves_iff.2 (toBool_iff.1 hused)
  have hσ : boundSample.BindsApart mixMacro boundQubits :=
    ⟨by decide +kernel, by decide +kernel, by decide +kernel⟩
  have hapart : ∀ b ∈ mixMacro.body.blocks, b.kind = .parallel →
      b.statements.Pairwise (boundSample.macroSlots mixMacro).Apart := by
    decide +kernel
  have hok : boundSample.schedule.toBool = true := by decide +kernel
  obtain ⟨⟨c', stats⟩, h⟩ := toBool_iff.1 hok
  obtain ⟨-, -, m', hm', -, -, horder, hkept⟩ := schedule_bodyAt hnames h hm hresolves hσ
  exact ⟨hnames, hm, hresolves, hσ, hapart, c', stats, m', h, hm', horder, hkept hapart⟩

end Circuit

end IonSchedule
