import IonSchedule.Proofs.Expansion
import IonSchedule.Proofs.SlotOrder

/-! # The order on each qubit of an expanded circuit

Scheduling sees of a macro call only the qubits among its arguments, and its expansion may act on others. Main
statement: if in the unscheduled blocks of the body the expansion of each call acts only on qubits that the call
names, then the schedule with its macros written out does on every qubit what the circuit with its macros
written out does. Without this, gates on one qubit may change places.

Two facts carry the proof. A reading is kept by scheduling as soon as it is kept by unscheduled blocks, so
macros without any are read the same after scheduling under every reading. And in an unscheduled block only
calls that occur there matter, so that a reading need be independent only on them.
-/
namespace IonSchedule

namespace Reading

variable {M : Type} [AddMonoid M] {r : Reading M} {ss : List Statement}

/-- The reading that skips all calls but some. -/
def restrict (r : Reading M) (keep : GateCall → Bool) : Reading M where
  gate g := if keep g then r.gate g else 0
  loop := r.loop

theorem readAll_restrict {keep : GateCall → Bool} (h : ∀ g ∈ calls.readAll ss, keep g = true) :
    (r.restrict keep).readAll ss = r.readAll ss := by
  have hloop : (r.restrict keep).loop = r.loop := rfl
  exact readAll_congr hloop ss fun g hg => by simp [restrict, h g hg]

end Reading

namespace Schedule

variable {M : Type} [AddMonoid M] {r : Reading M} {u : Universe} {j : Judgement} {Q : Block → Prop}

/-- Outside of unscheduled blocks every reading is kept; inside of them, as far as they have the property `Q`. -/
def Judgement.KeepsWhere (r : Reading M) (Q : Block → Prop) : Judgement → Prop
  | .arranged s s' _ => s.AllBlocks (fun b => b.kind = .unscheduled → Q b) → r.read s' = r.read s
  | .members ss out _ => (∀ s ∈ ss, s.AllBlocks fun b => b.kind = .unscheduled → Q b) → r.readAll out = r.readAll ss
  | .sequence _ ss out _ => (∀ s ∈ ss, s.AllBlocks fun b => b.kind = .unscheduled → Q b) →
      r.readAll out = r.readAll ss
  | .piece _ s out _ => s.AllBlocks (fun b => b.kind = .unscheduled → Q b) → r.readAll out = r.read s
  | .body kind ss out _ => (kind = .unscheduled → Q ⟨kind, ss⟩) →
      (∀ s ∈ ss, s.AllBlocks fun b => b.kind = .unscheduled → Q b) → r.readAll out = r.readAll ss
  | _ => True

theorem Derives.keepsWhere
    (hQ : ∀ {ss out stats}, Derives u (.body .unscheduled ss out stats) → Q ⟨.unscheduled, ss⟩ →
      r.readAll out = r.readAll ss)
    (h : Derives u j) : j.KeepsWhere r Q := by
  induction h with
  | gate => exact fun _ => rfl
  | block body ih =>
    intro hs
    obtain ⟨hb, hss⟩ := Statement.allBlocks_block_iff.1 hs
    rw [Reading.read_block, Reading.read_block]
    exact ih hb hss
  | loop body ih =>
    intro hs
    obtain ⟨hb, hss⟩ := Statement.allBlocks_loop_iff.1 hs
    rw [Reading.read_loop, Reading.read_loop, ih hb hss]
  | noMember => exact fun _ => rfl
  | member first others ihfirst ihothers =>
    intro hss
    rw [List.forall_mem_cons] at hss
    rw [Reading.readAll_cons, Reading.readAll_cons, ihfirst hss.1, ihothers hss.2]
  | noPiece => exact fun _ => rfl
  | pieces head tail ihhead ihtail =>
    intro hss
    rw [List.forall_mem_cons] at hss
    rw [Reading.readAll_append, Reading.readAll_cons, ihhead hss.1, ihtail hss.2]
  | moments body ih =>
    intro hs
    obtain ⟨hb, hss⟩ := Statement.allBlocks_block_iff.1 hs
    rw [Reading.read_block]
    exact ih hb hss
  | spliced body ih =>
    intro hs
    obtain ⟨hb, hss⟩ := Statement.allBlocks_block_iff.1 hs
    rw [Reading.read_block]
    exact ih hb hss
  | nested body ih =>
    intro hs
    obtain ⟨hb, hss⟩ := Statement.allBlocks_block_iff.1 hs
    rw [Reading.readAll_cons, Reading.readAll_nil, add_zero, Reading.read_block, Reading.read_block]
    exact ih hb hss
  | kept hleaf arranged ih =>
    intro hs
    rw [Reading.readAll_cons, Reading.readAll_nil, add_zero]
    exact ih hs
  | sequential sequence ih => exact fun _ hss => ih hss
  | parallel members ih => exact fun _ hss => ih hss
  | unscheduled placed ih => exact fun hb _ => hQ (.unscheduled placed) (hb rfl)
  | _ => trivial

theorem ArrangesBlock.readAll_eq
    (hQ : ∀ {ss out stats}, Derives u (.body .unscheduled ss out stats) → Q ⟨.unscheduled, ss⟩ →
      r.readAll out = r.readAll ss)
    {topLevel : Bool} {b b' : Block} (h : ArrangesBlock u topLevel b b')
    (hb : ∀ x ∈ b.blocks, x.kind = .unscheduled → Q x) :
    r.readAll b'.statements = r.readAll b.statements := by
  rw [Block.forall_blocks_iff] at hb
  cases h with
  | body statements => exact statements.keepsWhere hQ hb.1 hb.2
  | top statements => exact statements.keepsWhere hQ hb.2
  | topMoments statements => exact statements.keepsWhere hQ hb.1 hb.2

/-- A block with nothing to schedule in it is read the same under every reading. -/
theorem ArrangesBlock.readAll_eq_of_scheduled (r : Reading M) {topLevel : Bool} {b b' : Block}
    (h : ArrangesBlock u topLevel b b') (hb : ∀ x ∈ b.blocks, x.kind ≠ .unscheduled) :
    r.readAll b'.statements = r.readAll b.statements :=
  h.readAll_eq (Q := fun _ => False) (fun _ hfalse => hfalse.elim) hb

/-- In an unscheduled block a reading need be independent only on the calls that occur. -/
theorem readAll_body_of_restrict {keep : GateCall → Bool} (hr : (r.restrict keep).Independent u)
    {ss out : List Statement} {stats : Stats} (h : Derives u (.body .unscheduled ss out stats))
    (hkeep : ∀ g ∈ Reading.calls.readAll ss, keep g = true) : r.readAll out = r.readAll ss := by
  calc
    r.readAll out = (r.restrict keep).readAll out := (Reading.readAll_restrict (by rwa [h.calls_body])).symm
    _ = (r.restrict keep).readAll ss := hr.keeps h
    _ = r.readAll ss := Reading.readAll_restrict hkeep

end Schedule

mutual

theorem Statement.allBlocks_of_hasUnscheduled : (s : Statement) → s.hasUnscheduled = false →
    s.AllBlocks fun b => b.kind ≠ .unscheduled
  | .gate g, _ => allBlocks_gate g
  | .block kind ss, h => by
    simp only [hasUnscheduled, Bool.or_eq_false_iff, decide_eq_false_iff_not] at h
    exact allBlocks_block_iff.2 ⟨h.1, Statement.allBlocks_of_anyUnscheduled ss h.2⟩
  | .loop count kind body, h => by
    simp only [hasUnscheduled, Bool.or_eq_false_iff, decide_eq_false_iff_not] at h
    exact allBlocks_loop_iff.2 ⟨h.1, Statement.allBlocks_of_anyUnscheduled body h.2⟩

theorem Statement.allBlocks_of_anyUnscheduled : (ss : List Statement) → anyUnscheduled ss = false →
    ∀ s ∈ ss, s.AllBlocks fun b => b.kind ≠ .unscheduled
  | [], _ => by simp
  | s :: rest, h => by
    simp only [anyUnscheduled, Bool.or_eq_false_iff] at h
    exact List.forall_mem_cons.2 ⟨allBlocks_of_hasUnscheduled s h.1, allBlocks_of_anyUnscheduled rest h.2⟩

end

theorem Block.forall_blocks_of_hasUnscheduled {b : Block} (h : b.hasUnscheduled = false) :
    ∀ x ∈ b.blocks, x.kind ≠ .unscheduled := by
  have hblocks := Statement.allBlocks_block_iff.1 (Statement.allBlocks_of_hasUnscheduled b.toStatement h)
  exact Block.forall_blocks_iff.2 hblocks

section Macros

variable {M : Type} [AddMonoid M] {ms ms' : List (String × Macro)}

/-- Macros of one name with the same parameters, whose statements every reading takes to the same. -/
def SameMacro (M : Type) [AddMonoid M] (e e' : String × Macro) : Prop :=
  e'.1 = e.1 ∧ e'.2.parameters = e.2.parameters ∧
    ∀ r : Reading M, r.readAll e'.2.body.statements = r.readAll e.2.body.statements

theorem GateCall.read_expand_eq (h : List.Forall₂ (SameMacro M) ms ms') (r : Reading M) (g : GateCall) :
    r.read (g.expand ms') = r.read (g.expand ms) := by
  induction h generalizing r g with
  | nil => rfl
  | @cons e e' earlier earlier' hsame hearlier ih =>
    obtain ⟨key, m⟩ := e
    obtain ⟨key', m'⟩ := e'
    obtain ⟨hkey, hparameters, hread⟩ := hsame
    simp only at hkey hparameters hread
    subst hkey
    rw [expand, expand]
    split
    · have hthrough : r.through (expand earlier') (m'.parameters.zip g.args) =
          r.through (expand earlier) (m.parameters.zip g.args) := by
        simp only [Reading.through, hparameters, ih]
      rw [Reading.read_block, Reading.read_block, Reading.readAll_instantiate, Reading.readAll_instantiate,
        hthrough, hread]
    · exact ih r g

theorem GateCall.Known.of_sameMacro {g : GateCall} (h : List.Forall₂ (SameMacro M) ms ms') (hg : g.Known ms) :
    g.Known ms' := by
  refine hg.imp_right fun hname => ?_
  obtain ⟨e, he, hkey⟩ := List.mem_map.1 hname
  obtain ⟨e', he', hsame⟩ := exists_left_of_forall₂ h.flip he
  exact List.mem_map.2 ⟨e', he', hsame.1.trans hkey⟩

theorem MacrosClosed.of_sameMacro (h : List.Forall₂ (SameMacro (Multiset GateCall)) ms ms')
    (hms : MacrosClosed ms) : MacrosClosed ms' := by
  induction h with
  | nil => trivial
  | cons hsame hearlier ih =>
    obtain ⟨hbody, hclosed⟩ := hms
    refine ⟨fun g hg => ?_, ih hclosed⟩
    rw [hsame.2.2] at hg
    exact (hbody g hg).of_sameMacro hearlier

end Macros

/-- The qubits of the fundamental registers. -/
def Registers.physicalQubits (t : Registers) : List PhysicalQubit :=
  t.items.flatMap fun e =>
    match e.2.kind with
    | .fundamental size => (List.range size).map (⟨e.1, ·⟩)
    | .mapped _ _ => []

/-- A register that is declared is filed under its own name. -/
theorem Registers.OwnNames.declare {t t' : Registers} {r : Register} (ht : t.OwnNames) (h : t.declare r = .ok t') :
    t'.OwnNames := by
  simp only [Registers.declare] at h
  split at h
  · cases h
  · rename_i hfresh
    cases h
    have hitems : (t.insert r.name r).items = t.items ++ [(r.name, r)] :=
      Catalog.putItem_of_fresh fun hmem => hfresh (Catalog.contains_iff.2 hmem)
    intro e he hkind
    rw [hitems] at he
    rcases List.mem_append.1 he with he | he
    · exact ht e he hkind
    · rw [List.mem_singleton.1 he]

namespace Circuit

open Schedule

/-- The qubits that a call acts on: all of them if it is a barrier, and else those that it names at qubit
positions. -/
def qubitsOf (c : Circuit) (g : GateCall) : List PhysicalQubit :=
  if g.isBarrier then c.registers.physicalQubits
  else g.quantumArgs.filterMap fun a =>
    match a with
    | .qubit q => (c.registers.resolve q).toOption
    | _ => none

/-- What happens on a qubit, as a reading. -/
def qubitEvents (c : Circuit) (p : PhysicalQubit) : Reading (FreeAddMonoid Event) where
  gate g := .ofList (if p ∈ c.qubitsOf g then [.gate g] else [])
  loop count body := .ofList (Event.ofLoop count body.toList)

/-- What a block does on a qubit. -/
def onQubit (c : Circuit) (p : PhysicalQubit) (b : Block) : List Event :=
  ((c.qubitEvents p).readAll b.statements).toList

/-- The call acts, written out, only on qubits that it acts on as it stands. -/
def Confined (c : Circuit) (g : GateCall) : Prop :=
  ∀ h ∈ Reading.calls.read (g.expand c.macroStack), ∀ p ∈ c.qubitsOf h, p ∈ c.qubitsOf g

/-- In the unscheduled blocks of the body every call is confined. -/
def CallsConfined (c : Circuit) : Prop :=
  ∀ b ∈ c.body.blocks, b.kind = .unscheduled → ∀ g ∈ Reading.calls.readAll b.statements, c.Confined g

instance (c : Circuit) (g : GateCall) : Decidable (c.Confined g) :=
  inferInstanceAs (Decidable (∀ _ ∈ _, ∀ _ ∈ _, _))

instance (c : Circuit) : Decidable c.CallsConfined := inferInstanceAs (Decidable (∀ _ ∈ _, _ → ∀ _ ∈ _, _))

variable {c c' : Circuit} {p : PhysicalQubit} {g : GateCall} {used : Usage}

theorem mem_argumentsUsage {u : Universe} {args : List Argument} (hu : u.argumentsUsage g args = .ok used)
    {a : Argument} (ha : a ∈ args) : ∃ slots, u.argumentUsage g a = .ok slots ∧ ∀ x ∈ slots, x ∈ used := by
  induction args generalizing used with
  | nil => simp at ha
  | cons first rest ih =>
    simp only [Universe.argumentsUsage, bind_eq_ok_iff, pure_eq_ok_iff] at hu
    obtain ⟨slots, hslots, others, hothers, rfl⟩ := hu
    rcases List.mem_cons.1 ha with rfl | ha
    · exact ⟨slots, hslots, fun x hx => Std.ExtTreeSet.mem_union_iff.2 (Or.inl hx)⟩
    · obtain ⟨slots', hslots', hsub⟩ := ih hothers ha
      exact ⟨slots', hslots', fun x hx => Std.ExtTreeSet.mem_union_iff.2 (Or.inr (hsub x hx))⟩

/-- The slots of a call cover the qubits that it acts on. -/
theorem mem_usage_of_mem_qubitsOf (hnames : c.registers.OwnNames) (hu : c.slots.gateUsage g = .ok used)
    (hp : p ∈ c.qubitsOf g) : (⟨.register p.register, p.index⟩ : Slot) ∈ used := by
  unfold qubitsOf at hp
  unfold Universe.gateUsage at hu
  split at hp
  · rename_i hbarrier
    rw [if_pos hbarrier, Except.ok.injEq] at hu
    rw [← hu]
    obtain ⟨⟨key, name, kind⟩, he, hp⟩ := List.mem_flatMap.1 hp
    cases kind with
    | mapped source selection => simp at hp
    | fundamental size =>
      obtain ⟨i, hi, rfl⟩ := List.mem_map.1 hp
      have hfundamental := hnames.mem_fundamental (Table.get?_eq_some_iff.2 he)
      exact Universe.mem_full_ofRegisters.2 ⟨_, hfundamental, rfl, List.mem_range.1 hi⟩
  · rename_i hbarrier
    rw [if_neg hbarrier] at hu
    obtain ⟨a, ha, hp⟩ := List.mem_filterMap.1 hp
    obtain ⟨part, hpart, hsub⟩ := mem_argumentsUsage hu ha
    cases a with
    | number value => simp at hp
    | ref name => simp at hp
    | qubit q =>
      have hregisters : c.slots.registers = c.registers := Universe.registers_ofRegisters c.registers
      cases hresolve : c.registers.resolve q with
      | error e => simp [hresolve, Except.toOption] at hp
      | ok p' =>
        obtain rfl : p' = p := by simpa [hresolve, Except.toOption] using hp
        simp only [Universe.argumentUsage, hregisters, hresolve, Except.ok.injEq] at hpart
        exact hsub _ (by simp [← hpart])

/-- On the calls that are confined, statements without a common slot do not both act on a qubit. -/
theorem qubitEvents_independent (hnames : c.registers.OwnNames) (p : PhysicalQubit) :
    (((c.qubitEvents p).through (GateCall.expand c.macroStack) []).restrict fun g => c.Confined g).Independent
      c.slots := by
  refine Reading.independent_of_slot ⟨.register p.register, p.index⟩ fun {ss used} hu hx => ?_
  have hloop : ∀ count, (((c.qubitEvents p).through (GateCall.expand c.macroStack) []).restrict
      fun g => c.Confined g).loop count 0 = 0 := by
    simp [Reading.restrict, Reading.through, qubitEvents, Event.ofLoop]
  refine Reading.readAll_eq_zero hloop ss ?_
  intro g hg
  have huses := (Universe.usageAll_eq_ok_iff ss).1 hu
  obtain ⟨part, hpart⟩ := huses.resolved g hg
  have hacts : p ∉ c.qubitsOf g := by
    intro hp
    have htouches := Universe.touches_iff.2 ⟨part, hpart, mem_usage_of_mem_qubitsOf hnames hpart hp⟩
    exact hx ((huses.mem_iff _).2 ⟨g, hg, htouches⟩)
  by_cases hconfined : c.Confined g
  · simp only [Reading.restrict, hconfined, decide_true, if_true, Reading.through, GateCall.bind_nil]
    refine Reading.read_eq_zero (fun count => by simp [qubitEvents, Event.ofLoop]) _ fun h hh => ?_
    have hacts' : p ∉ c.qubitsOf h := fun hp => hacts (hconfined h hh p hp)
    simp [qubitEvents, hacts']
  · simp [Reading.restrict, hconfined]

theorem Arranges.forall₂_macroStack (h : c.Arranges c') (hm : ∀ m ∈ c.macros.values, m.body.hasUnscheduled = false)
    (M : Type) [AddMonoid M] : List.Forall₂ (SameMacro M) c.macroStack c'.macroStack := by
  refine List.rel_reverse ?_
  have hitems : ∀ e ∈ c.macros.items, e.2.body.hasUnscheduled = false := fun e he => hm e.2 (List.mem_map_of_mem he)
  refine ((List.forall₂_and_left _ _).2 ⟨hitems, h.macros⟩).imp ?_
  rintro e e' ⟨hscheduled, hkey, -, hparameters, hbody⟩
  exact ⟨hkey, hparameters,
    fun r => hbody.readAll_eq_of_scheduled r (Block.forall_blocks_of_hasUnscheduled hscheduled)⟩

theorem Expandable.of_arranges (hc : c.Expandable) (h : c.Arranges c')
    (hm : ∀ m ∈ c.macros.values, m.body.hasUnscheduled = false) : c'.Expandable := by
  have hsames := h.forall₂_macroStack hm (Multiset GateCall)
  refine ⟨hc.macros.of_sameMacro hsames, fun g hg => ?_⟩
  rw [(Reading.independent_of_comm Reading.calls c.slots).readAll_arrangesBlock h.body] at hg
  exact (hc.body g hg).of_sameMacro hsames

theorem Expandable.isNative (hc : c.Expandable) :
    ∀ g ∈ Reading.calls.readAll c.expandedBody.statements, g.isNative = true := by
  intro h hh
  rw [expandedBody, Reading.readAll_instantiate, Reading.mem_readAll_through_iff] at hh
  obtain ⟨g, hg, hh⟩ := hh
  rw [GateCall.bind_nil] at hh
  exact GateCall.isNative_of_mem_expand hc.macros (hc.body g hg) h hh

theorem onQubit_expandedBody_of_arranges (h : c.Arranges c') (hnames : c.registers.OwnNames)
    (hm : ∀ m ∈ c.macros.values, m.body.hasUnscheduled = false) (hconfined : c.CallsConfined) (p : PhysicalQubit) :
    c'.onQubit p c'.expandedBody = c.onQubit p c.expandedBody := by
  have hqubits : c'.qubitsOf = c.qubitsOf := by
    funext g
    rw [qubitsOf, h.registers, qubitsOf]
  have hevents : c'.qubitEvents p = c.qubitEvents p := by rw [qubitEvents, hqubits, qubitEvents]
  have hthrough : (c.qubitEvents p).through (GateCall.expand c'.macroStack) [] =
      (c.qubitEvents p).through (GateCall.expand c.macroStack) [] := by
    simp only [Reading.through, GateCall.read_expand_eq (h.forall₂_macroStack hm _)]
  have hbody := h.body.readAll_eq
    (Q := fun b => ∀ g ∈ Reading.calls.readAll b.statements, c.Confined g)
    (fun hbody hcalls => readAll_body_of_restrict (qubitEvents_independent hnames p) hbody (by simpa using hcalls))
    hconfined
  rw [onQubit, onQubit, expandedBody, expandedBody, Reading.readAll_instantiate, Reading.readAll_instantiate,
    hevents, hthrough, hbody]

theorem Built.ownNames (h : c.Built) : c.registers.OwnNames := by
  induction h with
  | empty nativeGates => exact fun e he => absurd he List.not_mem_nil
  | register hc h ih =>
    obtain ⟨-, t, hdeclare, rfl⟩ := declareRegister_eq_ok_iff.1 h
    exact ih.declare hdeclare
  | map hc h ih =>
    obtain ⟨-, size, -, -, t, hdeclare, rfl⟩ := declareMap_eq_ok_iff.1 h
    exact ih.declare hdeclare
  | constant hc h ih =>
    obtain ⟨-, rfl⟩ := declareConstant_eq_ok_iff.1 h
    exact ih
  | composite hc h ih =>
    obtain ⟨-, -, -, rfl⟩ := declareMacro_eq_ok_iff.1 h
    exact ih
  | body hc hb ih => exact ih

/-- Scheduling and writing macros out agree on every qubit, if no macro has anything left to schedule and each
call in an unscheduled block acts, written out, only on qubits that it names. -/
theorem schedule_onQubit_expandedBody {c c' : Circuit} {stats : Stats} (hc : c.Built)
    (hm : ∀ m ∈ c.macros.values, m.body.hasUnscheduled = false) (hconfined : c.CallsConfined)
    (h : c.schedule = .ok (c', stats)) :
    (∀ g ∈ Reading.calls.readAll c.expandedBody.statements, g.isNative = true) ∧
    (∀ g ∈ Reading.calls.readAll c'.expandedBody.statements, g.isNative = true) ∧
    ∀ p, c'.onQubit p c'.expandedBody = c.onQubit p c.expandedBody := by
  have ha := arranges_of_schedule h
  exact ⟨hc.expandable.isNative, (hc.expandable.of_arranges ha hm).isNative,
    onQubit_expandedBody_of_arranges ha hc.ownNames hm hconfined⟩

open Sample

/-- Macros that call each other with their parameters, and one that acts on all qubits but is called outside of
unscheduled blocks. -/
def expansionSample : Circuit where
  constants := Catalog.empty
  registers := Catalog.ofList [("q", ⟨"q", .fundamental 3⟩)]
  macros := Catalog.ofList
    [("both", ⟨"both", ["a", "b"], .sequential [px (.ref "a"), py (.ref "b")]⟩),
      ("swing", ⟨"swing", ["a", "b", "n"],
        .sequential [.loop (.symbol "n") .sequential [.gate (.composite "both" [.ref "b", .ref "a"])]]⟩),
      ("reset", ⟨"reset", [], .sequential [.gate prepareAll]⟩)]
  nativeGates := GateTable.qscout
  body := .sequential
    [.gate (.composite "reset" []),
      .block .unscheduled
        [px (onQ 0), .gate (.composite "swing" [onQ 0, onQ 1, .number (.zero false)]), py (onQ 2),
          .block .sequential [.gate (.composite "both" [onQ 2, onQ 0]), px (onQ 1)]]]

theorem built_expansionSample : expansionSample.Built := by
  have hq := (Built.empty GateTable.qscout).register (show declareRegister _ "q" 3 = .ok _ from rfl)
  have hboth := hq.composite
    (show declareMacro _ "both" ["a", "b"] (.sequential [px (.ref "a"), py (.ref "b")]) = .ok _ from rfl)
  have hswing := hboth.composite
    (show declareMacro _ "swing" ["a", "b", "n"]
      (.sequential [.loop (.symbol "n") .sequential [.gate (.composite "both" [.ref "b", .ref "a"])]]) =
        .ok _ from rfl)
  have hreset := hswing.composite (show declareMacro _ "reset" [] (.sequential [.gate prepareAll]) = .ok _ from rfl)
  have hdeclared : Built { expansionSample with body := .sequential [] } := hreset
  have hbody : ∀ g ∈ Reading.calls.readAll expansionSample.body.statements,
      ({ expansionSample with body := .sequential [] } : Circuit).gate [] g.name g.args = .ok g := by
    decide +kernel
  exact hdeclared.body (b := expansionSample.body) fun g hg => ⟨[], hbody g hg⟩

theorem schedule_onQubit_expansionSample :
    expansionSample.Built ∧ (∀ m ∈ expansionSample.macros.values, m.body.hasUnscheduled = false) ∧
      expansionSample.CallsConfined ∧
      ∃ c' stats, expansionSample.schedule = .ok (c', stats) ∧
        (∀ g ∈ Reading.calls.readAll expansionSample.expandedBody.statements, g.isNative = true) ∧
        (∀ g ∈ Reading.calls.readAll c'.expandedBody.statements, g.isNative = true) ∧
        ∀ p, c'.onQubit p c'.expandedBody = expansionSample.onQubit p expansionSample.expandedBody := by
  have hm : ∀ m ∈ expansionSample.macros.values, m.body.hasUnscheduled = false := by decide +kernel
  have hconfined : expansionSample.CallsConfined := by decide +kernel
  have hok : expansionSample.schedule.toBool = true := by decide +kernel
  obtain ⟨⟨c', stats⟩, h⟩ := toBool_iff.1 hok
  exact ⟨built_expansionSample, hm, hconfined, c', stats, h,
    schedule_onQubit_expandedBody built_expansionSample hm hconfined h⟩

/-- A macro without parameters that acts on a qubit. -/
def hiddenQubitSample : Circuit where
  constants := Catalog.empty
  registers := Catalog.ofList [("q", ⟨"q", .fundamental 2⟩)]
  macros := Catalog.ofList [("Flip", ⟨"Flip", [], .sequential [px (onQ 0)]⟩)]
  nativeGates := GateTable.qscout
  body := .sequential [.block .unscheduled [px (onQ 1), .gate (.composite "Flip" []), py (onQ 0)]]

theorem built_hiddenQubitSample : hiddenQubitSample.Built := by
  have hq := (Built.empty GateTable.qscout).register (show declareRegister _ "q" 2 = .ok _ from rfl)
  have hflip := hq.composite (show declareMacro _ "Flip" [] (.sequential [px (onQ 0)]) = .ok _ from rfl)
  have hdeclared : Built { hiddenQubitSample with body := .sequential [] } := hflip
  have hbody : ∀ g ∈ Reading.calls.readAll hiddenQubitSample.body.statements,
      ({ hiddenQubitSample with body := .sequential [] } : Circuit).gate [] g.name g.args = .ok g := by
    decide +kernel
  exact hdeclared.body (b := hiddenQubitSample.body) fun g hg => ⟨[], hbody g hg⟩

/-- Two gates on one qubit change places if the macro with the first of them does not name the qubit. -/
theorem schedule_reorders_hidden_qubit :
    hiddenQubitSample.Built ∧ (∀ m ∈ hiddenQubitSample.macros.values, m.body.hasUnscheduled = false) ∧
      ∃ c' stats, hiddenQubitSample.schedule = .ok (c', stats) ∧
        ∃ first second, first ≠ second ∧
          hiddenQubitSample.onQubit ⟨"q", 0⟩ hiddenQubitSample.expandedBody = [.gate first, .gate second] ∧
          c'.onQubit ⟨"q", 0⟩ c'.expandedBody = [.gate second, .gate first] := by
  refine ⟨built_hiddenQubitSample, by decide +kernel,
    { hiddenQubitSample with
      body := .sequential [.block .parallel [px (onQ 1), py (onQ 0)], .gate (.composite "Flip" [])] },
    ⟨1, 2, 1, 3⟩, by with_unfolding_all rfl, pxCall (onQ 0),
    pyCall (onQ 0), by decide, ?_, ?_⟩
  · with_unfolding_all rfl
  · with_unfolding_all rfl

end Circuit

end IonSchedule
