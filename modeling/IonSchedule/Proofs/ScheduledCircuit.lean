import Mathlib.Data.List.Forall2
import IonSchedule.Proofs.Derivation

/-! # The parts of a scheduled circuit

A schedule of a circuit is made of one derivation for its body and one for each macro. All else is carried over,
and macros keep their keys, names, parameters and order, so both circuits have the same slots.
-/
namespace IonSchedule

namespace Table

variable {α β ε : Type} {f : α → Except ε β}

theorem traverseItems_eq_ok_iff {items : List (String × α)} {out : List (String × β)} :
    traverseItems f items = .ok out ↔ List.Forall₂ (fun e e' => e'.1 = e.1 ∧ f e.2 = .ok e'.2) items out := by
  induction items generalizing out with
  | nil => simp [traverseItems, eq_comm]
  | cons entry rest ih =>
    obtain ⟨key, a⟩ := entry
    rw [List.forall₂_cons_left_iff]
    simp only [traverseItems, ← ih]
    cases hf : f a with
    | error e => simp
    | ok b =>
      cases hrest : traverseItems f rest with
      | error e => simp
      | ok bs => simp [eq_comm]

theorem traverse_eq_ok_iff {t : Table α} {t' : Table β} :
    t.traverse f = .ok t' ↔ List.Forall₂ (fun e e' => e'.1 = e.1 ∧ f e.2 = .ok e'.2) t.items t'.items := by
  rw [← traverseItems_eq_ok_iff]
  unfold traverse
  split
  · simp [*]
  · rename_i out hout
    constructor
    · intro h
      cases h
      exact hout
    · intro h
      exact congrArg Except.ok (Catalog.eq_of_items_eq (Except.ok.inj (hout.symm.trans h)))

end Table

namespace Schedule

/-- A block in scheduled form; `topLevel` says that it is the body of a circuit. -/
inductive ArrangesBlock (u : Universe) : (topLevel : Bool) → Block → Block → Prop
  | body {kind : BlockKind} {ss out : List Statement} {stats : Stats}
      (statements : Derives u (.body kind ss out stats)) :
      ArrangesBlock u false ⟨kind, ss⟩ ⟨kind.scheduled, out⟩
  | top {ss out : List Statement} {stats : Stats} (statements : Derives u (.sequence true ss out stats)) :
      ArrangesBlock u true ⟨.sequential, ss⟩ ⟨.sequential, out⟩
  | topMoments {ss out : List Statement} {stats : Stats}
      (statements : Derives u (.body .unscheduled ss out stats)) :
      ArrangesBlock u true ⟨.unscheduled, ss⟩ ⟨.sequential, out⟩

theorem arrangesBlock_of_arrangeBlock {u : Universe} {b b' : Block} {stats : Stats}
    (h : arrangeBlock u b = .ok (b', stats)) : ArrangesBlock u false b b' := by
  simp only [arrangeBlock_eq, bind_eq_ok_iff, pure_eq_ok_iff, Prod.mk.injEq] at h
  obtain ⟨⟨out, stats⟩, hbody, rfl, rfl⟩ := h
  exact .body (derives_arrangeBody hbody)

end Schedule

open Schedule

theorem Circuit.arrangesBlock_of_scheduleBody {c : Circuit} {b : Block} {stats : Stats}
    (h : c.scheduleBody = .ok (b, stats)) : ArrangesBlock c.slots true c.body b := by
  unfold Circuit.scheduleBody at h
  rcases hb : c.body with ⟨kind, ss⟩
  rw [hb] at h
  cases kind with
  | parallel => simp at h
  | sequential =>
    simp only [bind_eq_ok_iff, pure_eq_ok_iff, mapError_eq_ok_iff, Prod.mk.injEq] at h
    obtain ⟨⟨out, stats⟩, hout, rfl, rfl⟩ := h
    exact .top (derives_splice hout)
  | unscheduled =>
    simp only [bind_eq_ok_iff, pure_eq_ok_iff, mapError_eq_ok_iff, Prod.mk.injEq] at h
    obtain ⟨⟨out, stats⟩, hout, rfl, rfl⟩ := h
    exact .topMoments (derives_arrangeBody hout)

/-- What scheduling makes of a circuit. -/
structure Circuit.Arranges (c c' : Circuit) : Prop where
  constants : c'.constants = c.constants
  registers : c'.registers = c.registers
  nativeGates : c'.nativeGates = c.nativeGates
  body : ArrangesBlock c.slots true c.body c'.body
  macros : List.Forall₂ (fun e e' => e'.1 = e.1 ∧ e'.2.name = e.2.name ∧ e'.2.parameters = e.2.parameters ∧
    ArrangesBlock (c.macroSlots e.2) false e.2.body e'.2.body) c.macros.items c'.macros.items

theorem Circuit.Arranges.slots {c c' : Circuit} (h : c.Arranges c') : c'.slots = c.slots := by
  unfold Circuit.slots
  rw [h.registers]

theorem Circuit.Arranges.macroSlots {c c' : Circuit} (h : c.Arranges c') {m m' : Macro}
    (hm : m'.parameters = m.parameters) : c'.macroSlots m' = c.macroSlots m := by
  unfold Circuit.macroSlots
  rw [h.slots, hm]

theorem exists_left_of_forall₂ {α β : Type} {R : α → β → Prop} {l : List α} {l' : List β} (h : List.Forall₂ R l l')
    {b : β} (hb : b ∈ l') : ∃ a ∈ l, R a b := by
  induction h with
  | nil => simp at hb
  | @cons a₁ b₁ l₁ l₂ hfirst _ ih =>
    rcases List.mem_cons.1 hb with rfl | hb
    · exact ⟨a₁, List.mem_cons_self, hfirst⟩
    · obtain ⟨a, ha, hab⟩ := ih hb
      exact ⟨a, List.mem_cons_of_mem a₁ ha, hab⟩

/-- Every macro of a schedule comes from a macro of the circuit. -/
theorem Circuit.Arranges.exists_macro {c c' : Circuit} (h : c.Arranges c') {m' : Macro}
    (hm' : m' ∈ c'.macros.values) :
    ∃ m ∈ c.macros.values, m'.name = m.name ∧ m'.parameters = m.parameters ∧
      ArrangesBlock (c.macroSlots m) false m.body m'.body := by
  obtain ⟨e', he', rfl⟩ := List.mem_map.1 hm'
  obtain ⟨e, he, -, hm⟩ := exists_left_of_forall₂ h.macros he'
  exact ⟨e.2, List.mem_map_of_mem he, hm⟩

theorem Circuit.arranges_of_schedule {c c' : Circuit} {stats : Stats} (h : c.schedule = .ok (c', stats)) :
    c.Arranges c' := by
  simp only [Circuit.schedule, bind_eq_ok_iff, pure_eq_ok_iff, Prod.mk.injEq] at h
  obtain ⟨⟨body, bodyStats⟩, hbody, macros, hmacros, rfl, -⟩ := h
  refine ⟨rfl, rfl, rfl, arrangesBlock_of_scheduleBody hbody, ?_⟩
  rw [Table.traverse_eq_ok_iff] at hmacros
  simp only [Table.map, List.forall₂_map_right_iff]
  refine hmacros.imp ?_
  rintro ⟨key, m⟩ ⟨key', m', more⟩ ⟨rfl, hm⟩
  simp only [Circuit.scheduleMacro, bind_eq_ok_iff, pure_eq_ok_iff, mapError_eq_ok_iff, Prod.mk.injEq] at hm
  obtain ⟨⟨body', more⟩, hbody', rfl, rfl⟩ := hm
  exact ⟨rfl, rfl, rfl, arrangesBlock_of_arrangeBlock hbody'⟩

/-! ## Samples -/

namespace Sample

/-- The qubit `q[i]` as an argument. -/
def onQ (i : Nat) : Argument := .qubit ⟨"q", i⟩

/-- A qubit of the map that shows every second one. -/
def onEven (i : Nat) : Argument := .qubit ⟨"even", i⟩

def pxCall (a : Argument) : GateCall := .native ⟨"Px", [⟨"q", .qubit⟩]⟩ [a]

def pyCall (a : Argument) : GateCall := .native ⟨"Py", [⟨"q", .qubit⟩]⟩ [a]

def px (a : Argument) : Statement := .gate (pxCall a)

def py (a : Argument) : Statement := .gate (pyCall a)

def sxx (a b : Argument) : Statement := .gate (.native ⟨"Sxx", [⟨"q0", .qubit⟩, ⟨"q1", .qubit⟩]⟩ [a, b])

def prepareAll : GateCall := .native ⟨"prepare_all", []⟩ []

end Sample

open Sample in
/-- Blocks of every kind in each other, a loop, a mapped register, a macro with a parameter, and a macro whose only
qubit does not resolve. -/
def Circuit.sample : Circuit where
  constants := Catalog.empty
  registers := Catalog.ofList [("q", ⟨"q", .fundamental 4⟩), ("even", ⟨"even", .mapped "q" (.slice 0 4 2)⟩)]
  macros := Catalog.ofList
    [("echo", ⟨"echo", ["a"], ⟨.unscheduled, [px (.ref "a"), px (onQ 3), sxx (.ref "a") (onQ 0)]⟩⟩),
      ("lost", ⟨"lost", [], .sequential [px (.qubit ⟨"p", 0⟩)]⟩)]
  nativeGates := Catalog.empty
  body := .sequential
    [.block .sequential [px (onQ 0)],
      .block .unscheduled
        [px (onQ 0), sxx (onEven 1) (onQ 3),
          .loop (.fixed 2) .unscheduled [px (onQ 1), .block .unscheduled [px (onEven 0), px (onEven 0)]],
          .block .parallel [px (onQ 2), .block .unscheduled [sxx (onQ 0) (onQ 1), px (onQ 3)]],
          .block .parallel [px (onQ 2), px (onEven 0)],
          .block .sequential [px (onQ 1), px (onQ 1)],
          .gate (.composite "echo" [onQ 2])]]

theorem Circuit.exists_schedule_sample : ∃ c' stats, sample.schedule = .ok (c', stats) := by
  have hok : sample.schedule.toBool = true := by decide +kernel
  obtain ⟨⟨c', stats⟩, h⟩ := toBool_iff.1 hok
  exact ⟨c', stats, h⟩

end IonSchedule
