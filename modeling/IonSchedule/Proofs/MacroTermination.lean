import IonSchedule.Proofs.Expansion

/-! # Writing out one macro call after another

A macro call at any depth is replaced by the statements of the macro, with the parameters bound to the
arguments. Each macro calls only macros declared before it, so that every call has a weight: one for itself, and
the weights of the calls in the body of the macro. To replace a call lowers the weight of what it stands in by
one. Writing out therefore comes to an end, whichever call is taken first.
-/
namespace IonSchedule

/-- The sum over all calls; the body of a loop counts once. -/
def Reading.total (f : GateCall → Nat) : Reading Nat where
  gate := f
  loop _ body := body

theorem MacrosClosed.known {ms : List (String × Macro)} (h : MacrosClosed ms) {e : String × Macro} (he : e ∈ ms) :
    ∀ g ∈ Reading.calls.readAll e.2.body.statements, g.Known ms := by
  induction ms with
  | nil => cases he
  | cons first earlier ih =>
    intro g hg
    have hearlier : g.Known earlier := by
      rcases List.mem_cons.1 he with rfl | he
      · exact h.1 g hg
      · exact ih h.2 he g hg
    exact hearlier.imp_right (List.mem_cons_of_mem first.1)

namespace GateCall

variable {ms earlier : List (String × Macro)} {m : Macro} {g : GateCall} {key : String}

/-- How many calls are replaced until none of the macros is called; of the macros, the last declared comes first. -/
def weight : List (String × Macro) → GateCall → Nat
  | [], _ => 0
  | (key, m) :: earlier, g =>
    if g.kind = .composite ∧ g.name = key then (Reading.total (weight earlier)).readAll m.body.statements + 1
    else weight earlier g

theorem weight_bind (ms : List (String × Macro)) (σ : Binding) (g : GateCall) :
    (g.bind σ).weight ms = g.weight ms := by
  induction ms with
  | nil => rfl
  | cons e earlier ih =>
    rw [weight, weight, ih]
    rfl

theorem weight_cons_of_known (hkey : key ∉ earlier.map Prod.fst) (hg : g.Known earlier) :
    g.weight ((key, m) :: earlier) = g.weight earlier := by
  rw [weight, if_neg]
  rintro ⟨hkind, rfl⟩
  rcases hg with hnative | hname
  · exact isNative_iff.1 hnative hkind
  · exact hkey hname

/-- A macro call weighs one more than the body of the macro. -/
theorem weight_of_mem (hms : MacrosClosed ms) (hkeys : (ms.map Prod.fst).Nodup) (hg : g.kind = .composite)
    (hm : (g.name, m) ∈ ms) : g.weight ms = (Reading.total (weight ms)).readAll m.body.statements + 1 := by
  induction ms with
  | nil => cases hm
  | cons e earlier ih =>
    obtain ⟨key, first⟩ := e
    obtain ⟨hbody, hearlier⟩ := hms
    obtain ⟨hkey, hkeys⟩ := List.nodup_cons.1 hkeys
    -- a macro is not called in the bodies of those before it, so they weigh the same without it
    have hsame : ∀ ss, (∀ g ∈ Reading.calls.readAll ss, g.Known earlier) →
        (Reading.total (weight ((key, first) :: earlier))).readAll ss =
          (Reading.total (weight earlier)).readAll ss := by
      intro ss hss
      apply Reading.readAll_congr
      · rfl
      · intro g hg
        exact weight_cons_of_known hkey (hss g hg)
    rcases List.mem_cons.1 hm with heq | hm
    · cases heq
      rw [hsame _ hbody, weight, if_pos ⟨hg, rfl⟩]
    · have hknown : g.Known earlier := .inr (List.mem_map_of_mem hm)
      rw [hsame _ (hearlier.known hm), weight_cons_of_known hkey hknown, ih hearlier hkeys hm]

end GateCall

namespace Circuit

variable {c : Circuit} {s s' : Statement}

/-- One macro call is replaced by the statements of the macro. -/
inductive WritesOut (c : Circuit) : Statement → Statement → Prop
  | call {g : GateCall} {m : Macro} (hg : g.kind = .composite) (hm : c.macros.get? g.name = some m) :
      WritesOut c (.gate g)
        (.block m.body.kind (Statement.instantiateAll .gate (m.parameters.zip g.args) m.body.statements))
  | block {kind : BlockKind} {pre post : List Statement} {s s' : Statement} (h : WritesOut c s s') :
      WritesOut c (.block kind (pre ++ s :: post)) (.block kind (pre ++ s' :: post))
  | loop {count : LoopCount} {kind : BlockKind} {pre post : List Statement} {s s' : Statement}
      (h : WritesOut c s s') :
      WritesOut c (.loop count kind (pre ++ s :: post)) (.loop count kind (pre ++ s' :: post))

/-- How many macro calls are replaced until none is left. -/
def weight (c : Circuit) : Reading Nat := .total (GateCall.weight c.macroStack)

theorem WritesOut.weight_eq (hc : MacrosClosed c.macroStack) (h : c.WritesOut s s') :
    c.weight.read s = c.weight.read s' + 1 := by
  have hlist : ∀ pre post s s', c.weight.read s = c.weight.read s' + 1 →
      c.weight.readAll (pre ++ s :: post) = c.weight.readAll (pre ++ s' :: post) + 1 := by
    intro pre post s s' hs
    simp only [Reading.readAll_append, Reading.readAll_cons]
    omega
  induction h with
  | @call g m hg hm =>
    have hkeys : (c.macroStack.map Prod.fst).Nodup := by
      rw [macroStack, List.map_reverse, List.nodup_reverse]
      exact c.macros.distinct
    have hitem : (g.name, m) ∈ c.macroStack := List.mem_reverse.2 (Table.get?_eq_some_iff.1 hm)
    have hbody : (c.weight.through .gate (m.parameters.zip g.args)).readAll m.body.statements =
        c.weight.readAll m.body.statements := by
      apply Reading.readAll_congr
      · rfl
      · intro h _
        exact (Reading.read_gate _ _).trans (GateCall.weight_bind c.macroStack _ h)
    rw [Reading.read_gate, Reading.read_block, Reading.readAll_instantiate, hbody]
    exact GateCall.weight_of_mem hc hkeys hg hitem
  | block h ih =>
    rw [Reading.read_block, Reading.read_block]
    exact hlist _ _ _ _ ih
  | loop h ih =>
    rw [Reading.read_loop, Reading.read_loop]
    exact hlist _ _ _ _ ih

/-- No statement can be written out without end. -/
theorem wellFounded_writesOut (hc : MacrosClosed c.macroStack) : WellFounded fun s' s => c.WritesOut s s' := by
  apply Subrelation.wf _ (measure c.weight.read).wf
  intro s' s h
  have hweight := h.weight_eq hc
  exact Nat.lt_of_succ_le hweight.ge

end Circuit

end IonSchedule
