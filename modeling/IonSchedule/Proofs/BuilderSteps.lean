import IonSchedule.Proofs.Declarations
import IonSchedule.Builder

/-! # What a call does to a builder

A call adds a declaration or a gate, opens a frame, or takes the innermost one off. Only the end of a macro can
fail and still change the builder. A macro is opened when nothing else is open, so its frame is always the
outermost one.
-/
namespace IonSchedule

namespace Builder

variable {b b' : Builder}

/-- The effect of a call, with its result. -/
inductive Step (b : Builder) : Builder → Except BuilderError Unit → Prop
  | none (result : Except BuilderError Unit) : Step b b result
  | declare {c : Circuit} (h : b.circuit.Declares c) : Step b { b with circuit := c } (.ok ())
  | gate (g : GateCall) (h : b.circuit.AcceptsCall b.scope g) : Step b (b.append (.gate g)) (.ok ())
  | beginBlock (kind : BlockKind) : Step b (b.openFrame (.block kind)) (.ok ())
  | beginLoop (count : LoopCount) : Step b (b.openFrame (.loop count)) (.ok ())
  | beginMacro {name : String} {parameters : List String} (h : b.frames = []) :
      Step b (b.openFrame (.macroBody name parameters)) (.ok ())
  | endBlock {kind : BlockKind} {ss : List Statement} {rest : List Frame}
      (h : b.frames = ⟨.block kind, ss⟩ :: rest) :
      Step b (append { b with frames := rest } (.block kind ss)) (.ok ())
  | endLoop {count : LoopCount} {ss : List Statement} {rest : List Frame} (h : b.frames = ⟨.loop count, ss⟩ :: rest)
      (hcount : b.circuit.checkCount (scopeOf rest) count = .ok ()) :
      Step b (append { b with frames := rest } (.loop count .sequential ss)) (.ok ())
  | barrier {ss : List Statement} {rest : List Frame} (h : b.frames = ⟨.block .unscheduled, ss⟩ :: rest)
      (hne : ss ≠ []) :
      Step b (openFrame (append { b with frames := rest } (.block .unscheduled ss)) (.block .unscheduled)) (.ok ())
  | endMacro {name : String} {parameters : List String} {ss : List Statement} {rest : List Frame} {c : Circuit}
      (h : b.frames = ⟨.macroBody name parameters, ss⟩ :: rest)
      (hdeclare : b.circuit.declareMacro name parameters (.sequential ss) = .ok c) :
      Step b { b with frames := rest, circuit := c } (.ok ())
  | refuseMacro {name : String} {parameters : List String} {ss : List Statement} {rest : List Frame}
      (h : b.frames = ⟨.macroBody name parameters, ss⟩ :: rest) (fault : BuilderError) :
      Step b { b with frames := rest } (.error fault)

section Outcome

variable {α β : Type} {x : Action α} {f : α → Action β} {e : BuilderError}

theorem outcome_bind_of_ok {a : α} (h : x.outcome b = (b', .ok a)) : (x >>= f).outcome b = (f a).outcome b' := by
  simp only [Action.outcome, EStateM.run, bind, EStateM.bind] at h ⊢
  cases hx : x b with
  | ok a' after =>
    rw [hx] at h
    cases h
    rfl
  | error e after =>
    rw [hx] at h
    cases h

theorem outcome_bind_of_error (h : x.outcome b = (b', .error e)) : (x >>= f).outcome b = (b', .error e) := by
  simp only [Action.outcome, EStateM.run, bind, EStateM.bind] at h ⊢
  cases hx : x b with
  | ok a after =>
    rw [hx] at h
    cases h
  | error e' after =>
    rw [hx] at h
    cases h
    rfl

end Outcome

/-- The innermost frame is taken off if it fits, and else nothing is changed. -/
theorem outcome_closeFrame (b : Builder) (closing : Closing) :
    (∃ frame rest, b.frames = frame :: rest ∧ closing.fits frame.kind = true ∧
      (closeFrame closing).outcome b = ({ b with frames := rest }, .ok frame)) ∨
    (∀ frame rest, b.frames = frame :: rest → closing.fits frame.kind = false) ∧
      ∃ e, (closeFrame closing).outcome b = (b, .error e) := by
  unfold closeFrame
  rw [outcome_bind_of_ok rfl]
  cases hframes : b.frames with
  | nil => exact .inr ⟨by simp, _, rfl⟩
  | cons frame rest =>
    cases hfits : closing.fits frame.kind with
    | true => exact .inl ⟨frame, rest, rfl, hfits, by simp only [hfits]; rfl⟩
    | false => exact .inr ⟨by simp [hfits], _, by simp only [hfits]; rfl⟩

/-- What is done to a frame that was taken off decides what the whole action does. -/
theorem step_closeFrame {closing : Closing} {f : Frame → Action Unit}
    (h : ∀ frame rest, b.frames = frame :: rest → closing.fits frame.kind = true →
      Step b ((f frame).outcome { b with frames := rest }).1 ((f frame).outcome { b with frames := rest }).2) :
    Step b ((closeFrame closing >>= f).outcome b).1 ((closeFrame closing >>= f).outcome b).2 := by
  rcases outcome_closeFrame b closing with ⟨frame, rest, hframes, hfits, hclose⟩ | ⟨-, e, hclose⟩
  · rw [outcome_bind_of_ok hclose]
    exact h frame rest hframes hfits
  · rw [outcome_bind_of_error hclose]
    exact .none _

theorem step_declare {declaration : Circuit → Except CircuitError Circuit}
    (h : ∀ c, declaration b.circuit = .ok c → b.circuit.Declares c) :
    Step b ((declare declaration).outcome b).1 ((declare declaration).outcome b).2 := by
  unfold Builder.declare
  rw [outcome_bind_of_ok rfl]
  cases hc : declaration b.circuit with
  | error e => exact .none _
  | ok c => exact .declare (h c hc)

theorem step_gate (b : Builder) (name : String) (args : List Argument) :
    Step b ((gate name args).outcome b).1 ((gate name args).outcome b).2 := by
  unfold gate
  rw [outcome_bind_of_ok rfl]
  cases hg : b.circuit.gate b.scope name args with
  | error e => exact .none _
  | ok g => exact .gate g (Circuit.acceptsCall_of_gate hg)

theorem step_endBlock (b : Builder) : Step b (endBlock.outcome b).1 (endBlock.outcome b).2 := by
  refine step_closeFrame fun frame rest hframes hfits => ?_
  obtain ⟨kind, ss⟩ := frame
  cases kind with
  | block kind => exact .endBlock hframes
  | loop count => simp [Closing.fits] at hfits
  | macroBody name parameters => simp [Closing.fits] at hfits

/-- The check of a loop that is about to end is that of its count outside of it. -/
theorem outcome_checkCount (b : Builder) :
    (checkCount.outcome b = (b, .ok ()) ∧ ∀ count ss rest, b.frames = ⟨.loop count, ss⟩ :: rest →
      b.circuit.checkCount (scopeOf rest) count = .ok ()) ∨
    ∃ e, checkCount.outcome b = (b, .error e) := by
  unfold checkCount
  rw [outcome_bind_of_ok rfl]
  split
  · rename_i name ss rest hframes
    split
    · rename_i hknown
      refine .inl ⟨rfl, fun count ss' rest' h => ?_⟩
      rw [hframes] at h
      cases h
      exact if_pos hknown
    · exact .inr ⟨_, rfl⟩
  · rename_i hsymbol
    refine .inl ⟨rfl, fun count ss rest hframes => ?_⟩
    cases count with
    | fixed n => rfl
    | symbol name => exact absurd hframes (hsymbol name ss rest)

theorem step_endLoop (b : Builder) : Step b (endLoop.outcome b).1 (endLoop.outcome b).2 := by
  unfold Builder.endLoop
  rcases outcome_checkCount b with ⟨hcheck, hcount⟩ | ⟨e, hcheck⟩
  · rw [outcome_bind_of_ok hcheck]
    refine step_closeFrame fun frame rest hframes hfits => ?_
    obtain ⟨kind, ss⟩ := frame
    cases kind with
    | block kind => simp [Closing.fits] at hfits
    | loop count => exact .endLoop hframes (hcount count ss rest hframes)
    | macroBody name parameters => simp [Closing.fits] at hfits
  · rw [outcome_bind_of_error hcheck]
    exact .none _

/-- A barrier closes an unscheduled block and opens another one. An empty block stays as it is. -/
theorem outcome_barrier (b : Builder) :
    (∃ ss rest, b.frames = ⟨.block .unscheduled, ss⟩ :: rest ∧
      barrier.outcome b = (if ss = [] then b
        else openFrame (append { b with frames := rest } (.block .unscheduled ss)) (.block .unscheduled), .ok ())) ∨
    ∃ e, barrier.outcome b = (b, .error e) := by
  unfold Builder.barrier
  rcases outcome_closeFrame b .unscheduledBlock with ⟨⟨kind, ss⟩, rest, hframes, hfits, hclose⟩ | ⟨-, e, hclose⟩
  · obtain rfl : kind = .block .unscheduled := by
      cases kind with
      | block kind => cases kind <;> simp_all [Closing.fits]
      | loop count => simp [Closing.fits] at hfits
      | macroBody name parameters => simp [Closing.fits] at hfits
    refine .inl ⟨ss, rest, hframes, ?_⟩
    rw [outcome_bind_of_ok hclose]
    cases ss with
    | nil =>
      obtain ⟨circuit, body, frames⟩ := b
      subst hframes
      rfl
    | cons s ss => rfl
  · exact .inr ⟨e, outcome_bind_of_error hclose⟩

theorem exists_frame_of_barrier (h : b.run .barrier = (b', .ok ())) :
    ∃ ss rest, b.frames = ⟨.block .unscheduled, ss⟩ :: rest ∧
      b' = if ss = [] then b
        else openFrame (append { b with frames := rest } (.block .unscheduled ss)) (.block .unscheduled) := by
  replace h : barrier.outcome b = (b', .ok ()) := h
  rcases outcome_barrier b with ⟨ss, rest, hframes, hbarrier⟩ | ⟨e, hbarrier⟩
  · rw [hbarrier, Prod.mk.injEq] at h
    exact ⟨ss, rest, hframes, h.1.symm⟩
  · rw [hbarrier] at h
    cases h

theorem step_barrier (b : Builder) : Step b (barrier.outcome b).1 (barrier.outcome b).2 := by
  rcases outcome_barrier b with ⟨ss, rest, hframes, hbarrier⟩ | ⟨e, hbarrier⟩
  · rw [hbarrier]
    by_cases hne : ss = []
    · simp only [hne, if_true]
      exact .none _
    · simp only [hne, if_false]
      exact .barrier hframes hne
  · rw [hbarrier]
    exact .none _

theorem step_beginMacro (b : Builder) (name : String) (parameters : List String) :
    Step b ((beginMacro name parameters).outcome b).1 ((beginMacro name parameters).outcome b).2 := by
  unfold Builder.beginMacro
  rw [outcome_bind_of_ok rfl]
  split
  · rename_i hempty
    exact .beginMacro (List.isEmpty_iff.1 hempty)
  · exact .none _

theorem step_endMacro (b : Builder) : Step b (endMacro.outcome b).1 (endMacro.outcome b).2 := by
  refine step_closeFrame fun frame rest hframes hfits => ?_
  obtain ⟨kind, ss⟩ := frame
  cases kind with
  | block kind => simp [Closing.fits] at hfits
  | loop count => simp [Closing.fits] at hfits
  | macroBody name parameters =>
    simp only [Builder.declare]
    rw [outcome_bind_of_ok rfl]
    cases hdeclare : b.circuit.declareMacro name parameters (.sequential ss) with
    | error e => exact .refuseMacro hframes _
    | ok c => exact .endMacro hframes hdeclare

/-- Every call is one of the steps. -/
theorem step_run (b : Builder) (call : Call) : Step b (b.run call).1 (b.run call).2 := by
  cases call with
  | register name size =>
    rw [run, perform]
    exact step_declare fun c hc => .register hc
  | map name source selection =>
    rw [run, perform]
    exact step_declare fun c hc => .map hc
  | constant name value =>
    rw [run, perform]
    exact step_declare fun c hc => .constant hc
  | gate name args => exact step_gate b name args
  | gateUnlessLast name =>
    rw [run, perform, gateUnlessLast, outcome_bind_of_ok rfl]
    split
    · exact .none _
    · exact step_gate b name []
  | beginBlock kind => exact .beginBlock kind
  | endBlock => exact step_endBlock b
  | barrier => exact step_barrier b
  | beginLoop count => exact .beginLoop count
  | endLoop => exact step_endLoop b
  | beginMacro name parameters => exact step_beginMacro b name parameters
  | endMacro => exact step_endMacro b

theorem build_eq_ok_iff {c : Circuit} :
    b.build = .ok c ↔ b.frames = [] ∧ { b.circuit with body := .sequential b.body } = c := by
  unfold build
  cases b.frames with
  | nil => simp
  | cons frame rest => simp

@[simp] theorem runAll_nil (b : Builder) : b.runAll [] = b := rfl

theorem runAll_append (b : Builder) (calls more : List Call) :
    b.runAll (calls ++ more) = (b.runAll calls).runAll more :=
  List.foldl_append

/-- What every step keeps holds after a run. -/
theorem runAll_induction {P : Builder → Prop} (step : ∀ {b b' result}, Step b b' result → P b → P b')
    (calls : List Call) (hb : P b) : P (b.runAll calls) := by
  induction calls generalizing b with
  | nil => exact hb
  | cons call calls ih => exact ih (step (step_run b call) hb)

/-- Nothing is open around a macro. -/
def Nested : List Frame → Prop
  | [] => True
  | frame :: rest => (∀ name parameters, frame.kind = .macroBody name parameters → rest = []) ∧ Nested rest

theorem nested_append (h : Nested b.frames) (s : Statement) : Nested (b.append s).frames := by
  unfold append
  split
  · exact h
  · rename_i frame rest hframes
    rw [hframes] at h
    exact h

theorem Step.nested {result : Except BuilderError Unit} (h : Step b b' result) (hb : Nested b.frames) :
    Nested b'.frames := by
  cases h with
  | none => exact hb
  | declare => exact hb
  | gate g => exact nested_append hb _
  | beginBlock kind => exact ⟨by simp, hb⟩
  | beginLoop count => exact ⟨by simp, hb⟩
  | beginMacro hempty => exact ⟨fun _ _ _ => hempty, hb⟩
  | endBlock hframes =>
    rw [hframes] at hb
    exact nested_append hb.2 _
  | endLoop hframes =>
    rw [hframes] at hb
    exact nested_append hb.2 _
  | barrier hframes hne =>
    rw [hframes] at hb
    exact ⟨by simp, nested_append hb.2 _⟩
  | endMacro hframes hdeclare =>
    rw [hframes] at hb
    exact hb.2
  | refuseMacro hframes fault =>
    rw [hframes] at hb
    exact hb.2

theorem nested_runAll (table : GateTable) (calls : List Call) : Nested ((new table).runAll calls).frames :=
  runAll_induction (P := fun b => Nested b.frames) Step.nested calls trivial

end Builder

end IonSchedule
