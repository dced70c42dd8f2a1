import IonSchedule.Proofs.BuilderSteps

/-! # Calls that fail

An action that makes its checks before it changes anything leaves the builder as it was when it fails. All calls
are made of such actions but one: the end of a macro takes the frame of the macro off and checks the macro then,
so that a macro that is refused is lost with all that was appended to it. Nothing else is changed even then.
-/
namespace IonSchedule

namespace Builder

namespace Action

variable {α β : Type} {x : Action α} {f : α → Action β}

/-- A failure leaves the builder as it was. -/
def IsAtomic (x : Action α) : Prop := ∀ b e, (x.outcome b).2 = .error e → (x.outcome b).1 = b

/-- The builder is looked at and not changed. -/
def IsCheck (x : Action α) : Prop := ∀ b, (x.outcome b).1 = b

def NeverFails (x : Action α) : Prop := ∀ b e, (x.outcome b).2 ≠ .error e

theorem IsCheck.isAtomic (hx : x.IsCheck) : x.IsAtomic := fun b _ _ => hx b

theorem NeverFails.isAtomic (hx : x.NeverFails) : x.IsAtomic := fun b e h => absurd h (hx b e)

/-- Checks may come before what is atomic. -/
theorem IsCheck.isAtomic_bind (hx : x.IsCheck) (hf : ∀ a, (f a).IsAtomic) : (x >>= f).IsAtomic := by
  intro b e h
  have hsame := hx b
  cases hout : x.outcome b with
  | mk b' result =>
    rw [hout] at hsame
    subst hsame
    cases result with
    | error e' => rw [outcome_bind_of_error hout]
    | ok a =>
      rw [outcome_bind_of_ok hout] at h ⊢
      exact hf a b' e h

/-- What cannot fail may come behind what is atomic. -/
theorem IsAtomic.bind (hx : x.IsAtomic) (hf : ∀ a, (f a).NeverFails) : (x >>= f).IsAtomic := by
  intro b e h
  cases hout : x.outcome b with
  | mk b' result =>
    cases result with
    | error e' =>
      have hsame := hx b e' (by rw [hout])
      rw [hout] at hsame
      rw [outcome_bind_of_error hout]
      exact hsame
    | ok a =>
      rw [outcome_bind_of_ok hout] at h
      exact absurd h (hf a b' e)

theorem isCheck_get : IsCheck get := fun _ => rfl

theorem isCheck_pure (a : α) : IsCheck (pure a) := fun _ => rfl

theorem isCheck_throw (e : BuilderError) : IsCheck (throw e : Action α) := fun _ => rfl

theorem neverFails_pure (a : α) : NeverFails (pure a) := by
  intro b e h
  cases h

theorem neverFails_set (b : Builder) : NeverFails (set b) := by
  intro b e h
  cases h

theorem neverFails_modify (f : Builder → Builder) : NeverFails (modify f) := by
  intro b e h
  cases h

end Action

open Builder.Action

theorem isAtomic_declare (declaration : Circuit → Except CircuitError Circuit) :
    (declare declaration).IsAtomic := by
  apply isCheck_get.isAtomic_bind
  intro b
  cases declaration b.circuit with
  | error e => exact (isCheck_throw _).isAtomic
  | ok c => exact (neverFails_set _).isAtomic

theorem isAtomic_gate (name : String) (args : List Argument) : (gate name args).IsAtomic := by
  apply isCheck_get.isAtomic_bind
  intro b
  cases b.circuit.gate b.scope name args with
  | error e => exact (isCheck_throw _).isAtomic
  | ok g => exact (neverFails_set _).isAtomic

theorem isAtomic_gateUnlessLast (name : String) : (gateUnlessLast name).IsAtomic := by
  apply isCheck_get.isAtomic_bind
  intro b
  cases b.endsWith name with
  | true => exact (isCheck_pure ()).isAtomic
  | false => exact isAtomic_gate name []

theorem isAtomic_closeFrame (closing : Closing) : (closeFrame closing).IsAtomic := by
  intro b e h
  rcases outcome_closeFrame b closing with ⟨frame, rest, -, -, hclose⟩ | ⟨-, e', hclose⟩
  · rw [hclose] at h
    cases h
  · rw [hclose]

theorem isAtomic_endBlock : endBlock.IsAtomic := by
  apply (isAtomic_closeFrame _).bind
  intro frame
  cases frame.kind with
  | block kind => exact neverFails_modify _
  | loop count => exact neverFails_pure ()
  | macroBody name parameters => exact neverFails_pure ()

theorem isAtomic_barrier : barrier.IsAtomic := (isAtomic_closeFrame _).bind fun _ => neverFails_modify _

theorem isCheck_checkCount : checkCount.IsCheck := by
  intro b
  rcases outcome_checkCount b with ⟨hcheck, -⟩ | ⟨e, hcheck⟩
  · rw [hcheck]
  · rw [hcheck]

/-- The count of a loop is checked before the frame of the loop is taken off. -/
theorem isAtomic_endLoop : endLoop.IsAtomic := by
  apply isCheck_checkCount.isAtomic_bind
  intro _
  apply (isAtomic_closeFrame _).bind
  intro frame
  cases frame.kind with
  | block kind => exact neverFails_pure ()
  | loop count => exact neverFails_modify _
  | macroBody name parameters => exact neverFails_pure ()

theorem isAtomic_beginMacro (name : String) (parameters : List String) : (beginMacro name parameters).IsAtomic := by
  apply isCheck_get.isAtomic_bind
  intro b
  cases b.frames.isEmpty with
  | true => exact (neverFails_set _).isAtomic
  | false => exact (isCheck_throw _).isAtomic

theorem isAtomic_perform {call : Call} (h : call ≠ .endMacro) : (perform call).IsAtomic := by
  cases call with
  | register name size =>
    rw [perform]
    exact isAtomic_declare _
  | map name source selection =>
    rw [perform]
    exact isAtomic_declare _
  | constant name value =>
    rw [perform]
    exact isAtomic_declare _
  | gate name args => exact isAtomic_gate name args
  | gateUnlessLast name => exact isAtomic_gateUnlessLast name
  | beginBlock kind => exact (neverFails_modify _).isAtomic
  | endBlock => exact isAtomic_endBlock
  | barrier => exact isAtomic_barrier
  | beginLoop count => exact (neverFails_modify _).isAtomic
  | endLoop => exact isAtomic_endLoop
  | beginMacro name parameters => exact isAtomic_beginMacro name parameters
  | endMacro => exact absurd rfl h

variable {b : Builder}

/-- The frame that is open is a macro that the circuit does not accept as it is. -/
def RefusesMacro (b : Builder) (fault : CircuitError) : Prop :=
  ∃ name parameters ss, b.frames = [⟨.macroBody name parameters, ss⟩] ∧
    b.circuit.declareMacro name parameters (.sequential ss) = .error fault

theorem endMacro_of_error (hb : Nested b.frames) {e : BuilderError} (h : (endMacro.outcome b).2 = .error e) :
    (¬ ∃ fault, b.RefusesMacro fault) ∧ (endMacro.outcome b).1 = b ∨
      ∃ fault, b.RefusesMacro fault ∧ e = .circuit fault ∧ (endMacro.outcome b).1 = { b with frames := [] } := by
  unfold endMacro at h ⊢
  rcases outcome_closeFrame b .macroBody with ⟨⟨kind, ss⟩, rest, hframes, hfits, hclose⟩ | ⟨hnone, e', hclose⟩
  · cases kind with
    | block kind => simp [Closing.fits] at hfits
    | loop count => simp [Closing.fits] at hfits
    | macroBody name parameters =>
      rw [hframes] at hb
      obtain rfl : rest = [] := hb.1 name parameters rfl
      rw [outcome_bind_of_ok hclose] at h ⊢
      simp only [declare] at h ⊢
      rw [outcome_bind_of_ok rfl] at h ⊢
      cases hdeclare : b.circuit.declareMacro name parameters (.sequential ss) with
      | error fault =>
        simp only [hdeclare] at h ⊢
        exact .inr ⟨fault, ⟨name, parameters, ss, hframes, hdeclare⟩, (Except.error.inj h).symm, rfl⟩
      | ok c =>
        simp only [hdeclare] at h
        cases h
  · refine .inl ⟨?_, ?_⟩
    · rintro ⟨fault, name, parameters, ss, hframes, -⟩
      simpa [Closing.fits] using hnone _ _ hframes
    · rw [outcome_bind_of_error hclose]

/-- After any calls, a call that fails leaves the builder as it was, except for the end of a macro that is
refused: it leaves nothing open, so that what was appended to the macro is lost, and the circuit and its body
stay as they were. -/
theorem failed_call_keeps_builder {table : GateTable} {calls : List Call} (hb : (new table).runAll calls = b)
    {call : Call} {e : BuilderError} (h : (b.run call).2 = .error e) :
    ¬ (call = .endMacro ∧ ∃ fault, b.RefusesMacro fault) ∧ (b.run call).1 = b ∨
      call = .endMacro ∧ ∃ fault, b.RefusesMacro fault ∧ e = .circuit fault ∧
      (b.run call).1 = { b with frames := [] } := by
  by_cases hcall : call = .endMacro
  · subst hcall
    have hnested : Nested b.frames := hb ▸ nested_runAll table calls
    rcases endMacro_of_error hnested h with ⟨hnone, hsame⟩ | hrefused
    · exact .inl ⟨fun hmacro => hnone hmacro.2, hsame⟩
    · exact .inr ⟨rfl, hrefused⟩
  · exact .inl ⟨fun hmacro => hcall hmacro.1, isAtomic_perform hcall b e h⟩

end Builder

namespace Sample

/-- A loop inside a block of a macro, with a count that is neither a constant nor a parameter of the macro. -/
def unknownCount : List Builder.Call :=
  [.register "q" 2, .beginMacro "echo" ["a"], .beginBlock .unscheduled, .gate "Px" [.ref "a"],
    .beginLoop (.symbol "turns"), .gate "Py" [.qubit ⟨"q", 1⟩]]

/-- A macro under the name of a register. -/
def takenName : List Builder.Call := [.register "q" 1, .beginMacro "q" [], .gate "Px" [.qubit ⟨"q", 0⟩]]

end Sample

namespace Builder

theorem failed_call_keeps_builder_unknownCount :
    ∃ b, (new .qscout).runAll Sample.unknownCount = b ∧ b.frames.length = 3 ∧ b.current.length = 1 ∧
      (b.run .endLoop).2 = .error (.circuit (.unresolvedReference "turns")) ∧ (b.run .endLoop).1 = b := by
  have hfails : (((new .qscout).runAll Sample.unknownCount).run .endLoop).2 =
      .error (.circuit (.unresolvedReference "turns")) := by decide +kernel
  refine ⟨_, rfl, by decide +kernel, by decide +kernel, hfails, ?_⟩
  rcases failed_call_keeps_builder rfl hfails with ⟨-, hsame⟩ | ⟨hcall, -⟩
  · exact hsame
  · cases hcall

/-- The end of a macro whose name is taken fails and takes the frame of the macro off all the same. -/
theorem endMacro_loses_refused_macro :
    ∃ b, (new .qscout).runAll Sample.takenName = b ∧ b.frames.length = 1 ∧ b.current.length = 1 ∧
      (b.run .endMacro).2 = .error (.circuit (.duplicateName "q")) ∧ (b.run .endMacro).1.frames.length = 0 ∧
      (b.run .endMacro).1 ≠ b := by
  have hopen : ((new .qscout).runAll Sample.takenName).frames.length = 1 := by decide +kernel
  have hclosed : (((new .qscout).runAll Sample.takenName).run .endMacro).1.frames.length = 0 := by decide +kernel
  refine ⟨_, rfl, hopen, by decide +kernel, by decide +kernel, hclosed, ?_⟩
  intro hsame
  rw [hsame, hopen] at hclosed
  cases hclosed

end Builder

end IonSchedule
