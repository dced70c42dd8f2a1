import IonSchedule.Proofs.BuilderSteps

/-! # Writing statements down as calls

A list of statements is written down call by call: a gate for each gate call, and the beginning and the end of
each block and loop around the calls of what is in it. A builder checks a gate when it is appended and a count
when its loop ends, and validation checks the same of finished statements. Main statement: after any calls,
statements that validation accepts where the builder stands can be written down there. No call fails, and the
innermost frame is longer by these statements.

A loop is closed as one over a sequential block, so statements with other loops are left out.
-/
namespace IonSchedule

namespace Statement

mutual

/-- Whether the body of every loop at any depth is sequential. -/
def hasSequentialLoops : Statement → Bool
  | .gate _ => true
  | .block _ statements => haveSequentialLoops statements
  | .loop _ kind body => kind = .sequential && haveSequentialLoops body

def haveSequentialLoops : List Statement → Bool
  | [] => true
  | s :: rest => hasSequentialLoops s && haveSequentialLoops rest

end

mutual

/-- The calls that write a statement down. -/
def replay : Statement → List Builder.Call
  | .gate g => [.gate g.name g.args]
  | .block kind statements => .beginBlock kind :: (replayAll statements ++ [.endBlock])
  | .loop count _ body => .beginLoop count :: (replayAll body ++ [.endLoop])

def replayAll : List Statement → List Builder.Call
  | [] => []
  | s :: rest => replay s ++ replayAll rest

end

end Statement

/-- The parameters that a frame brings into scope. -/
def Frame.parameters (frame : Frame) : List String :=
  match frame.kind with
  | .macroBody _ parameters => parameters
  | _ => []

/-- Building a call gives back the call that validation accepts. -/
theorem Circuit.AcceptsCall.gate_eq {c : Circuit} {scope : List String} {g : GateCall} (h : c.AcceptsCall scope g) :
    c.gate scope g.name g.args = .ok g := by
  have hcall : c.checkCall scope g.name g.args = .ok g.kind := h
  obtain ⟨name, kind, args⟩ := g
  rcases checkCall_eq_ok_iff.1 hcall with ⟨d, hfound, -, -, rfl⟩ | ⟨-, m, -, -, -, rfl⟩
  · -- native gates are listed under their own names
    obtain rfl : d.name = name := Catalog.name_of_find? hfound
    rw [gate, hcall]
    rfl
  · rw [gate, hcall]
    rfl

namespace Builder

variable {b b₁ b₂ : Builder} {call : Call} {calls more : List Call} {s : Statement} {ss ts : List Statement}

/-- Adds statements to the innermost frame, or to the body if nothing is open. -/
def extend (b : Builder) (ss : List Statement) : Builder :=
  match b.frames with
  | [] => { b with body := b.body ++ ss }
  | frame :: rest => { b with frames := { frame with statements := frame.statements ++ ss } :: rest }

theorem extend_nil (b : Builder) : b.extend [] = b := by
  obtain ⟨circuit, body, frames⟩ := b
  cases frames with
  | nil => simp [extend]
  | cons frame rest => simp [extend]

theorem extend_extend (b : Builder) (ss ts : List Statement) : (b.extend ss).extend ts = b.extend (ss ++ ts) := by
  obtain ⟨circuit, body, frames⟩ := b
  cases frames with
  | nil => simp [extend]
  | cons frame rest => simp [extend]

theorem circuit_extend (b : Builder) (ss : List Statement) : (b.extend ss).circuit = b.circuit := by
  unfold extend
  split <;> rfl

theorem scope_extend (b : Builder) (ss : List Statement) : (b.extend ss).scope = b.scope := by
  obtain ⟨circuit, body, frames⟩ := b
  cases frames with
  | nil => rfl
  | cons frame rest =>
    obtain ⟨kind, statements⟩ := frame
    cases kind <;> rfl

/-- The scope is that of the macro that is open, if one is. -/
theorem scope_eq_parameters (h : Nested b.frames) : b.scope = b.frames.flatMap Frame.parameters := by
  unfold scope
  induction hframes : b.frames generalizing b with
  | nil => rfl
  | cons frame rest ih =>
    rw [hframes] at h
    obtain ⟨kind, statements⟩ := frame
    have hrest : scopeOf rest = rest.flatMap Frame.parameters := ih (b := { b with frames := rest }) h.2 rfl
    cases kind with
    | block kind => exact hrest
    | loop count => exact hrest
    | macroBody name parameters =>
      -- a macro is opened when nothing else is open
      obtain rfl : rest = [] := h.1 name parameters rfl
      simp [scopeOf, Frame.parameters]

/-- Calls that all succeed, one after another. -/
inductive Runs : Builder → List Call → Builder → Prop
  | nil (b : Builder) : Runs b [] b
  | cons {b b₁ b₂ : Builder} {call : Call} {calls : List Call} (first : b.run call = (b₁, .ok ()))
      (others : Runs b₁ calls b₂) : Runs b (call :: calls) b₂

theorem Runs.single (h : b.run call = (b₁, .ok ())) : Runs b [call] b₁ := .cons h (.nil b₁)

theorem Runs.append (h : Runs b calls b₁) (h' : Runs b₁ more b₂) : Runs b (calls ++ more) b₂ := by
  induction h with
  | nil b => exact h'
  | cons first others ih => exact .cons first (ih h')

theorem Runs.runAll_eq (h : Runs b calls b₁) : b.runAll calls = b₁ := by
  induction h with
  | nil b => rfl
  | @cons b b₁ b₂ call calls first others ih =>
    change (b.run call).1.runAll calls = b₂
    rw [first]
    exact ih

theorem Runs.run_eq_ok {earlier later : List Call} (h : Runs b (earlier ++ call :: later) b₁) :
    ((b.runAll earlier).run call).2 = .ok () := by
  induction earlier generalizing b with
  | nil =>
    cases h with
    | cons first others => exact congrArg Prod.snd first
  | cons before earlier ih =>
    cases h with
    | @cons _ b' _ _ _ first others =>
      change (((b.run before).1.runAll earlier).run call).2 = .ok ()
      rw [first]
      exact ih others

theorem run_gate {g : GateCall} (h : b.circuit.AcceptsCall b.scope g) :
    b.run (.gate g.name g.args) = (b.extend [.gate g], .ok ()) := by
  rw [run, perform, gate, outcome_bind_of_ok rfl, h.gate_eq]
  rfl

theorem run_endBlock {kind : BlockKind} {rest : List Frame} (h : b.frames = ⟨.block kind, ss⟩ :: rest) :
    b.run .endBlock = (extend { b with frames := rest } [.block kind ss], .ok ()) := by
  obtain ⟨circuit, body, frames⟩ := b
  subst h
  rfl

theorem outcome_checkCount_of_ok {count : LoopCount} {rest : List Frame} (h : b.frames = ⟨.loop count, ss⟩ :: rest)
    (hcount : b.circuit.checkCount (scopeOf rest) count = .ok ()) : checkCount.outcome b = (b, .ok ()) := by
  obtain ⟨circuit, body, frames⟩ := b
  subst h
  cases count with
  | fixed count => rfl
  | symbol name =>
    have hknown : (circuit.constants.contains name || (scopeOf rest).contains name) = true := by
      by_contra hunknown
      rw [Circuit.checkCount, Circuit.checkReference, if_neg hunknown] at hcount
      cases hcount
    rw [checkCount, outcome_bind_of_ok rfl]
    simp only [hknown, if_true]
    rfl

theorem run_endLoop {count : LoopCount} {rest : List Frame} (h : b.frames = ⟨.loop count, ss⟩ :: rest)
    (hcount : b.circuit.checkCount (scopeOf rest) count = .ok ()) :
    b.run .endLoop = (extend { b with frames := rest } [.loop count .sequential ss], .ok ()) := by
  rw [run, perform, endLoop, outcome_bind_of_ok (outcome_checkCount_of_ok h hcount)]
  obtain ⟨circuit, body, frames⟩ := b
  subst h
  rfl

/-- If each of some statements can be written down, so can all of them. -/
theorem runs_replayAll (hss : ∀ s ∈ ss, ∀ b : Builder, b.circuit.checkStatement b.scope s = .ok () →
      s.hasSequentialLoops = true → Runs b s.replay (b.extend [s]))
    (hcheck : b.circuit.checkStatements b.scope ss = .ok ()) (hloops : Statement.haveSequentialLoops ss = true) :
    Runs b (Statement.replayAll ss) (b.extend ss) := by
  induction ss generalizing b with
  | nil =>
    rw [extend_nil, Statement.replayAll]
    exact .nil b
  | cons s rest ih =>
    rw [List.forall_mem_cons] at hss
    rw [Circuit.checkStatements, check_eq_ok_iff] at hcheck
    rw [Statement.haveSequentialLoops, Bool.and_eq_true] at hloops
    have hfirst : Runs b s.replay (b.extend [s]) := hss.1 b hcheck.1 hloops.1
    have hothers : Runs (b.extend [s]) (Statement.replayAll rest) ((b.extend [s]).extend rest) := by
      refine ih hss.2 ?_ hloops.2
      rw [circuit_extend, scope_extend]
      exact hcheck.2
    rw [Statement.replayAll, ← List.singleton_append, ← extend_extend]
    exact hfirst.append hothers

/-- A statement that is accepted where the builder stands can be written down there. The frame of a block or
loop is opened on top of those that are open, is filled with the statements of the block or loop, and leaves one
statement when it is closed. Neither the frame nor what is in it changes the scope. -/
theorem runs_replay (s : Statement) : ∀ b : Builder, b.circuit.checkStatement b.scope s = .ok () →
    s.hasSequentialLoops = true → Runs b s.replay (b.extend [s]) := by
  induction s using Statement.induction with
  | gate g =>
    intro b hcheck _
    rw [Statement.replay]
    exact .single (run_gate (Circuit.checkStatement_gate_iff.1 hcheck))
  | block kind ss ih =>
    intro b hcheck hloops
    rw [Circuit.checkStatement] at hcheck
    rw [Statement.hasSequentialLoops] at hloops
    have hinner : Runs (b.openFrame (.block kind)) (Statement.replayAll ss)
        ((b.openFrame (.block kind)).extend ss) :=
      runs_replayAll ih hcheck hloops
    rw [Statement.replay]
    exact .cons rfl (hinner.append (.single (run_endBlock rfl)))
  | loop count kind body ih =>
    intro b hcheck hloops
    rw [Circuit.checkStatement_loop_iff] at hcheck
    simp only [Statement.hasSequentialLoops, Bool.and_eq_true, decide_eq_true_eq] at hloops
    obtain ⟨rfl, hloops⟩ := hloops
    have hinner : Runs (b.openFrame (.loop count)) (Statement.replayAll body)
        ((b.openFrame (.loop count)).extend body) :=
      runs_replayAll ih hcheck.2 hloops
    rw [Statement.replay]
    exact .cons rfl (hinner.append (.single (run_endLoop rfl hcheck.1)))

/-- After any calls, statements that validation accepts against the circuit so far, with the parameters of the
open macro in scope, can be written down: every call succeeds, the innermost frame is longer by these statements
and all else is as it was. If nothing is open, the circuit that is built then ends with them. -/
theorem replay_extends {table : GateTable} {calls : List Call} (hb : (new table).runAll calls = b)
    (hloops : Statement.haveSequentialLoops ss = true)
    (hvalid : b.circuit.checkStatements (b.frames.flatMap Frame.parameters) ss = .ok ()) :
    (∀ earlier call later, Statement.replayAll ss = earlier ++ call :: later →
      ((b.runAll earlier).run call).2 = .ok ()) ∧
    b.runAll (Statement.replayAll ss) = b.extend ss ∧
    (b.frames = [] → (b.runAll (Statement.replayAll ss)).build =
      .ok { b.circuit with body := .sequential (b.body ++ ss) }) := by
  have hnested : Nested b.frames := hb ▸ nested_runAll table calls
  rw [← scope_eq_parameters hnested] at hvalid
  have hruns : Runs b (Statement.replayAll ss) (b.extend ss) :=
    runs_replayAll (fun s _ => runs_replay s) hvalid hloops
  refine ⟨fun earlier call later hsplit => ?_, hruns.runAll_eq, fun hframes => ?_⟩
  · rw [hsplit] at hruns
    exact hruns.run_eq_ok
  · rw [hruns.runAll_eq, build_eq_ok_iff]
    simp [extend, hframes]

end Builder

namespace Sample

/-- A macro is open, in it a block, and in this a loop that already holds a gate. -/
def openMacro : List Builder.Call :=
  [.register "q" 2, .constant "turns" (.zero false), .beginMacro "echo" ["a", "n"], .beginBlock .unscheduled,
    .beginLoop (.fixed 2), .gate "Px" [.ref "a"]]

/-- Blocks of all kinds and loops in each other, over parameters of the macro, a constant and a register. -/
def nestedLoops : List Statement :=
  [px (.ref "a"),
    .loop (.symbol "n") .sequential
      [.block .parallel [px (.ref "a"), px (onQ 1)], .loop (.symbol "turns") .sequential []],
    .block .unscheduled [sxx (.ref "a") (onQ 0), .block .sequential []]]

end Sample

namespace Builder

theorem replay_extends_openMacro :
    ∃ b, (new .qscout).runAll Sample.openMacro = b ∧ b.frames.length = 3 ∧ b.current.length = 1 ∧
      Statement.haveSequentialLoops Sample.nestedLoops = true ∧
      b.circuit.checkStatements (b.frames.flatMap Frame.parameters) Sample.nestedLoops = .ok () ∧
      (Statement.replayAll Sample.nestedLoops).length = 14 ∧
      (∀ earlier call later, Statement.replayAll Sample.nestedLoops = earlier ++ call :: later →
        ((b.runAll earlier).run call).2 = .ok ()) ∧
      b.runAll (Statement.replayAll Sample.nestedLoops) = b.extend Sample.nestedLoops := by
  have hloops : Statement.haveSequentialLoops Sample.nestedLoops = true := by decide +kernel
  refine ⟨_, rfl, by decide +kernel, by decide +kernel, hloops, ?_⟩
  have hvalid : ((new .qscout).runAll Sample.openMacro).circuit.checkStatements
      (((new .qscout).runAll Sample.openMacro).frames.flatMap Frame.parameters) Sample.nestedLoops = .ok () := by
    decide +kernel
  obtain ⟨hsucceeds, hextends, -⟩ := replay_extends rfl hloops hvalid
  exact ⟨hvalid, by decide +kernel, hsucceeds, hextends⟩

end Builder

end IonSchedule
