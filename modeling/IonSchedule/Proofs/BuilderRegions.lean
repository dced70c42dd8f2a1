import Mathlib.Data.List.Induction
import IonSchedule.Proofs.BuilderSteps
import IonSchedule.Proofs.ExecutionOrder
import IonSchedule.Proofs.Positions

/-! # Regions between barriers

A barrier turns the open unscheduled block into one of the statements around it and opens the next one behind
it. Where these statements run one after another, everything in the region that was closed runs before
everything in the region that was opened, however the builder goes on and however blocks are nested around the
two. Main statement: this holds for all barriers and all gates of their regions in one plan of the schedule. In
an unscheduled or a parallel block nothing orders the two regions.
-/
namespace IonSchedule

open Statement Plan

/-- A circuit under construction, as it would be if everything that is open were closed. -/
structure Outline where
  body : Block
  /-- The macro that is open. -/
  opened : Option Macro

namespace Outline

/-- Where statements go: the macro that is open, or else the body. -/
def root (o : Outline) : Block :=
  match o.opened with
  | some m => m.body
  | none => o.body

def location (o : Outline) : Location :=
  match o.opened with
  | some m => .macroBody m.name
  | none => .body

/-- The outline of a body and open frames, with more statements at the end of the innermost one. -/
def ofFrames (body : List Statement) : List Frame → List Statement → Outline
  | [], inner => ⟨.sequential (body ++ inner), none⟩
  | ⟨.block kind, ss⟩ :: rest, inner => ofFrames body rest [.block kind (ss ++ inner)]
  | ⟨.loop count, ss⟩ :: rest, inner => ofFrames body rest [.loop count .sequential (ss ++ inner)]
  | ⟨.macroBody name parameters, ss⟩ :: _, inner =>
    ⟨.sequential body, some ⟨name, parameters, .sequential (ss ++ inner)⟩⟩

/-- Statements still go to the same place, and what is there keeps its position. -/
structure Grows (o o' : Outline) : Prop where
  location : o'.location = o.location
  body : o.body.toStatement.Within o'.body.toStatement
  root : o.root.toStatement.Within o'.root.toStatement

theorem Grows.refl (o : Outline) : o.Grows o := ⟨rfl, .refl _, .refl _⟩

theorem Grows.trans {o o' o'' : Outline} (h : o.Grows o') (h' : o'.Grows o'') : o.Grows o'' where
  location := h'.location.trans h.location
  body := h.body.trans h'.body
  root := h.root.trans h'.root

variable {body inner inner' : List Statement}

theorem grows_ofFrames (h : WithinAll inner inner') (frames : List Frame) :
    (ofFrames body frames inner).Grows (ofFrames body frames inner') := by
  induction frames generalizing inner inner' with
  | nil =>
    have hbody : (Block.sequential (body ++ inner)).toStatement.Within
        (Block.sequential (body ++ inner')).toStatement :=
      WithinAll.within (h.append_left body) rfl
    exact ⟨rfl, hbody, hbody⟩
  | cons frame rest ih =>
    obtain ⟨kind, ss⟩ := frame
    cases kind with
    | block kind => exact ih (.cons (WithinAll.within (h.append_left ss) rfl) (.nil _))
    | loop count => exact ih (.cons (WithinAll.within (h.append_left ss) rfl) (.nil _))
    | macroBody name parameters => exact ⟨rfl, .refl _, WithinAll.within (h.append_left ss) rfl⟩

end Outline

namespace Builder

variable {b b' : Builder}

def outline (b : Builder) : Outline := .ofFrames b.body b.frames []

@[simp] theorem circuit_append (b : Builder) (s : Statement) : (b.append s).circuit = b.circuit := by
  unfold append
  split <;> rfl

theorem ofFrames_append (b : Builder) (s : Statement) (inner : List Statement) :
    Outline.ofFrames (b.append s).body (b.append s).frames inner = .ofFrames b.body b.frames (s :: inner) := by
  obtain ⟨circuit, body, frames⟩ := b
  cases frames with
  | nil => simp [append, Outline.ofFrames]
  | cons frame rest =>
    obtain ⟨kind, ss⟩ := frame
    cases kind <;> simp [append, Outline.ofFrames]

theorem outline_of_block {kind : BlockKind} {ss : List Statement} {rest : List Frame}
    (h : b.frames = ⟨.block kind, ss⟩ :: rest) : b.outline = .ofFrames b.body rest [.block kind ss] := by
  simp [outline, h, Outline.ofFrames]

theorem outline_of_loop {count : LoopCount} {ss : List Statement} {rest : List Frame}
    (h : b.frames = ⟨.loop count, ss⟩ :: rest) :
    b.outline = .ofFrames b.body rest [.loop count .sequential ss] := by
  simp [outline, h, Outline.ofFrames]

theorem outline_of_macroBody {name : String} {parameters : List String} {ss : List Statement} {rest : List Frame}
    (h : b.frames = ⟨.macroBody name parameters, ss⟩ :: rest) :
    b.outline = ⟨.sequential b.body, some ⟨name, parameters, .sequential ss⟩⟩ := by
  simp [outline, h, Outline.ofFrames]

theorem outline_of_nil (h : b.frames = []) : b.outline = ⟨.sequential b.body, none⟩ := by
  simp [outline, h, Outline.ofFrames]

/-- What a step does to the outline: it adds to it, or a macro begins or ends. -/
inductive Reshapes (b b' : Builder) (result : Except BuilderError Unit) : Prop
  | grows (outline : b.outline.Grows b'.outline) (macros : b'.circuit.macros = b.circuit.macros)
  | begins (empty : b.frames = []) (body : b'.outline.body = b.outline.body)
      (macros : b'.circuit.macros = b.circuit.macros)
  | ends {m : Macro} (opened : b.outline.opened = some m) (empty : b'.frames = [])
      (body : b'.outline.body = b.outline.body)
      (declared : b.circuit.declareMacro m.name m.parameters m.body = .ok b'.circuit)
  | refuses (failed : result ≠ .ok ()) (empty : b'.frames = []) (body : b'.outline.body = b.outline.body)
      (macros : b'.circuit.macros = b.circuit.macros)

theorem Step.reshapes {result : Except BuilderError Unit} (h : Step b b' result) (hb : Nested b.frames) :
    Reshapes b b' result := by
  cases h with
  | none => exact .grows (Outline.grows_ofFrames (.nil _) _) rfl
  | declare hdeclares => exact .grows (Outline.grows_ofFrames (.nil _) _) hdeclares.macros_eq
  | gate g =>
    refine .grows ?_ (by rw [circuit_append])
    rw [outline, outline, ofFrames_append]
    exact Outline.grows_ofFrames (.nil _) _
  | beginBlock kind => exact .grows (Outline.grows_ofFrames (.nil _) _) rfl
  | beginLoop count => exact .grows (Outline.grows_ofFrames (.nil _) _) rfl
  | beginMacro hempty =>
    refine .begins hempty ?_ rfl
    rw [outline_of_nil hempty]
    rfl
  | endBlock hframes =>
    refine .grows ?_ (by rw [circuit_append])
    rw [outline_of_block hframes, outline, ofFrames_append]
    exact Outline.grows_ofFrames (.cons (.refl _) (.nil _)) _
  | endLoop hframes =>
    refine .grows ?_ (by rw [circuit_append])
    rw [outline_of_loop hframes, outline, ofFrames_append]
    exact Outline.grows_ofFrames (.cons (.refl _) (.nil _)) _
  | @barrier ss rest hframes hne =>
    refine .grows ?_ (by rw [openFrame, circuit_append])
    have hopened := ofFrames_append { b with frames := rest } (.block .unscheduled ss) [.block .unscheduled []]
    rw [outline_of_block hframes, outline_of_block rfl]
    change Outline.Grows _ (Outline.ofFrames (append _ _).body (append _ _).frames _)
    rw [hopened]
    exact Outline.grows_ofFrames (.cons (.refl _) (.nil _)) _
  | @endMacro name parameters ss rest c hframes hdeclare =>
    rw [hframes] at hb
    obtain rfl := hb.1 _ _ rfl
    have houtline := outline_of_macroBody hframes
    exact .ends (m := ⟨name, parameters, .sequential ss⟩) (by rw [houtline]) rfl
      (by rw [houtline, outline_of_nil rfl]) hdeclare
  | refuseMacro hframes fault =>
    rw [hframes] at hb
    obtain rfl := hb.1 _ _ rfl
    exact .refuses (by simp) rfl (by rw [outline_of_macroBody hframes, outline_of_nil rfl]) rfl

/-- The body only grows. -/
theorem Reshapes.body_within {result : Except BuilderError Unit} (h : Reshapes b b' result) :
    b.outline.body.toStatement.Within b'.outline.body.toStatement := by
  cases h with
  | grows outline macros => exact outline.body
  | begins empty body macros => exact body ▸ .refl _
  | ends opened empty body declared => exact body ▸ .refl _
  | refuses failed empty body macros => exact body ▸ .refl _

/-- A macro that is declared stays declared. -/
theorem Reshapes.get?_macros {result : Except BuilderError Unit} (h : Reshapes b b' result) {name : String}
    {m : Macro} (hm : b.circuit.macros.get? name = some m) : b'.circuit.macros.get? name = some m := by
  cases h with
  | grows outline macros => rwa [macros]
  | begins empty body macros => rwa [macros]
  | ends opened empty body declared =>
    rw [Table.get?_eq_some_iff] at hm ⊢
    rw [Circuit.items_declareMacro declared]
    exact List.mem_append_left _ hm
  | refuses failed empty body macros => rwa [macros]

/-- While something stays open, the outline only grows. -/
theorem Reshapes.outline_grows {result : Except BuilderError Unit} (h : Reshapes b b' result) (hb : b.frames ≠ [])
    (hb' : b'.frames ≠ []) : b.outline.Grows b'.outline := by
  cases h with
  | grows outline macros => exact outline
  | begins empty body macros => exact absurd empty hb
  | ends opened empty body declared => exact absurd empty hb'
  | refuses failed empty body macros => exact absurd empty hb'

/-- The first of the calls that leaves nothing open fails. This is how a macro is refused. -/
def refuses (b : Builder) : List Call → Bool
  | [] => false
  | call :: calls =>
    if (b.run call).1.frames.isEmpty then !(b.run call).2.toBool else (b.run call).1.refuses calls

theorem body_within_of_build {calls : List Call} {c : Circuit} (hb : Nested b.frames)
    (hbuild : (b.runAll calls).build = .ok c) : b.outline.body.toStatement.Within c.body.toStatement := by
  induction calls generalizing b with
  | nil =>
    obtain ⟨hframes, rfl⟩ := build_eq_ok_iff.1 hbuild
    rw [runAll_nil] at hframes
    rw [outline_of_nil hframes]
    exact .refl _
  | cons call calls ih =>
    have hstep := step_run b call
    exact (hstep.reshapes hb).body_within.trans (ih (hstep.nested hb) hbuild)

theorem get?_macros_of_build {calls : List Call} {c : Circuit} (hb : Nested b.frames)
    (hbuild : (b.runAll calls).build = .ok c) {name : String} {m : Macro}
    (hm : b.circuit.macros.get? name = some m) : c.macros.get? name = some m := by
  induction calls generalizing b with
  | nil =>
    obtain ⟨-, rfl⟩ := build_eq_ok_iff.1 hbuild
    exact hm
  | cons call calls ih =>
    have hstep := step_run b call
    exact ih (hstep.nested hb) hbuild ((hstep.reshapes hb).get?_macros hm)

/-- What is under construction ends up in the circuit, unless its macro is refused. -/
theorem exists_body_of_build {calls : List Call} {c : Circuit} (hb : Nested b.frames) (hopen : b.frames ≠ [])
    (hbuild : (b.runAll calls).build = .ok c) (hkept : b.refuses calls = false) :
    ∃ root, c.bodyAt? b.outline.location = some root ∧ b.outline.root.toStatement.Within root.toStatement := by
  induction calls generalizing b with
  | nil => exact absurd (build_eq_ok_iff.1 hbuild).1 hopen
  | cons call calls ih =>
    have hstep := step_run b call
    have hnested := hstep.nested hb
    have hreshapes := hstep.reshapes hb
    by_cases hclosed : (b.run call).1.frames = []
    · simp only [refuses, hclosed, List.isEmpty_nil, if_true, Bool.not_eq_false', toBool_iff] at hkept
      obtain ⟨done, hok⟩ := hkept
      -- the outermost frame is closed: a block or a loop goes into the body, a macro is declared
      cases hreshapes with
      | grows outline macros =>
        have hbody := body_within_of_build hnested hbuild
        have houtline := outline_of_nil hclosed
        refine ⟨c.body, ?_, outline.root.trans ?_⟩
        · rw [← outline.location, houtline]
          rfl
        · rw [houtline] at hbody ⊢
          exact hbody
      | begins empty body macros => exact absurd empty hopen
      | @ends m opened empty body declared =>
        have hdeclared : (b.run call).1.circuit.macros.get? m.name = some m := by
          rw [Table.get?_eq_some_iff, Circuit.items_declareMacro declared]
          exact List.mem_append_right _ (List.mem_singleton_self _)
        refine ⟨m.body, ?_, ?_⟩
        · simp only [Outline.location, opened, Circuit.bodyAt?, get?_macros_of_build hnested hbuild hdeclared,
            Option.map_some]
        · rw [Outline.root, opened]
          exact .refl _
      | refuses failed empty body macros => exact absurd hok failed
    · simp only [refuses, List.isEmpty_iff, hclosed, if_false] at hkept
      obtain ⟨root, hroot, hwithin⟩ := ih hnested hclosed hbuild hkept
      have hgrows := hreshapes.outline_grows hopen hclosed
      exact ⟨root, by rw [← hgrows.location, hroot], hgrows.root.trans hwithin⟩

/-- The statements of the innermost frame. -/
def innermost (body : List Statement) : List Frame → List Statement
  | [] => body
  | frame :: _ => frame.statements

/-- The position of the innermost frame in the body, or in the macro that is open. -/
def positionIn (body : List Statement) : List Frame → List Nat
  | [] => []
  | ⟨.macroBody _ _, _⟩ :: _ => []
  | _ :: rest => positionIn body rest ++ [(innermost body rest).length]

def position (b : Builder) : List Nat := positionIn b.body b.frames

theorem current_eq_innermost (b : Builder) : b.current = innermost b.body b.frames := by
  unfold current
  cases b.frames <;> rfl

theorem at?_positionIn (body : List Statement) (frames : List Frame) (inner : List Statement) :
    ∃ s, (Outline.ofFrames body frames inner).root.toStatement.at? (positionIn body frames) = some s ∧
      s.parts = innermost body frames ++ inner ∧
      ((∀ kind ss, frames.head? = some ⟨.block kind, ss⟩ → kind = .sequential) → s.runsInOrder = true) := by
  induction frames generalizing inner with
  | nil => exact ⟨_, rfl, rfl, fun _ => rfl⟩
  | cons frame rest ih =>
    obtain ⟨kind, ss⟩ := frame
    cases kind with
    | block kind =>
      obtain ⟨s, hs, hparts, -⟩ := ih [.block kind (ss ++ inner)]
      refine ⟨.block kind (ss ++ inner), at?_append_eq_some_iff.2 ⟨s, hs, ?_⟩, rfl, fun hkind => ?_⟩
      · rw [at?, hparts]
        simp [at?]
      · simpa [runsInOrder] using hkind kind ss rfl
    | loop count =>
      obtain ⟨s, hs, hparts, -⟩ := ih [.loop count .sequential (ss ++ inner)]
      refine ⟨.loop count .sequential (ss ++ inner), at?_append_eq_some_iff.2 ⟨s, hs, ?_⟩, rfl, fun _ => rfl⟩
      rw [at?, hparts]
      simp [at?]
    | macroBody name parameters => exact ⟨_, rfl, rfl, fun _ => rfl⟩

/-- What is appended to the innermost frame stands at its number behind the position of the frame. -/
theorem at?_position {i : Nat} {s : Statement} (h : b.current[i]? = some s) :
    b.outline.root.toStatement.at? (b.position ++ [i]) = some s := by
  obtain ⟨t, ht, hparts, -⟩ := at?_positionIn b.body b.frames []
  refine at?_append_eq_some_iff.2 ⟨t, ht, ?_⟩
  rw [at?, hparts, List.append_nil, ← current_eq_innermost, h]
  rfl

theorem position_of_block {kind : BlockKind} {ss : List Statement} {rest : List Frame}
    (h : b.frames = ⟨.block kind, ss⟩ :: rest) :
    b.position = positionIn b.body rest ++ [(innermost b.body rest).length] := by
  simp [position, h, positionIn]

theorem positionIn_append (b : Builder) (s : Statement) :
    positionIn (b.append s).body (b.append s).frames = positionIn b.body b.frames ∧
      innermost (b.append s).body (b.append s).frames = innermost b.body b.frames ++ [s] := by
  obtain ⟨circuit, body, frames⟩ := b
  cases frames with
  | nil => exact ⟨rfl, rfl⟩
  | cons frame rest =>
    obtain ⟨kind, ss⟩ := frame
    cases kind <;> exact ⟨rfl, rfl⟩

/-- The region that a barrier opens stands right behind the one that it closes, in the frame around them. -/
theorem position_of_barrier (h : b.run .barrier = (b', .ok ())) (hne : b.current ≠ [])
    (haround : ∀ kind ss, b.frames[1]? = some ⟨.block kind, ss⟩ → kind = .sequential) :
    ∃ base n s, b.position = base ++ [n] ∧ b'.position = base ++ [n + 1] ∧
      b.outline.root.toStatement.at? base = some s ∧ s.runsInOrder = true := by
  obtain ⟨ss, rest, hframes, rfl⟩ := exists_frame_of_barrier h
  have hss : ss ≠ [] := by simpa [current, hframes] using hne
  obtain ⟨s, hs, -, horder⟩ := at?_positionIn b.body rest [.block .unscheduled ss]
  obtain ⟨hposition, hinnermost⟩ := positionIn_append { b with frames := rest } (.block .unscheduled ss)
  refine ⟨positionIn b.body rest, (innermost b.body rest).length, s, position_of_block hframes, ?_, ?_, ?_⟩
  · rw [if_neg hss, position_of_block rfl]
    change positionIn (append _ _).body (append _ _).frames ++
      [(innermost (append _ _).body (append _ _).frames).length] = _
    rw [hposition, hinnermost, List.length_append, List.length_singleton]
  · rw [outline_of_block hframes, hs]
  · refine horder fun kind ss' hhead => haround kind ss' ?_
    rw [hframes, List.getElem?_cons_succ, ← List.head?_eq_getElem?, hhead]

/-- Through all the calls, the innermost frame stays open. -/
def KeepsOpen (b : Builder) (calls : List Call) : Prop :=
  ∀ k ≤ calls.length, b.position <+: (b.runAll (calls.take k)).position

instance (b : Builder) (calls : List Call) : Decidable (b.KeepsOpen calls) :=
  inferInstanceAs (Decidable (∀ k ≤ calls.length, _))

theorem frames_ne_nil_of_position {p : List Nat} (hp : p ≠ []) (h : p <+: b.position) : b.frames ≠ [] := by
  intro hframes
  rw [position, hframes, positionIn, List.prefix_nil] at h
  exact hp h

theorem KeepsOpen.outline_grows {calls : List Call} (h : b.KeepsOpen calls) (hb : Nested b.frames)
    (hposition : b.position ≠ []) : Nested (b.runAll calls).frames ∧ b.outline.Grows (b.runAll calls).outline := by
  induction calls using List.reverseRecOn with
  | nil => exact ⟨hb, .refl _⟩
  | append_singleton calls call ih =>
    have hprefix : b.KeepsOpen calls := by
      intro k hk
      have hpart := h k (by simp only [List.length_append]; omega)
      rwa [List.take_append_of_le_length hk] at hpart
    obtain ⟨hnested, hgrows⟩ := ih hprefix
    have hopen : (b.runAll calls).frames ≠ [] := by
      have hlast := hprefix calls.length (Nat.le_refl _)
      rw [List.take_length] at hlast
      exact frames_ne_nil_of_position hposition hlast
    have hopen' : (b.runAll (calls ++ [call])).frames ≠ [] := by
      have hlast := h (calls ++ [call]).length (Nat.le_refl _)
      rw [List.take_length] at hlast
      exact frames_ne_nil_of_position hposition hlast
    rw [runAll_append] at hopen' ⊢
    have hstep := step_run (b.runAll calls) call
    exact ⟨hstep.nested hnested, hgrows.trans ((hstep.reshapes hnested).outline_grows hopen hopen')⟩

/-- While something stays open, nothing is refused. -/
theorem refuses_append {calls : List Call} (more : List Call)
    (h : ∀ k ≤ calls.length, (b.runAll (calls.take k)).frames ≠ []) :
    b.refuses (calls ++ more) = (b.runAll calls).refuses more := by
  induction calls generalizing b with
  | nil => rfl
  | cons call calls ih =>
    have hfirst : (b.run call).1.frames ≠ [] := h 1 (by simp)
    rw [List.cons_append, refuses, if_neg (by simpa using hfirst)]
    exact ih fun k hk => h (k + 1) (Nat.succ_le_succ hk)

theorem KeepsOpen.refuses_append {calls : List Call} (h : b.KeepsOpen calls) (hposition : b.position ≠ [])
    (more : List Call) : b.refuses (calls ++ more) = (b.runAll calls).refuses more :=
  Builder.refuses_append more fun k hk => frames_ne_nil_of_position hposition (h k hk)

theorem frames_ne_nil_of_barrier (h : b.run .barrier = (b', .ok ())) : b.frames ≠ [] ∧ b'.frames ≠ [] := by
  obtain ⟨ss, rest, hframes, rfl⟩ := exists_frame_of_barrier h
  have hopen : b.frames ≠ [] := by simp [hframes]
  by_cases hss : ss = []
  · rw [if_pos hss]
    exact ⟨hopen, hopen⟩
  · rw [if_neg hss]
    exact ⟨hopen, List.cons_ne_nil _ _⟩

section Barrier

variable {b₁ b₂ : Builder} (hnested : Nested b₁.frames) (hbarrier : b₁.run .barrier = (b₂, .ok ()))
include hnested hbarrier

theorem outline_grows_of_barrier : Nested b₂.frames ∧ b₁.outline.Grows b₂.outline := by
  have hstep : Step b₁ b₂ (.ok ()) := by simpa [hbarrier] using step_run b₁ .barrier
  obtain ⟨hopen₁, hopen₂⟩ := frames_ne_nil_of_barrier hbarrier
  exact ⟨hstep.nested hnested, (hstep.reshapes hnested).outline_grows hopen₁ hopen₂⟩

/-- The regions of a barrier are in the body of the built circuit or of one of its macros. -/
theorem exists_body_of_barrier {after : List Call} {c : Circuit} (hbuild : (b₂.runAll after).build = .ok c)
    (hkept : b₂.refuses after = false) : ∃ root, c.bodyAt? b₁.outline.location = some root := by
  obtain ⟨hnested₂, hgrows⟩ := outline_grows_of_barrier hnested hbarrier
  obtain ⟨root, hroot, -⟩ := exists_body_of_build hnested₂ (frames_ne_nil_of_barrier hbarrier).2 hbuild hkept
  exact ⟨root, by rw [← hgrows.location, hroot]⟩

/-- In the built circuit, what is in the closed region stands before what is in the opened one. -/
theorem inOrder_of_barrier {inside behind : List Call} {c : Circuit} {root : Block} {i j : Nat} {g₁ g₂ : GateCall}
    (haround : ∀ kind ss, b₁.frames[1]? = some ⟨.block kind, ss⟩ → kind = .sequential)
    (hbuild : (b₂.runAll (inside ++ behind)).build = .ok c) (hkept : b₂.refuses (inside ++ behind) = false)
    (hroot : c.bodyAt? b₁.outline.location = some root) (hopen : b₂.KeepsOpen inside)
    (hback : (b₂.runAll inside).position = b₂.position) (hclosed : b₁.current[i]? = some (.gate g₁))
    (hopened : (b₂.runAll inside).current[j]? = some (.gate g₂)) :
    InOrder (b₁.position ++ [i], g₁) (b₂.position ++ [j], g₂) root.kind (locateAll [] 0 root.statements) := by
  have hne : b₁.current ≠ [] := by
    intro hnil
    simp [hnil] at hclosed
  obtain ⟨base, n, s, hp₁, hp₂, hs, hseq⟩ := position_of_barrier hbarrier hne haround
  have hp₂ne : b₂.position ≠ [] := by simp [hp₂]
  obtain ⟨hnested₂, hgrows₁⟩ := outline_grows_of_barrier hnested hbarrier
  obtain ⟨hnested₃, hgrows₂⟩ := hopen.outline_grows hnested₂ hp₂ne
  have hgrows := hgrows₁.trans hgrows₂
  have hopen₃ : (b₂.runAll inside).frames ≠ [] := frames_ne_nil_of_position hp₂ne (hback ▸ List.prefix_rfl)
  rw [runAll_append] at hbuild
  rw [hopen.refuses_append hp₂ne] at hkept
  obtain ⟨root', hroot', hwithin⟩ := exists_body_of_build hnested₃ hopen₃ hbuild hkept
  rw [hgrows.location, hroot, Option.some.injEq] at hroot'
  subst hroot'
  -- the block around the regions and both gates keep their positions up to the built circuit
  obtain ⟨s', hs', hseq'⟩ := (hgrows.root.trans hwithin).exists_runsInOrder hs hseq
  have hfirst := (hgrows.root.trans hwithin).at?_gate (at?_position hclosed)
  have hsecond := hwithin.at?_gate (at?_position hopened)
  rw [hp₁] at hfirst
  rw [hback, hp₂] at hsecond
  rw [hp₁, hp₂]
  simp only [List.append_assoc, List.singleton_append] at hfirst hsecond ⊢
  exact before_locate [] hs' hseq' hfirst hsecond (Nat.lt_succ_self n)

end Barrier

end Builder

namespace Circuit

variable {c c' : Circuit}

/-- A plan of the schedule of each body: it has the calls of the body, each labelled with its position there. -/
def IsPlanned (c c' : Circuit) (plan : Location → List (Plan (List Nat))) : Prop :=
  ∀ location root, c.bodyAt? location = some root → ∃ root', c'.bodyAt? location = some root' ∧
    eraseAll (plan location) = root'.statements ∧
    callsAll (plan location) = callsAll (locateAll [] 0 root.statements) ∧
    ((callsAll (plan location)).map Prod.fst).Nodup

/-- One plan keeps all that is in order in the bodies of a circuit. -/
theorem exists_isPlanned {stats : Stats} (h : c.schedule = .ok (c', stats)) :
    ∃ plan, c.IsPlanned c' plan ∧ ∀ location root root', c.bodyAt? location = some root →
      c'.bodyAt? location = some root' → ∀ x y, InOrder x y root.kind (locateAll [] 0 root.statements) →
        InOrder x y root'.kind (plan location) := by
  have hplan : ∀ location, ∃ plan, ∀ root, c.bodyAt? location = some root → ∃ root',
      c'.bodyAt? location = some root' ∧ eraseAll plan = root'.statements ∧
      callsAll plan = callsAll (locateAll [] 0 root.statements) ∧
      ∀ x y, InOrder x y root.kind (locateAll [] 0 root.statements) → InOrder x y root'.kind plan := by
    intro location
    cases hroot : c.bodyAt? location with
    | none => exact ⟨[], by simp⟩
    | some root =>
      obtain ⟨root', hroot', plan, hplan⟩ :=
        exists_becomes_of_schedule h hroot (eraseAll_locateAll [] 0 root.statements)
      refine ⟨plan, fun r hr => ?_⟩
      cases hr
      exact ⟨root', hroot', hplan⟩
  choose plan hplan using hplan
  refine ⟨plan, fun location root hroot => ?_, fun location root root' hroot hroot' x y hxy => ?_⟩
  · obtain ⟨root', hroot', herase, hcalls, -⟩ := hplan location root hroot
    refine ⟨root', hroot', herase, hcalls, ?_⟩
    rw [hcalls]
    exact nodup_callsAll_locateAll [] 0 root.statements
  · obtain ⟨root'', hroot'', -, -, horder⟩ := hplan location root hroot
    cases hroot'.symm.trans hroot''
    exact horder x y hxy

end Circuit

namespace Builder

/-- The gates of a built circuit can be told apart, and followed into its schedule, in such a way that for every
barrier each gate in the region that it closes runs before every gate in the region that it opens, if the two
regions stand in the body, in a sequential block, a loop or a macro. The first gate is appended before the
barrier, the second while the region behind it is open, and both are named by their positions in the circuit. A
macro may be refused when it ends, and then what is in it is lost. -/
theorem closed_region_runs_first {table : GateTable} {calls : List Call} {c c' : Circuit} {stats : Stats}
    (hbuild : ((new table).runAll calls).build = .ok c) (hschedule : c.schedule = .ok (c', stats)) :
    ∃ plan, c.IsPlanned c' plan ∧ ∀ before after b₁ b₂, calls = before ++ .barrier :: after →
      (new table).runAll before = b₁ → b₁.run .barrier = (b₂, .ok ()) →
      (∀ kind ss, b₁.frames[1]? = some ⟨.block kind, ss⟩ → kind = .sequential) →
      b₂.refuses after = true ∨ ∃ root root', c.bodyAt? b₁.outline.location = some root ∧
        c'.bodyAt? b₁.outline.location = some root' ∧
        ∀ inside behind, after = inside ++ behind → b₂.KeepsOpen inside →
          (b₂.runAll inside).position = b₂.position →
          ∀ i j g₁ g₂, b₁.current[i]? = some (.gate g₁) → (b₂.runAll inside).current[j]? = some (.gate g₂) →
            InOrder (b₁.position ++ [i], g₁) (b₂.position ++ [j], g₂) root'.kind (plan b₁.outline.location) := by
  obtain ⟨plan, hplan, horder⟩ := Circuit.exists_isPlanned hschedule
  refine ⟨plan, hplan, ?_⟩
  rintro before after b₁ b₂ rfl hbefore hbarrier haround
  have hnested : Nested b₁.frames := hbefore ▸ nested_runAll table before
  have hafter : (b₂.runAll after).build = .ok c := by
    have hrun : b₁.runAll (.barrier :: after) = (b₁.run .barrier).1.runAll after := rfl
    rwa [runAll_append, hbefore, hrun, hbarrier] at hbuild
  cases hkept : b₂.refuses after with
  | true => exact .inl rfl
  | false =>
    obtain ⟨root, hroot⟩ := exists_body_of_barrier hnested hbarrier hafter hkept
    obtain ⟨root', hroot', -⟩ := hplan _ root hroot
    refine .inr ⟨root, root', hroot, hroot', ?_⟩
    rintro inside behind rfl hopen hback i j g₁ g₂ hclosed hopened
    exact horder _ root root' hroot hroot' _ _
      (inOrder_of_barrier hnested hbarrier haround hafter hkept hroot hopen hback hclosed hopened)

end Builder

namespace Sample

/-- The first region of a sequential block, inside an unscheduled block of a macro. It has the same gate twice. -/
def beforeBarrier : List Builder.Call :=
  [.register "q" 3, .beginMacro "echo" ["a"], .beginBlock .unscheduled, .gate "Px" [onQ 0], .beginBlock .sequential,
    .beginBlock .unscheduled, .gate "Px" [.ref "a"], .gate "Px" [.ref "a"]]

def insideRegion : List Builder.Call :=
  [.gate "Py" [onQ 1], .beginLoop (.fixed 2), .gate "Px" [onQ 2], .endLoop, .gate "Py" [onQ 2]]

def behindRegion : List Builder.Call := [.endBlock, .endBlock, .endBlock, .endMacro]

def atBarrier : Builder := (Builder.new .qscout).runAll beforeBarrier

def atSecondRegion : Builder := (atBarrier.run .barrier).1

def regionCalls : List Builder.Call := beforeBarrier ++ .barrier :: (insideRegion ++ behindRegion)

end Sample

namespace Builder

open Sample

/-- In one plan, both gates of the first region run before both gates of the second. -/
theorem closed_region_runs_first_sample :
    ∃ c c' stats plan root', ((new .qscout).runAll regionCalls).build = .ok c ∧ c.schedule = .ok (c', stats) ∧
      c.IsPlanned c' plan ∧ c'.bodyAt? (.macroBody "echo") = some root' ∧
      ∀ i < 2, ∀ j q, (j, q) ∈ [(0, onQ 1), (2, onQ 2)] →
        InOrder ([0, 1, 0, i], pxCall (.ref "a"))
          ([0, 1, 1, j], pyCall q) root'.kind (plan (.macroBody "echo")) := by
  have hok : (match ((new .qscout).runAll regionCalls).build with
      | .ok c => c.schedule.toBool
      | .error _ => false) = true := by decide +kernel
  cases hbuild : ((new .qscout).runAll regionCalls).build with
  | error e => simp [hbuild] at hok
  | ok c =>
    rw [hbuild] at hok
    obtain ⟨⟨c', stats⟩, hschedule⟩ := toBool_iff.1 hok
    obtain ⟨plan, hplan, hregions⟩ := closed_region_runs_first hbuild hschedule
    have hbarrier : atBarrier.run .barrier = (atSecondRegion, .ok ()) := Prod.ext rfl (by decide +kernel)
    have haround : ∀ kind ss, atBarrier.frames[1]? = some ⟨.block kind, ss⟩ → kind = .sequential := by
      have hframe : atBarrier.frames[1]? = some ⟨.block .sequential, []⟩ := by with_unfolding_all rfl
      intro kind ss h
      rw [hframe] at h
      cases h
      rfl
    have hkept : atSecondRegion.refuses (insideRegion ++ behindRegion) ≠ true := by decide +kernel
    obtain ⟨root, root', -, hroot', horder⟩ :=
      (hregions beforeBarrier _ atBarrier atSecondRegion rfl rfl hbarrier haround).resolve_left hkept
    have hlocation : atBarrier.outline.location = .macroBody "echo" := by decide +kernel
    have hfirst : atBarrier.position = [0, 1, 0] := by decide +kernel
    have hsecond : atSecondRegion.position = [0, 1, 1] := by decide +kernel
    rw [hlocation] at hroot' horder
    rw [hfirst, hsecond] at horder
    refine ⟨c, c', stats, plan, root', rfl, hschedule, hplan, hroot', fun i hi j q hq => ?_⟩
    refine horder insideRegion behindRegion rfl (by decide +kernel) (by decide +kernel) i j _ _ ?_ ?_
    · have hclosed : atBarrier.current = [px (.ref "a"), px (.ref "a")] := by with_unfolding_all rfl
      rw [hclosed]
      rcases i with _ | _ | i
      · rfl
      · rfl
      · omega
    · have hopened : ∀ e ∈ [(0, onQ 1), (2, onQ 2)],
          (atSecondRegion.runAll insideRegion).current[e.1]? = some (py e.2) := by
        have hfirst : (atSecondRegion.runAll insideRegion).current[0]? = some (py (onQ 1)) := by
          with_unfolding_all rfl
        have hlast : (atSecondRegion.runAll insideRegion).current[2]? = some (py (onQ 2)) := by
          with_unfolding_all rfl
        simp [hfirst, hlast]
      exact hopened (j, q) hq

/-- In an unscheduled block the two regions of a barrier may share a moment, and in a parallel block they start
at the same time. -/
theorem barrier_leaves_siblings_unordered :
    (∃ b c c' stats,
      ((new .qscout).runAll [.register "q" 2, .beginBlock .unscheduled, .beginBlock .unscheduled,
        .gate "Px" [onQ 0]]).run .barrier = (b, .ok ()) ∧
      (b.runAll [.gate "Py" [onQ 1], .endBlock, .endBlock]).build = .ok c ∧ c.schedule = .ok (c', stats) ∧
      c'.body = .sequential [.block .parallel [px (onQ 0), py (onQ 1)]] ∧
      ∀ (plan : List (Plan (List Nat))) x y, eraseAll plan = c'.body.statements → ¬ InOrder x y c'.body.kind plan) ∧
    ∃ b c c' stats,
      ((new .qscout).runAll [.register "q" 1, .beginBlock .parallel, .beginBlock .unscheduled,
        .gate "Px" [onQ 0]]).run .barrier = (b, .ok ()) ∧
      (b.runAll [.gate "Py" [onQ 0], .endBlock, .endBlock]).build = .ok c ∧ c.schedule = .ok (c', stats) ∧
      c'.body = .sequential [.block .parallel [.block .sequential [px (onQ 0)],
        .block .sequential [py (onQ 0)]]] := by
  constructor
  · refine ⟨_, _, _, _, by with_unfolding_all rfl, by with_unfolding_all rfl, by with_unfolding_all rfl,
      by with_unfolding_all rfl, ?_⟩
    intro plan x y hplan
    obtain ⟨p, rest, rfl, hp, hrest⟩ := eraseAll_eq_cons hplan
    obtain rfl := eraseAll_eq_nil hrest
    rw [inOrder_singleton]
    exact not_before_of_gates hp (by simp)
  · refine ⟨_, _, _, _, by with_unfolding_all rfl, by with_unfolding_all rfl, by with_unfolding_all rfl, ?_⟩
    with_unfolding_all rfl

end Builder

end IonSchedule
