import IonSchedule.Proofs.Blocks
import IonSchedule.Proofs.SourceChains

/-! # Replacing gate calls

The scheduler asks two things of a gate call: which slots it touches, and whether it may share a moment. Calls
may therefore be replaced by others that answer alike, before scheduling or after it, with the same outcome. The
two runs are compared step by step: each step of the second is the image of the same step of the first, or both
fail.
-/
namespace IonSchedule

section Echoes

variable {ε ε' α α' β β' : Type}

/-- The second result is the image of the first one; where one of them fails, so does the other, with any error. -/
def Echoes (f : α → β) (x : Except ε α) (y : Except ε β) : Prop := ∀ b, y = .ok b ↔ ∃ a, x = .ok a ∧ f a = b

variable {f : α → β} {x : Except ε α} {y : Except ε β}

theorem echoes_pure {a : α} {b : β} (h : f a = b) : Echoes f (pure a : Except ε α) (pure b) := by
  intro b'
  simp only [pure_eq_ok_iff, exists_eq_left', h]

theorem echoes_error (f : α → β) (e e' : ε) : Echoes f (.error e) (.error e') := by
  intro b
  simp

theorem Echoes.bind (h : Echoes f x y) {g : α' → β'} {k : α → Except ε α'} {k' : β → Except ε β'}
    (hk : ∀ a, Echoes g (k a) (k' (f a))) : Echoes g (x >>= k) (y >>= k') := by
  intro b
  simp only [bind_eq_ok_iff]
  constructor
  · rintro ⟨b', hy, hb⟩
    obtain ⟨a, ha, rfl⟩ := (h b').1 hy
    obtain ⟨a', ha', rfl⟩ := (hk a b).1 hb
    exact ⟨a', ⟨a, ha, ha'⟩, rfl⟩
  · rintro ⟨a', ⟨a, ha, ha'⟩, rfl⟩
    exact ⟨f a, (h _).2 ⟨a, ha, rfl⟩, (hk a _).2 ⟨a', ha', rfl⟩⟩

theorem Echoes.map (h : Echoes f x y) {g : α' → β'} {k : α → α'} {k' : β → β'} (hk : ∀ a, g (k a) = k' (f a)) :
    Echoes g (k <$> x) (k' <$> y) := by
  intro b
  simp only [map_eq_ok_iff]
  constructor
  · rintro ⟨b', hy, rfl⟩
    obtain ⟨a, ha, rfl⟩ := (h b').1 hy
    exact ⟨k a, ⟨a, ha, rfl⟩, hk a⟩
  · rintro ⟨a', ⟨a, ha, rfl⟩, rfl⟩
    exact ⟨f a, (h _).2 ⟨a, ha, rfl⟩, (hk a).symm⟩

theorem Echoes.mapError (h : Echoes f x y) (e : ε → ε') : Echoes f (x.mapError e) (y.mapError e) := by
  intro b
  simp only [mapError_eq_ok_iff]
  exact h b

end Echoes

/-! ## Replaced calls -/

namespace Statement

mutual

/-- The statement with every call at any depth replaced. -/
def mapCalls (f : GateCall → GateCall) : Statement → Statement
  | .gate g => .gate (f g)
  | .block kind statements => .block kind (mapCallsAll f statements)
  | .loop count kind body => .loop count kind (mapCallsAll f body)

def mapCallsAll (f : GateCall → GateCall) : List Statement → List Statement
  | [] => []
  | s :: rest => mapCalls f s :: mapCallsAll f rest

end

variable {f : GateCall → GateCall}

theorem mapCallsAll_eq_map (ss : List Statement) : mapCallsAll f ss = ss.map (mapCalls f) := by
  induction ss with
  | nil => rw [mapCallsAll, List.map_nil]
  | cons s rest ih => rw [mapCallsAll, List.map_cons, ih]

@[simp] theorem mapCalls_gate (g : GateCall) : (gate g).mapCalls f = .gate (f g) := by rw [mapCalls]

@[simp] theorem mapCalls_block (kind : BlockKind) (ss : List Statement) :
    (block kind ss).mapCalls f = .block kind (ss.map (mapCalls f)) := by
  rw [mapCalls, mapCallsAll_eq_map]

@[simp] theorem mapCalls_loop (count : LoopCount) (kind : BlockKind) (body : List Statement) :
    (loop count kind body).mapCalls f = .loop count kind (body.map (mapCalls f)) := by
  rw [mapCalls, mapCallsAll_eq_map]

theorem isLeaf_mapCalls (s : Statement) : (s.mapCalls f).isLeaf = s.isLeaf := by
  cases s with
  | gate g => rw [mapCalls_gate, isLeaf, isLeaf]
  | block kind ss => rw [mapCalls_block, isLeaf, isLeaf]
  | loop count kind body => rw [mapCalls_loop, isLeaf, isLeaf]

end Statement

open Statement

variable {f : GateCall → GateCall}

namespace Moment

def mapCalls (f : GateCall → GateCall) (m : Moment) : Moment :=
  { m with statements := m.statements.map (·.mapCalls f) }

theorem toStatement?_mapCalls (m : Moment) : (m.mapCalls f).toStatement? = m.toStatement?.map (·.mapCalls f) := by
  obtain ⟨ss, usage, isOpen⟩ := m
  match ss with
  | [] => rfl
  | [s] => rfl
  | s :: s' :: rest => simp [toStatement?, mapCalls]

end Moment

namespace Timeline

variable (t : Timeline) (usage : Usage) (after : Option Nat)

def mapCalls (f : GateCall → GateCall) (t : Timeline) : Timeline :=
  { t with moments := t.moments.map (·.mapCalls f) }

theorem firstAccepting?_map (index : Nat) (ms : List Moment) :
    firstAccepting? usage index (ms.map (·.mapCalls f)) = firstAccepting? usage index ms := by
  induction ms generalizing index with
  | nil => rfl
  | cons m rest ih =>
    simp only [List.map_cons, firstAccepting?, ih]
    rfl

/-- Where a statement may go is read from slots and open moments alone. -/
theorem findOpen?_mapCalls : (t.mapCalls f).findOpen? usage after = t.findOpen? usage after := by
  unfold findOpen?
  rw [show (t.mapCalls f).earliest usage after = t.earliest usage after from rfl]
  simp only [mapCalls, ← List.map_drop, firstAccepting?_map]

theorem merge_mapCalls (index : Nat) (ss : List Statement) :
    (t.mapCalls f).merge index (ss.map (·.mapCalls f)) usage = (t.merge index ss usage).map (mapCalls f) id := by
  have hmoments : (t.moments.map (·.mapCalls f)).modify index (·.join (ss.map (·.mapCalls f)) usage) =
      (t.moments.modify index (·.join ss usage)).map (·.mapCalls f) := by
    apply List.ext_getElem?
    intro i
    simp only [List.getElem?_modify, List.getElem?_map]
    cases t.moments[i]? with
    | none => rfl
    | some m =>
      by_cases hi : index = i
      · simp [hi, Moment.join, Moment.mapCalls]
      · simp [hi]
  simp only [merge, mapCalls, hmoments, noteUse, Prod.map_apply, id]

theorem push_mapCalls (ss : List Statement) (isOpen : Bool) :
    (t.mapCalls f).push (ss.map (·.mapCalls f)) usage isOpen = (t.push ss usage isOpen).map (mapCalls f) id := by
  simp [push, mapCalls, noteUse, Moment.mapCalls]

theorem isolate_mapCalls (s : Statement) :
    (t.mapCalls f).isolate (s.mapCalls f) usage = (t.isolate s usage).map (mapCalls f) id :=
  t.push_mapCalls usage [s] false

theorem place_mapCalls (s : Statement) :
    (t.mapCalls f).place (s.mapCalls f) usage after = (t.place s usage after).map (mapCalls f) id := by
  unfold place
  rw [findOpen?_mapCalls]
  cases t.findOpen? usage after with
  | none => exact t.push_mapCalls usage [s] true
  | some index => exact t.merge_mapCalls usage index [s]

theorem placeGroup_mapCalls (members : List Statement) :
    (t.mapCalls f).placeGroup (members.map (·.mapCalls f)) usage after =
      (t.placeGroup members usage after).map (mapCalls f) id := by
  unfold placeGroup
  rw [findOpen?_mapCalls]
  cases t.findOpen? usage after with
  | none =>
    rw [← mapCalls_block]
    exact t.isolate_mapCalls usage (.block .parallel members)
  | some index => exact t.merge_mapCalls usage index members

theorem statements_mapCalls : (t.mapCalls f).statements = t.statements.map (·.mapCalls f) := by
  simp only [statements, mapCalls, List.filterMap_map, List.map_filterMap]
  congr 1
  funext m
  exact m.toStatement?_mapCalls

theorem stats_mapCalls : (t.mapCalls f).stats = t.stats := by
  simp [stats, mapCalls, Moment.mapCalls, List.countP_map, List.foldr_map, Function.comp_def]

end Timeline

/-! ## Two runs of the scheduler -/

/-- Both calls touch the same slots, or neither has a usage; and both may share a moment, or neither may. -/
structure Universe.Alike (u : Universe) (g h : GateCall) : Prop where
  usage : Echoes id (u.gateUsage g) (u.gateUsage h)
  isParallelizable : h.isParallelizable = g.isParallelizable

section Runs

variable {u : Universe}

theorem echoes_usageAll_of {ss : List Statement} (h : ∀ s ∈ ss, Echoes id (u.usage s) (u.usage (s.mapCalls f))) :
    Echoes id (u.usageAll ss) (u.usageAll (ss.map (·.mapCalls f))) := by
  induction ss with
  | nil =>
    rw [List.map_nil, Universe.usageAll]
    exact echoes_pure rfl
  | cons s rest ih =>
    rw [List.forall_mem_cons] at h
    rw [List.map_cons, Universe.usageAll, Universe.usageAll]
    exact h.1.bind fun first => (ih h.2).bind fun others => echoes_pure rfl

variable (hf : ∀ g, u.Alike g (f g))
include hf

theorem isParallelGroup_map (kind : BlockKind) (ss : List Statement) :
    isParallelGroup kind (ss.map (·.mapCalls f)) = isParallelGroup kind ss := by
  have hmember : ∀ s : Statement,
      (s.mapCalls f).gate?.any GateCall.isParallelizable = s.gate?.any GateCall.isParallelizable := by
    intro s
    cases s with
    | gate g => simp [gate?, (hf g).isParallelizable]
    | block kind ss => simp [gate?]
    | loop count kind body => simp [gate?]
  simp only [isParallelGroup, List.all_map, Function.comp_def, hmember]

theorem echoes_usage (s : Statement) : Echoes id (u.usage s) (u.usage (s.mapCalls f)) := by
  induction s using Statement.induction with
  | gate g =>
    rw [mapCalls_gate, Universe.usage, Universe.usage]
    exact (hf g).usage
  | block kind ss ih =>
    rw [mapCalls_block, Universe.usage, Universe.usage]
    exact echoes_usageAll_of ih
  | loop count kind body ih =>
    rw [mapCalls_loop, Universe.usage, Universe.usage]
    exact echoes_usageAll_of ih

theorem echoes_usageAll (ss : List Statement) : Echoes id (u.usageAll ss) (u.usageAll (ss.map (·.mapCalls f))) :=
  echoes_usageAll_of fun s _ => echoes_usage hf s

end Runs

namespace Schedule

def Placed.mapCalls (f : GateCall → GateCall) (p : Placed) : Placed := { p with timeline := p.timeline.mapCalls f }

/-- Some statements with counts, their calls replaced. -/
def mapOut (f : GateCall → GateCall) : List Statement × Stats → List Statement × Stats :=
  Prod.map (·.map (·.mapCalls f)) id

theorem close_mapCalls (p : Placed) : (p.mapCalls f).close = mapOut f p.close := by
  simp only [Placed.close, Placed.mapCalls, mapOut, Timeline.statements_mapCalls, Timeline.stats_mapCalls,
    Prod.map_apply, id]

variable {u : Universe}

theorem spliceOne_of_isLeaf {topLevel : Bool} {s : Statement} (h : s.isLeaf = true) :
    spliceOne u topLevel s = (do
      let (s, stats) ← arrange u s
      return ([s], stats)) := by
  cases s with
  | gate g => rfl
  | block kind ss => cases kind <;> first | rfl | cases h
  | loop count kind body => rfl

theorem placeOne_of_isLeaf {s : Statement} {after : Option Nat} {t : Timeline} (h : s.isLeaf = true) :
    placeOne u s after t = (do
      let (s, stats) ← arrange u s
      let (t, last) ← placeLeaf u after t s
      return ⟨t, last, stats⟩) := by
  cases s with
  | gate g => rfl
  | block kind ss => cases kind <;> first | rfl | cases h
  | loop count kind body => rfl

theorem echoes_landed (landed : Timeline × Nat) :
    Echoes (Prod.map (Timeline.mapCalls f) id)
      (pure (landed.1, some landed.2) : Except CircuitError (Timeline × Option Nat))
      (pure ((landed.map (Timeline.mapCalls f) id).1, some (landed.map (Timeline.mapCalls f) id).2)) :=
  echoes_pure rfl

theorem echoes_placeLeaf (hf : ∀ g, u.Alike g (f g)) (after : Option Nat) (t : Timeline) (s : Statement) :
    Echoes (Prod.map (Timeline.mapCalls f) id) (placeLeaf u after t s)
      (placeLeaf u after (t.mapCalls f) (s.mapCalls f)) := by
  cases s with
  | gate g =>
    rw [mapCalls_gate, placeLeaf, placeLeaf]
    refine (hf g).usage.bind fun usage => ?_
    rw [(hf g).isParallelizable, ← mapCalls_gate, id, Timeline.place_mapCalls, Timeline.isolate_mapCalls,
      ← apply_ite]
    exact echoes_landed (if g.isParallelizable then t.place (gate g) usage after else t.isolate (gate g) usage)
  | loop count kind body =>
    rw [mapCalls_loop, placeLeaf, placeLeaf]
    refine (echoes_usageAll hf body).bind fun usage => ?_
    rw [← mapCalls_loop, id, Timeline.isolate_mapCalls]
    exact echoes_landed (t.isolate (loop count kind body) usage)
  | block kind ss =>
    rw [mapCalls_block, placeLeaf, placeLeaf, List.isEmpty_map]
    split
    · exact echoes_pure rfl
    · refine (echoes_usageAll hf ss).bind fun usage => ?_
      rw [isParallelGroup_map hf, ← mapCalls_block, id, Timeline.placeGroup_mapCalls, Timeline.isolate_mapCalls,
        ← apply_ite]
      exact echoes_landed
        (if isParallelGroup kind ss then t.placeGroup ss usage after else t.isolate (block kind ss) usage)

theorem echoes_placeLeaves (hf : ∀ g, u.Alike g (f g)) (ss : List Statement) (after : Option Nat) (t : Timeline) :
    Echoes (Prod.map (Timeline.mapCalls f) id) (placeLeaves u ss after t)
      (placeLeaves u (ss.map (·.mapCalls f)) after (t.mapCalls f)) := by
  induction ss generalizing after t with
  | nil =>
    rw [List.map_nil, placeLeaves, placeLeaves]
    exact echoes_pure rfl
  | cons s rest ih =>
    rw [List.map_cons, placeLeaves, placeLeaves]
    exact (echoes_placeLeaf hf after t s).bind fun landed => ih landed.2 landed.1

private theorem echoes_scheduleBlock_step {ss : List Statement}
    (hp : Echoes (Placed.mapCalls f) (placeAll u false ss none .empty)
      (placeAll u false (ss.map (·.mapCalls f)) none .empty)) :
    Echoes (mapOut f) (scheduleBlock u ss) (scheduleBlock u (ss.map (·.mapCalls f))) :=
  hp.map fun p => (close_mapCalls p).symm

private theorem echoes_arrangeBody_step {kind : BlockKind} {ss : List Statement}
    (hs : Echoes (mapOut f) (splice u false ss) (splice u false (ss.map (·.mapCalls f))))
    (hm : Echoes (mapOut f) (arrangeEach u ss) (arrangeEach u (ss.map (·.mapCalls f))))
    (hp : Echoes (Placed.mapCalls f) (placeAll u false ss none .empty)
      (placeAll u false (ss.map (·.mapCalls f)) none .empty)) :
    Echoes (mapOut f) (arrangeBody u kind ss) (arrangeBody u kind (ss.map (·.mapCalls f))) := by
  cases kind with
  | sequential => exact hs
  | parallel => exact hm
  | unscheduled => exact echoes_scheduleBlock_step hp

private theorem echoes_kept_step {topLevel : Bool} {s : Statement} (hleaf : s.isLeaf = true)
    (hs : Echoes (Prod.map (·.mapCalls f) id) (arrange u s) (arrange u (s.mapCalls f))) :
    Echoes (mapOut f) (spliceOne u topLevel s) (spliceOne u topLevel (s.mapCalls f)) := by
  rw [spliceOne_of_isLeaf hleaf, spliceOne_of_isLeaf (s.isLeaf_mapCalls.trans hleaf)]
  exact hs.bind fun out => echoes_pure rfl

private theorem echoes_spliceOne_step {topLevel : Bool} {s : Statement}
    (hs : match s with
      | .block .unscheduled ss => Echoes (Placed.mapCalls f) (placeAll u false ss none .empty)
          (placeAll u false (ss.map (·.mapCalls f)) none .empty)
      | .block .sequential ss => Echoes (mapOut f) (splice u false ss) (splice u false (ss.map (·.mapCalls f)))
      | s => Echoes (Prod.map (·.mapCalls f) id) (arrange u s) (arrange u (s.mapCalls f))) :
    Echoes (mapOut f) (spliceOne u topLevel s) (spliceOne u topLevel (s.mapCalls f)) := by
  cases s with
  | gate g => exact echoes_kept_step rfl hs
  | block kind ss =>
    cases kind with
    | sequential =>
      rw [mapCalls_block, spliceOne, spliceOne]
      refine hs.bind fun inner => echoes_pure ?_
      cases topLevel with
      | true => simp [mapOut]
      | false => rfl
    | parallel => exact echoes_kept_step rfl hs
    | unscheduled =>
      rw [mapCalls_block]
      exact echoes_scheduleBlock_step hs
  | loop count kind body => exact echoes_kept_step rfl hs

private theorem echoes_leaf_step (hf : ∀ g, u.Alike g (f g)) {s : Statement} (hleaf : s.isLeaf = true)
    (hs : Echoes (Prod.map (·.mapCalls f) id) (arrange u s) (arrange u (s.mapCalls f))) (after : Option Nat)
    (t : Timeline) :
    Echoes (Placed.mapCalls f) (placeOne u s after t) (placeOne u (s.mapCalls f) after (t.mapCalls f)) := by
  rw [placeOne_of_isLeaf hleaf, placeOne_of_isLeaf (s.isLeaf_mapCalls.trans hleaf)]
  exact hs.bind fun out => (echoes_placeLeaf hf after t out.1).bind fun landed => echoes_pure rfl

private theorem echoes_placeOne_step (hf : ∀ g, u.Alike g (f g)) {s : Statement} {after : Option Nat} {t : Timeline}
    (hs : match s with
      | .block .sequential ss => Echoes (Placed.mapCalls f) (placeAll u true ss after t)
          (placeAll u true (ss.map (·.mapCalls f)) after (t.mapCalls f))
      | .block .unscheduled ss => Echoes (Placed.mapCalls f) (placeAll u false ss none .empty)
          (placeAll u false (ss.map (·.mapCalls f)) none .empty)
      | s => Echoes (Prod.map (·.mapCalls f) id) (arrange u s) (arrange u (s.mapCalls f))) :
    Echoes (Placed.mapCalls f) (placeOne u s after t) (placeOne u (s.mapCalls f) after (t.mapCalls f)) := by
  cases s with
  | gate g => exact echoes_leaf_step hf rfl hs after t
  | block kind ss =>
    cases kind with
    | sequential =>
      rw [mapCalls_block]
      exact hs
    | parallel => exact echoes_leaf_step hf rfl hs after t
    | unscheduled =>
      rw [mapCalls_block, placeOne, placeOne]
      exact (echoes_scheduleBlock_step hs).bind fun out =>
        (echoes_placeLeaves hf out.1 after t).bind fun landed => echoes_pure rfl
  | loop count kind body => exact echoes_leaf_step hf rfl hs after t

/-- What the scheduler makes of replaced calls is what it makes of the calls themselves. -/
theorem echoes_all (hf : ∀ g, u.Alike g (f g)) :
    (∀ s, Echoes (Prod.map (·.mapCalls f) id) (arrange u s) (arrange u (s.mapCalls f))) ∧
    (∀ chained ss after t, Echoes (Placed.mapCalls f) (placeAll u chained ss after t)
      (placeAll u chained (ss.map (·.mapCalls f)) after (t.mapCalls f))) ∧
    (∀ ss, Echoes (mapOut f) (arrangeEach u ss) (arrangeEach u (ss.map (·.mapCalls f)))) ∧
    (∀ topLevel ss, Echoes (mapOut f) (splice u topLevel ss) (splice u topLevel (ss.map (·.mapCalls f)))) := by
  apply arrange.mutual_induct
  -- one statement
  · intro g
    rw [mapCalls_gate, arrange, arrange]
    exact echoes_pure rfl
  · intro kind ss hs hm hp
    rw [mapCalls_block, arrange_block, arrange_block]
    exact (echoes_arrangeBody_step hs hm hp).bind fun out => echoes_pure (by simp)
  · intro count kind ss hs hm hp
    rw [mapCalls_loop, arrange_loop, arrange_loop]
    exact (echoes_arrangeBody_step hs hm hp).bind fun out => echoes_pure (by simp)
  -- the statements of an unscheduled block, or a chain inside one
  · intro chained after t
    rw [List.map_nil, placeAll, placeAll]
    exact echoes_pure rfl
  · intro chained s rest after t hs hrest
    rw [List.map_cons, placeAll_cons, placeAll_cons]
    exact (echoes_placeOne_step hf hs).bind fun first => (hrest first).bind fun others => echoes_pure rfl
  -- the members of a parallel block
  · rw [List.map_nil, arrangeEach]
    exact echoes_pure rfl
  · intro s rest hs hrest
    rw [List.map_cons, arrangeEach, arrangeEach]
    exact hs.bind fun first => hrest.bind fun others => echoes_pure rfl
  -- the statements of a sequential block
  · intro topLevel
    rw [List.map_nil, splice]
    exact echoes_pure rfl
  · intro topLevel s rest hs hrest
    rw [List.map_cons, splice_cons, splice_cons]
    exact (echoes_spliceOne_step hs).bind fun first =>
      hrest.bind fun others => echoes_pure (by simp [mapOut])

end Schedule

/-! ## Calls that occur -/

theorem Universe.Alike.refl (u : Universe) (g : GateCall) : u.Alike g g := ⟨fun b => by simp, rfl⟩

open Classical in
/-- Replaces a call only where both answer alike. -/
noncomputable def Universe.tame (u : Universe) (f : GateCall → GateCall) (g : GateCall) : GateCall :=
  if u.Alike g (f g) then f g else g

theorem Universe.alike_tame (u : Universe) (f : GateCall → GateCall) (g : GateCall) : u.Alike g (u.tame f g) := by
  unfold tame
  split
  · assumption
  · exact .refl u g

theorem Statement.mapCalls_congr {f' : GateCall → GateCall} (s : Statement)
    (h : ∀ g ∈ Reading.calls.read s, f g = f' g) : s.mapCalls f = s.mapCalls f' := by
  induction s using Statement.induction with
  | gate g => rw [mapCalls_gate, mapCalls_gate, h g (by simp)]
  | block kind ss ih =>
    rw [Reading.read_block, Reading.forall_readAll_iff] at h
    rw [mapCalls_block, mapCalls_block, List.map_congr_left fun s hs => ih s hs (h s hs)]
  | loop count kind body ih =>
    rw [Reading.read_loop, Reading.calls_loop, Reading.forall_readAll_iff] at h
    rw [mapCalls_loop, mapCalls_loop, List.map_congr_left fun s hs => ih s hs (h s hs)]

theorem Statement.map_mapCalls_congr {f' : GateCall → GateCall} {ss : List Statement}
    (h : ∀ g ∈ Reading.calls.readAll ss, f g = f' g) : ss.map (·.mapCalls f) = ss.map (·.mapCalls f') :=
  List.map_congr_left fun s hs => s.mapCalls_congr (Reading.forall_readAll_iff.1 h s hs)

namespace Schedule

variable {u : Universe} {ss : List Statement}

/-- Scheduling makes no calls that do not occur, so it is enough to ask those that do. -/
theorem echoes_of_tame {schedule : List Statement → Except CircuitError (List Statement × Stats)}
    (h : ∀ g ∈ Reading.calls.readAll ss, u.Alike g (f g))
    (hcalls : ∀ out stats, schedule ss = .ok (out, stats) → Reading.calls.readAll out = Reading.calls.readAll ss)
    (hm : Echoes (mapOut (u.tame f)) (schedule ss) (schedule (ss.map (·.mapCalls (u.tame f))))) :
    Echoes (mapOut f) (schedule ss) (schedule (ss.map (·.mapCalls f))) := by
  have htame : ∀ g ∈ Reading.calls.readAll ss, u.tame f g = f g := fun g hg => if_pos (h g hg)
  rw [map_mapCalls_congr htame] at hm
  intro b
  rw [hm b]
  refine exists_congr fun a => and_congr_right fun ha => ?_
  rw [mapOut, mapOut, Prod.map, Prod.map, map_mapCalls_congr fun g hg => htame g (hcalls _ _ ha ▸ hg)]

theorem echoes_splice (topLevel : Bool) (h : ∀ g ∈ Reading.calls.readAll ss, u.Alike g (f g)) :
    Echoes (mapOut f) (splice u topLevel ss) (splice u topLevel (ss.map (·.mapCalls f))) := by
  refine echoes_of_tame h (fun out stats hout => ?_) ((echoes_all (u.alike_tame f)).2.2.2 topLevel ss)
  exact (Reading.independent_of_comm Reading.calls u).keeps (derives_splice hout)

theorem echoes_arrangeBody (kind : BlockKind) (h : ∀ g ∈ Reading.calls.readAll ss, u.Alike g (f g)) :
    Echoes (mapOut f) (arrangeBody u kind ss) (arrangeBody u kind (ss.map (·.mapCalls f))) := by
  obtain ⟨-, hplace, hmembers, hsplice⟩ := echoes_all (u.alike_tame f)
  refine echoes_of_tame h (fun out stats hout => (derives_arrangeBody hout).calls_body) ?_
  exact echoes_arrangeBody_step (hsplice false ss) (hmembers ss) (hplace false ss none .empty)

end Schedule

end IonSchedule
