import IonSchedule.Schedule
import IonSchedule.Proofs.TimelineInvariant

/-! # Derivations of a schedule

A successful run of the scheduler as a derivation. There is one judgement for each thing that is rewritten or
placed, and one rule for each way in which this is done, so that what holds of every schedule is shown by
induction on derivations. The statements that reach a timeline are gates, loops and parallel blocks; `Enters`
says how one of them gets there.
-/
namespace IonSchedule

namespace Statement

/-- Gates, loops and parallel blocks are placed as a whole. -/
def isLeaf : Statement → Bool
  | .gate _ => true
  | .block kind _ => kind = .parallel
  | .loop .. => true

/-- The gates with which a statement may join a moment. -/
def group? : Statement → Option (List Statement)
  | .gate g => if g.isParallelizable then some [.gate g] else none
  | .block kind statements => if isParallelGroup kind statements then some statements else none
  | .loop .. => none

theorem isParallelGroup_of_group? {s : Statement} {members : List Statement} (h : s.group? = some members) :
    isParallelGroup .parallel members = true := by
  cases s with
  | gate g =>
    simp only [group?, Option.ite_none_right_eq_some, Option.some.injEq] at h
    obtain ⟨hg, rfl⟩ := h
    simp [isParallelGroup, gate?, hg]
  | block kind ss =>
    simp only [group?, Option.ite_none_right_eq_some, Option.some.injEq] at h
    obtain ⟨hk, rfl⟩ := h
    simp only [isParallelGroup, Bool.and_eq_true] at hk ⊢
    exact ⟨by simp, hk.2⟩
  | loop count kind body => simp [group?] at h

theorem gate_of_mem_group {s : Statement} {members : List Statement} (h : isParallelGroup .parallel members = true)
    (hs : s ∈ members) : ∃ g, s = .gate g ∧ g.isParallelizable = true := by
  simp only [isParallelGroup, Bool.and_eq_true, List.all_eq_true] at h
  have hany := h.2 s hs
  cases s with
  | gate g => exact ⟨g, rfl, by simpa [gate?] using hany⟩
  | block kind inner => simp [gate?] at hany
  | loop count kind body => simp [gate?] at hany

end Statement

namespace Schedule

variable {u : Universe} {after last : Option Nat} {t t' : Timeline} {s s' : Statement}

/-- How a leaf enters a timeline: an empty block leaves no trace, parallelizable gates join an open moment or
start one, and all else stands alone. -/
inductive Enters (u : Universe) (after : Option Nat) (t : Timeline) : Statement → Timeline → Option Nat → Prop
  | skip (kind : BlockKind) : Enters u after t (.block kind []) t after
  | join {s : Statement} {members : List Statement} {usage : Usage} {i : Nat} (hs : s.group? = some members)
      (hne : members ≠ []) (hu : u.usageAll members = .ok usage) (hi : t.findOpen? usage after = some i) :
      Enters u after t s (t.merge i members usage).1 (some i)
  | start {g : GateCall} {usage : Usage} (hg : g.isParallelizable = true) (hu : u.usageAll [.gate g] = .ok usage)
      (hi : t.findOpen? usage after = none) :
      Enters u after t (.gate g) (t.push [.gate g] usage true).1 (some t.moments.length)
  | alone {s : Statement} {usage : Usage} (hne : ∀ kind, s ≠ .block kind []) (hu : u.usageAll [s] = .ok usage)
      (hs : s.group? = none ∨ t.findOpen? usage after = none) :
      Enters u after t s (t.isolate s usage).1 (some t.moments.length)

theorem enters_gate {g : GateCall} (h : placeLeaf u after t (.gate g) = .ok (t', last)) :
    Enters u after t (.gate g) t' last := by
  simp only [placeLeaf, bind_eq_ok_iff] at h
  obtain ⟨usage, hu, h⟩ := h
  replace hu : u.usageAll [.gate g] = .ok usage := Universe.usageAll_singleton.2 (by rw [Universe.usage, hu])
  by_cases hg : g.isParallelizable = true
  · cases hi : t.findOpen? usage after with
    | some i =>
      simp only [hg, if_true, Timeline.place, hi, pure_eq_ok_iff, Prod.mk.injEq] at h
      obtain ⟨rfl, rfl⟩ := h
      exact .join (by simp [Statement.group?, hg]) (by simp) hu hi
    | none =>
      simp only [hg, if_true, Timeline.place, hi, pure_eq_ok_iff, Prod.mk.injEq] at h
      obtain ⟨rfl, rfl⟩ := h
      exact .start hg hu hi
  · simp only [hg, pure_eq_ok_iff, Prod.mk.injEq] at h
    obtain ⟨rfl, rfl⟩ := h
    exact .alone (by simp) hu (Or.inl (by simp [Statement.group?, hg]))

theorem enters_block {kind : BlockKind} {ss : List Statement}
    (h : placeLeaf u after t (.block kind ss) = .ok (t', last)) : Enters u after t (.block kind ss) t' last := by
  cases ss with
  | nil =>
    simp only [placeLeaf, List.isEmpty_nil, if_true, pure_eq_ok_iff, Prod.mk.injEq] at h
    obtain ⟨rfl, rfl⟩ := h
    exact .skip kind
  | cons m ms =>
    simp only [placeLeaf, List.isEmpty_cons, Bool.false_eq_true, if_false, bind_eq_ok_iff] at h
    obtain ⟨usage, hu, h⟩ := h
    have hblock : u.usageAll [.block kind (m :: ms)] = .ok usage :=
      Universe.usageAll_singleton.2 (by rw [Universe.usage, hu])
    by_cases hg : isParallelGroup kind (m :: ms) = true
    · cases hi : t.findOpen? usage after with
      | some i =>
        simp only [hg, if_true, Timeline.placeGroup, hi, pure_eq_ok_iff, Prod.mk.injEq] at h
        obtain ⟨rfl, rfl⟩ := h
        exact .join (by simp [Statement.group?, hg]) (by simp) hu hi
      | none =>
        have hk : kind = .parallel := by
          simp only [isParallelGroup, Bool.and_eq_true, decide_eq_true_eq] at hg
          exact hg.1
        subst hk
        simp only [hg, if_true, Timeline.placeGroup, hi, pure_eq_ok_iff, Prod.mk.injEq] at h
        obtain ⟨rfl, rfl⟩ := h
        exact .alone (by simp) hblock (Or.inr hi)
    · simp only [hg, pure_eq_ok_iff, Prod.mk.injEq] at h
      obtain ⟨rfl, rfl⟩ := h
      exact .alone (by simp) hblock (Or.inl (by simp [Statement.group?, hg]))

theorem enters_loop {count : LoopCount} {kind : BlockKind} {body : List Statement}
    (h : placeLeaf u after t (.loop count kind body) = .ok (t', last)) :
    Enters u after t (.loop count kind body) t' last := by
  simp only [placeLeaf, bind_eq_ok_iff, pure_eq_ok_iff, Prod.mk.injEq] at h
  obtain ⟨usage, hu, rfl, rfl⟩ := h
  exact .alone (by simp) (Universe.usageAll_singleton.2 (by rw [Universe.usage, hu])) (Or.inl rfl)

theorem enters_of_placeLeaf (h : placeLeaf u after t s = .ok (t', last)) : Enters u after t s t' last := by
  cases s with
  | gate g => exact enters_gate h
  | block kind ss => exact enters_block h
  | loop count kind body => exact enters_loop h

/-- Leaves enter a timeline one after another. -/
inductive EntersAll (u : Universe) : Option Nat → Timeline → List Statement → Timeline → Option Nat → Prop
  | nil {after : Option Nat} {t : Timeline} : EntersAll u after t [] t after
  | cons {after mid last : Option Nat} {t t₁ t₂ : Timeline} {s : Statement} {rest : List Statement}
      (first : Enters u after t s t₁ mid) (others : EntersAll u mid t₁ rest t₂ last) :
      EntersAll u after t (s :: rest) t₂ last

/-- What each leaf that enters keeps is kept by all of them. -/
theorem EntersAll.preserves {ss : List Statement} {P : Timeline → Prop} {Q : Statement → Prop}
    (step : ∀ {after last t t' s}, Enters u after t s t' last → Q s → P t → P t')
    (h : EntersAll u after t ss t' last) (hss : ∀ s ∈ ss, Q s) (ht : P t) : P t' := by
  induction h with
  | nil => exact ht
  | cons first others ih =>
    rw [List.forall_mem_cons] at hss
    exact ih hss.2 (step first hss.1 ht)

theorem entersAll_of_placeLeaves {ss : List Statement} (h : placeLeaves u ss after t = .ok (t', last)) :
    EntersAll u after t ss t' last := by
  induction ss generalizing after t with
  | nil =>
    simp only [placeLeaves, pure_eq_ok_iff, Prod.mk.injEq] at h
    obtain ⟨rfl, rfl⟩ := h
    exact .nil
  | cons s rest ih =>
    simp only [placeLeaves, bind_eq_ok_iff] at h
    obtain ⟨⟨t₁, mid⟩, hs, hrest⟩ := h
    exact .cons (enters_of_placeLeaf hs) (ih hrest)

/-- What a part of the scheduler turns into what. -/
inductive Judgement where
  | arranged (s s' : Statement) (stats : Stats)
  | members (ss out : List Statement) (stats : Stats)
  | sequence (topLevel : Bool) (ss out : List Statement) (stats : Stats)
  /-- What a statement of a sequential block leaves in its place. -/
  | piece (topLevel : Bool) (s : Statement) (out : List Statement) (stats : Stats)
  /-- The statements of a block of the given kind. -/
  | body (kind : BlockKind) (ss out : List Statement) (stats : Stats)
  | placed (s : Statement) (after : Option Nat) (t : Timeline) (p : Placed)
  | placedAll (chained : Bool) (ss : List Statement) (after : Option Nat) (t : Timeline) (p : Placed)

inductive Derives (u : Universe) : Judgement → Prop
  | gate {g : GateCall} : Derives u (.arranged (.gate g) (.gate g) 0)
  | block {kind : BlockKind} {ss out : List Statement} {stats : Stats}
      (body : Derives u (.body kind ss out stats)) :
        Derives u (.arranged (.block kind ss) (.block kind.scheduled out) stats)
  | loop {count : LoopCount} {kind : BlockKind} {ss out : List Statement} {stats : Stats}
      (body : Derives u (.body kind ss out stats)) :
      Derives u (.arranged (.loop count kind ss) (.loop count kind.scheduled out) stats)
  | noMember : Derives u (.members [] [] 0)
  | member {s s' : Statement} {ss out : List Statement} {stats more : Stats}
      (first : Derives u (.arranged s s' stats)) (others : Derives u (.members ss out more)) :
      Derives u (.members (s :: ss) (s' :: out) (stats + more))
  | noPiece {topLevel : Bool} : Derives u (.sequence topLevel [] [] 0)
  | pieces {topLevel : Bool} {s : Statement} {ss first others : List Statement} {stats more : Stats}
      (head : Derives u (.piece topLevel s first stats)) (tail : Derives u (.sequence topLevel ss others more)) :
      Derives u (.sequence topLevel (s :: ss) (first ++ others) (stats + more))
  | moments {topLevel : Bool} {ss out : List Statement} {stats : Stats}
      (body : Derives u (.body .unscheduled ss out stats)) :
      Derives u (.piece topLevel (.block .unscheduled ss) out stats)
  | spliced {ss out : List Statement} {stats : Stats} (body : Derives u (.body .sequential ss out stats)) :
      Derives u (.piece false (.block .sequential ss) out stats)
  | nested {ss out : List Statement} {stats : Stats} (body : Derives u (.body .sequential ss out stats)) :
      Derives u (.piece true (.block .sequential ss) [.block .sequential out] stats)
  | kept {topLevel : Bool} {s s' : Statement} {stats : Stats} (leaf : s.isLeaf = true)
      (arranged : Derives u (.arranged s s' stats)) : Derives u (.piece topLevel s [s'] stats)
  | sequential {ss out : List Statement} {stats : Stats} (sequence : Derives u (.sequence false ss out stats)) :
      Derives u (.body .sequential ss out stats)
  | parallel {ss out : List Statement} {stats : Stats} (members : Derives u (.members ss out stats)) :
      Derives u (.body .parallel ss out stats)
  | unscheduled {ss : List Statement} {p : Placed} (placed : Derives u (.placedAll false ss none .empty p)) :
      Derives u (.body .unscheduled ss p.close.1 p.close.2)
  | chain {ss : List Statement} {after : Option Nat} {t : Timeline} {p : Placed}
      (placed : Derives u (.placedAll true ss after t p)) : Derives u (.placed (.block .sequential ss) after t p)
  | again {ss out : List Statement} {stats : Stats} {after last : Option Nat} {t t' : Timeline}
      (body : Derives u (.body .unscheduled ss out stats)) (enters : EntersAll u after t out t' last) :
      Derives u (.placed (.block .unscheduled ss) after t ⟨t', last, stats⟩)
  | leaf {s s' : Statement} {stats : Stats} {after last : Option Nat} {t t' : Timeline} (leaf : s.isLeaf = true)
      (arranged : Derives u (.arranged s s' stats)) (enters : Enters u after t s' t' last) :
      Derives u (.placed s after t ⟨t', last, stats⟩)
  | none {chained : Bool} {after : Option Nat} {t : Timeline} :
      Derives u (.placedAll chained [] after t ⟨t, after, 0⟩)
  | next {chained : Bool} {s : Statement} {ss : List Statement} {after : Option Nat} {t : Timeline} {p q : Placed}
      (first : Derives u (.placed s after t p))
      (others : Derives u (.placedAll chained ss (if chained then p.last else after) p.timeline q)) :
      Derives u (.placedAll chained (s :: ss) after t { q with stats := p.stats + q.stats })

/-- The statements of a block of the given kind, rewritten. -/
def arrangeBody (u : Universe) (kind : BlockKind) (ss : List Statement) :
    Except CircuitError (List Statement × Stats) :=
  match kind with
  | .sequential => splice u false ss
  | .parallel => arrangeEach u ss
  | .unscheduled => scheduleBlock u ss

theorem arrange_block (u : Universe) (kind : BlockKind) (ss : List Statement) :
    arrange u (.block kind ss) = (do
      let (out, stats) ← arrangeBody u kind ss
      return (.block kind.scheduled out, stats)) := by
  cases kind <;> rw [arrange] <;> rfl

theorem arrange_loop (u : Universe) (count : LoopCount) (kind : BlockKind) (ss : List Statement) :
    arrange u (.loop count kind ss) = (do
      let (out, stats) ← arrangeBody u kind ss
      return (.loop count kind.scheduled out, stats)) := by
  cases kind <;> rw [arrange] <;> rfl

theorem arrangeBlock_eq (u : Universe) (b : Block) :
    arrangeBlock u b = (do
      let (out, stats) ← arrangeBody u b.kind b.statements
      return (⟨b.kind.scheduled, out⟩, stats)) := by
  obtain ⟨kind, ss⟩ := b
  cases kind <;> rfl

/-- What a statement of a sequential block leaves in its place. -/
def spliceOne (u : Universe) (topLevel : Bool) (s : Statement) : Except CircuitError (List Statement × Stats) :=
  match s with
  | .block .unscheduled ss => scheduleBlock u ss
  | .block .sequential ss => do
    let (inner, stats) ← splice u false ss
    return (if topLevel then [.block .sequential inner] else inner, stats)
  | s => do
    let (s, stats) ← arrange u s
    return ([s], stats)

theorem splice_cons (u : Universe) (topLevel : Bool) (s : Statement) (rest : List Statement) :
    splice u topLevel (s :: rest) = (do
      let (first, stats) ← spliceOne u topLevel s
      let (others, more) ← splice u topLevel rest
      return (first ++ others, stats + more)) := by
  cases s with
  | gate g => rw [splice] <;> simp [spliceOne]
  | block kind ss => cases kind <;> rw [splice] <;> simp [spliceOne, scheduleBlock]
  | loop count kind body => rw [splice] <;> simp [spliceOne]

/-- Places one statement of a block. -/
def placeOne (u : Universe) (s : Statement) (after : Option Nat) (t : Timeline) : Except CircuitError Placed :=
  match s with
  | .block .sequential ss => placeAll u true ss after t
  | .block .unscheduled ss => do
    let (inner, stats) ← scheduleBlock u ss
    let (t, last) ← placeLeaves u inner after t
    return ⟨t, last, stats⟩
  | s => do
    let (s, stats) ← arrange u s
    let (t, last) ← placeLeaf u after t s
    return ⟨t, last, stats⟩

theorem placeAll_cons (u : Universe) (chained : Bool) (s : Statement) (rest : List Statement) (after : Option Nat)
    (t : Timeline) :
    placeAll u chained (s :: rest) after t = (do
      let first ← placeOne u s after t
      let others ← placeAll u chained rest (if chained then first.last else after) first.timeline
      return { others with stats := first.stats + others.stats }) := by
  cases s with
  | gate g => rw [placeAll] <;> simp [placeOne]
  | block kind ss => cases kind <;> rw [placeAll] <;> simp [placeOne, scheduleBlock]
  | loop count kind body => rw [placeAll] <;> simp [placeOne]

variable {ss out : List Statement} {stats : Stats}

private theorem scheduleBlock_step
    (hp : ∀ p, placeAll u false ss none .empty = .ok p → Derives u (.placedAll false ss none .empty p))
    (h : Placed.close <$> placeAll u false ss none .empty = .ok (out, stats)) :
    Derives u (.body .unscheduled ss out stats) := by
  obtain ⟨p, hplace, hclose⟩ := map_eq_ok_iff.1 h
  have hd := Derives.unscheduled (hp p hplace)
  rwa [hclose] at hd

private theorem arrangeBody_step {kind : BlockKind}
    (hs : ∀ out stats, splice u false ss = .ok (out, stats) → Derives u (.sequence false ss out stats))
    (hm : ∀ out stats, arrangeEach u ss = .ok (out, stats) → Derives u (.members ss out stats))
    (hp : ∀ p, placeAll u false ss none .empty = .ok p → Derives u (.placedAll false ss none .empty p))
    (h : arrangeBody u kind ss = .ok (out, stats)) : Derives u (.body kind ss out stats) := by
  cases kind with
  | sequential => exact .sequential (hs out stats h)
  | parallel => exact .parallel (hm out stats h)
  | unscheduled => exact scheduleBlock_step hp h

private theorem kept_step {topLevel : Bool} (hleaf : s.isLeaf = true)
    (hs : ∀ s' stats, arrange u s = .ok (s', stats) → Derives u (.arranged s s' stats))
    (h : (do let (s', stats) ← arrange u s; return ([s'], stats)) = Except.ok (out, stats)) :
    Derives u (.piece topLevel s out stats) := by
  simp only [bind_eq_ok_iff, pure_eq_ok_iff, Prod.mk.injEq] at h
  obtain ⟨⟨s', stats⟩, hs', rfl, rfl⟩ := h
  exact .kept hleaf (hs s' stats hs')

private theorem spliceOne_step {topLevel : Bool}
    (hs : match s with
      | .block .unscheduled ss => ∀ p, placeAll u false ss none .empty = .ok p →
          Derives u (.placedAll false ss none .empty p)
      | .block .sequential ss => ∀ out stats, splice u false ss = .ok (out, stats) →
          Derives u (.sequence false ss out stats)
      | s => ∀ s' stats, arrange u s = .ok (s', stats) → Derives u (.arranged s s' stats))
    (h : spliceOne u topLevel s = .ok (out, stats)) : Derives u (.piece topLevel s out stats) := by
  cases s with
  | gate g => exact kept_step rfl hs h
  | block kind ss =>
    cases kind with
    | sequential =>
      simp only [spliceOne, bind_eq_ok_iff, pure_eq_ok_iff, Prod.mk.injEq] at h
      obtain ⟨⟨inner, stats⟩, hinner, rfl, rfl⟩ := h
      have hbody : Derives u (.body .sequential ss inner stats) := .sequential (hs inner stats hinner)
      cases topLevel with
      | true => exact .nested hbody
      | false => exact .spliced hbody
    | parallel => exact kept_step rfl hs h
    | unscheduled => exact .moments (scheduleBlock_step hs h)
  | loop count kind body => exact kept_step rfl hs h

private theorem leaf_step {p : Placed} (hleaf : s.isLeaf = true)
    (hs : ∀ s' stats, arrange u s = .ok (s', stats) → Derives u (.arranged s s' stats))
    (h : (do
      let (s', stats) ← arrange u s
      let (t', last) ← placeLeaf u after t s'
      return (⟨t', last, stats⟩ : Placed)) = Except.ok p) :
    Derives u (.placed s after t p) := by
  simp only [bind_eq_ok_iff, pure_eq_ok_iff] at h
  obtain ⟨⟨s', stats⟩, hs', ⟨t', last⟩, henter, rfl⟩ := h
  exact .leaf hleaf (hs s' stats hs') (enters_of_placeLeaf henter)

private theorem placeOne_step {p : Placed}
    (hs : match s with
      | .block .sequential ss => ∀ p, placeAll u true ss after t = .ok p → Derives u (.placedAll true ss after t p)
      | .block .unscheduled ss => ∀ p, placeAll u false ss none .empty = .ok p →
          Derives u (.placedAll false ss none .empty p)
      | s => ∀ s' stats, arrange u s = .ok (s', stats) → Derives u (.arranged s s' stats))
    (h : placeOne u s after t = .ok p) : Derives u (.placed s after t p) := by
  cases s with
  | gate g => exact leaf_step rfl hs h
  | block kind ss =>
    cases kind with
    | sequential => exact .chain (hs p h)
    | parallel => exact leaf_step rfl hs h
    | unscheduled =>
      simp only [placeOne, bind_eq_ok_iff, pure_eq_ok_iff] at h
      obtain ⟨⟨inner, stats⟩, hinner, ⟨t', last⟩, hplace, rfl⟩ := h
      exact .again (scheduleBlock_step hs hinner) (entersAll_of_placeLeaves hplace)
  | loop count kind body => exact leaf_step rfl hs h

/-- Every successful run of the scheduler has a derivation. -/
theorem derives_all (u : Universe) :
    (∀ s s' stats, arrange u s = .ok (s', stats) → Derives u (.arranged s s' stats)) ∧
    (∀ chained ss after t p, placeAll u chained ss after t = .ok p → Derives u (.placedAll chained ss after t p)) ∧
    (∀ ss out stats, arrangeEach u ss = .ok (out, stats) → Derives u (.members ss out stats)) ∧
    (∀ topLevel ss out stats, splice u topLevel ss = .ok (out, stats) →
      Derives u (.sequence topLevel ss out stats)) := by
  apply arrange.mutual_induct
  -- one statement
  · intro g s' stats h
    simp only [arrange, pure_eq_ok_iff, Prod.mk.injEq] at h
    obtain ⟨rfl, rfl⟩ := h
    exact .gate
  · intro kind ss hs hm hp s' stats h
    simp only [arrange_block, bind_eq_ok_iff, pure_eq_ok_iff, Prod.mk.injEq] at h
    obtain ⟨⟨out, stats⟩, hbody, rfl, rfl⟩ := h
    exact .block (arrangeBody_step hs hm hp hbody)
  · intro count kind ss hs hm hp s' stats h
    simp only [arrange_loop, bind_eq_ok_iff, pure_eq_ok_iff, Prod.mk.injEq] at h
    obtain ⟨⟨out, stats⟩, hbody, rfl, rfl⟩ := h
    exact .loop (arrangeBody_step hs hm hp hbody)
  -- the statements of an unscheduled block, or a chain inside one
  · intro chained after t p h
    simp only [placeAll, pure_eq_ok_iff] at h
    subst h
    exact .none
  · intro chained s rest after t hs hrest p h
    simp only [placeAll_cons, bind_eq_ok_iff, pure_eq_ok_iff] at h
    obtain ⟨first, hfirst, q, hq, rfl⟩ := h
    exact .next (placeOne_step hs hfirst) (hrest first q hq)
  -- the members of a parallel block
  · intro out stats h
    simp only [arrangeEach, pure_eq_ok_iff, Prod.mk.injEq] at h
    obtain ⟨rfl, rfl⟩ := h
    exact .noMember
  · intro s rest hs hrest out stats h
    simp only [arrangeEach, bind_eq_ok_iff, pure_eq_ok_iff, Prod.mk.injEq] at h
    obtain ⟨⟨s', stats⟩, hs', ⟨others, more⟩, hothers, rfl, rfl⟩ := h
    exact .member (hs s' stats hs') (hrest others more hothers)
  -- the statements of a sequential block
  · intro topLevel out stats h
    simp only [splice, pure_eq_ok_iff, Prod.mk.injEq] at h
    obtain ⟨rfl, rfl⟩ := h
    exact .noPiece
  · intro topLevel s rest hs hrest out stats h
    simp only [splice_cons, bind_eq_ok_iff, pure_eq_ok_iff, Prod.mk.injEq] at h
    obtain ⟨⟨first, stats⟩, hfirst, ⟨others, more⟩, hothers, rfl, rfl⟩ := h
    exact .pieces (spliceOne_step hs hfirst) (hrest others more hothers)

theorem derives_splice {topLevel : Bool} (h : splice u topLevel ss = .ok (out, stats)) :
    Derives u (.sequence topLevel ss out stats) :=
  (derives_all u).2.2.2 topLevel ss out stats h

theorem derives_arrangeBody {kind : BlockKind} (h : arrangeBody u kind ss = .ok (out, stats)) :
    Derives u (.body kind ss out stats) := by
  obtain ⟨-, hplace, hmembers, hsplice⟩ := derives_all u
  exact arrangeBody_step (hsplice false ss) (hmembers ss) (hplace false ss none .empty) h

theorem derives_placeOne {p : Placed} (h : placeOne u s after t = .ok p) : Derives u (.placed s after t p) := by
  obtain ⟨harrange, hplace, -, -⟩ := derives_all u
  apply placeOne_step _ h
  cases s with
  | gate g => exact harrange (.gate g)
  | block kind ss =>
    cases kind with
    | sequential => exact hplace true ss after t
    | parallel => exact harrange (.block .parallel ss)
    | unscheduled => exact hplace false ss none .empty
  | loop count kind body => exact harrange (.loop count kind body)

end Schedule

end IonSchedule
