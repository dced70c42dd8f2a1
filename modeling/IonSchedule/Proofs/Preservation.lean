import IonSchedule.Proofs.ScheduledCircuit

/-! # Scheduling preserves independent readings

Whatever enters a timeline lands behind every moment that shares a slot with it. Under an independent reading it
may therefore be read as if it came last, so placing statements adds their sum at the end, and the moments of a
block read the same as the block. Nothing else that the scheduler does changes the order in which statements are
listed.
-/
namespace IonSchedule

namespace Schedule

variable {u : Universe} {after last : Option Nat} {t t' : Timeline} {s : Statement} {ss : List Statement}
  {j : Judgement}

theorem Enters.valid (h : Enters u after t s t' last) (hv : t.Valid u) : t'.Valid u := by
  cases h with
  | skip kind => exact hv
  | join hs hne hu hi => exact hv.merge hi hu (Statement.isParallelGroup_of_group? hs)
  | start hg hu hi => exact hv.push ⟨hu, by simp, fun _ => by simp [isParallelGroup, Statement.gate?, hg], by simp⟩
  | alone hne hu hs => exact hv.push ⟨hu, by simp, by simp, fun _ => ⟨s, rfl⟩⟩

/-- A property of timelines passes from the timeline on which something is placed to the one that comes out. -/
def Judgement.Maintains (P : Timeline → Prop) : Judgement → Prop
  | .placed _ _ t p => P t → P p.timeline
  | .placedAll _ _ _ t p => P t → P p.timeline
  | _ => True

/-- What each leaf that enters keeps is kept by all that is placed. -/
theorem Derives.maintains {P : Timeline → Prop} (h : Derives u j)
    (step : ∀ {after last t t' s}, Enters u after t s t' last → P t → P t') : j.Maintains P := by
  induction h with
  | chain placed ih => exact ih
  | again body enters ih => exact enters.preserves (fun henters (_ : True) => step henters) fun _ _ => trivial
  | leaf hleaf arranged enters ih => exact step enters
  | none => exact id
  | next first others ihfirst ihothers => exact fun ht => ihothers (ihfirst ht)
  | _ => trivial

theorem Derives.keepsValid (h : Derives u j) : j.Maintains (Timeline.Valid u) := h.maintains Enters.valid

end Schedule

/-- The statements of all moments in order. -/
def Timeline.contents (t : Timeline) : List Statement := t.moments.flatMap Moment.statements

namespace Reading

open Schedule

variable {M : Type} [AddMonoid M] {r : Reading M} {u : Universe} {after last : Option Nat} {t t' : Timeline}
  {s : Statement} {ss : List Statement} {j : Judgement}

theorem readAll_of_group? {members : List Statement} (h : s.group? = some members) :
    r.readAll members = r.read s := by
  cases s with
  | gate g =>
    simp only [Statement.group?, Option.ite_none_right_eq_some, Option.some.injEq] at h
    simp [← h.2]
  | block kind ms =>
    simp only [Statement.group?, Option.ite_none_right_eq_some, Option.some.injEq] at h
    simp [h.2]
  | loop count kind body => simp [Statement.group?] at h

/-- A finished timeline reads as the statements of its moments. -/
theorem readAll_statements (r : Reading M) (t : Timeline) : r.readAll t.statements = r.readAll t.contents := by
  unfold Timeline.statements Timeline.contents
  induction t.moments with
  | nil => simp
  | cons m rest ih =>
    rw [List.flatMap_cons, readAll_append, ← ih]
    rcases hm : m.statements with _ | ⟨first, _ | ⟨second, others⟩⟩
    · simp [Moment.toStatement?, hm]
    · simp [Moment.toStatement?, hm]
    · simp [Moment.toStatement?, hm]

/-- Statements whose slots are free in some moments commute with what is there. -/
theorem Independent.commute_moments (hr : r.Independent u) {ms : List Moment} {members : List Statement}
    {usage : Usage} (hms : ∀ m ∈ ms, m.WellFormed u) (hfree : ∀ m ∈ ms, m.usage.disjoint usage = true)
    (hu : u.usageAll members = .ok usage) :
    AddCommute (r.readAll (ms.flatMap Moment.statements)) (r.readAll members) := by
  induction ms with
  | nil => simp
  | cons m ms ih =>
    rw [List.flatMap_cons, readAll_append]
    have hm : AddCommute (r.readAll m.statements) (r.readAll members) :=
      hr _ _ _ _ (hms m (by simp)).usage hu (hfree m (by simp))
    exact hm.add_left (ih (fun n hn => hms n (by simp [hn])) (fun n hn => hfree n (by simp [hn])))

theorem Independent.readAll_merge (hr : r.Independent u) (hv : t.Valid u) {members : List Statement} {usage : Usage}
    {i : Nat} (hu : u.usageAll members = .ok usage) (hi : t.findOpen? usage after = some i) :
    r.readAll (t.merge i members usage).1.contents = r.readAll t.contents + r.readAll members := by
  obtain ⟨pre, m, post, hsplit, rfl, -, hfree⟩ := hv.findOpen?_eq_some hi
  have hcomm : AddCommute (r.readAll (post.flatMap Moment.statements)) (r.readAll members) :=
    hr.commute_moments (fun n hn => hv.moments n (by simp [hsplit, hn])) (fun n hn => hfree n (by simp [hn])) hu
  rw [Timeline.contents, Timeline.contents, Timeline.merge_moments hsplit, hsplit]
  simp only [List.flatMap_append, List.flatMap_cons, readAll_append, Moment.join, add_assoc, hcomm.eq]

theorem readAll_push (r : Reading M) (t : Timeline) (members : List Statement) (usage : Usage) (isOpen : Bool) :
    r.readAll (t.push members usage isOpen).1.contents = r.readAll t.contents + r.readAll members := by
  simp [Timeline.push, Timeline.contents]

theorem Independent.readAll_enters (hr : r.Independent u) (h : Enters u after t s t' last) (hv : t.Valid u) :
    r.readAll t'.contents = r.readAll t.contents + r.read s := by
  cases h with
  | skip kind => simp
  | join hs hne hu hi => rw [hr.readAll_merge hv hu hi, readAll_of_group? hs]
  | start hg hu hi => simp [readAll_push]
  | alone hne hu hs => simp [Timeline.isolate, readAll_push]

theorem Independent.readAll_entersAll (hr : r.Independent u) (h : EntersAll u after t ss t' last) (hv : t.Valid u) :
    r.readAll t'.contents = r.readAll t.contents + r.readAll ss := by
  induction h with
  | nil => simp
  | cons first others ih =>
    rw [ih (first.valid hv), hr.readAll_enters first hv, readAll_cons, add_assoc]

/-- What goes in is read the same as what comes out; on a timeline it is added at the end. -/
def Keeps (r : Reading M) (u : Universe) : Judgement → Prop
  | .arranged s s' _ => r.read s' = r.read s
  | .members ss out _ => r.readAll out = r.readAll ss
  | .sequence _ ss out _ => r.readAll out = r.readAll ss
  | .piece _ s out _ => r.readAll out = r.read s
  | .body _ ss out _ => r.readAll out = r.readAll ss
  | .placed s _ t p => t.Valid u → r.readAll p.timeline.contents = r.readAll t.contents + r.read s
  | .placedAll _ ss _ t p => t.Valid u → r.readAll p.timeline.contents = r.readAll t.contents + r.readAll ss

theorem Independent.keeps (hr : r.Independent u) (h : Derives u j) : r.Keeps u j := by
  induction h with
  | gate => rfl
  | block body ih =>
    simp only [Keeps, read_block] at ih ⊢
    exact ih
  | loop body ih =>
    simp only [Keeps, read_loop] at ih ⊢
    rw [ih]
  | noMember => rfl
  | member first others ihfirst ihothers =>
    simp only [Keeps, readAll_cons] at ihfirst ihothers ⊢
    rw [ihfirst, ihothers]
  | noPiece => rfl
  | pieces head tail ihhead ihtail =>
    simp only [Keeps, readAll_cons, readAll_append] at ihhead ihtail ⊢
    rw [ihhead, ihtail]
  | moments body ih =>
    simp only [Keeps, read_block] at ih ⊢
    exact ih
  | spliced body ih =>
    simp only [Keeps, read_block] at ih ⊢
    exact ih
  | nested body ih =>
    simp only [Keeps, readAll_cons, readAll_nil, read_block, add_zero] at ih ⊢
    exact ih
  | kept hleaf arranged ih =>
    simp only [Keeps, readAll_cons, readAll_nil, add_zero] at ih ⊢
    exact ih
  | sequential sequence ih => exact ih
  | parallel members ih => exact ih
  | unscheduled placed ih =>
    have hread := ih Timeline.valid_empty
    simp only [Keeps, Placed.close, readAll_statements]
    simpa [Timeline.contents, Timeline.empty] using hread
  | chain placed ih =>
    simp only [Keeps, read_block] at ih ⊢
    exact ih
  | again body enters ih =>
    intro hv
    simp only [Keeps] at ih
    rw [hr.readAll_entersAll enters hv, ih, read_block]
  | leaf hleaf arranged enters ih =>
    intro hv
    simp only [Keeps] at ih
    rw [hr.readAll_enters enters hv, ih]
  | none => simp [Keeps]
  | next first others ihfirst ihothers =>
    intro hv
    have hmid := first.keepsValid hv
    rw [ihothers hmid, ihfirst hv, readAll_cons, add_assoc]

theorem Independent.readAll_arrangesBlock (hr : r.Independent u) {topLevel : Bool} {b b' : Block}
    (h : ArrangesBlock u topLevel b b') : r.readAll b'.statements = r.readAll b.statements := by
  cases h with
  | body statements => exact hr.keeps statements
  | top statements => exact hr.keeps statements
  | topMoments statements => exact hr.keeps statements

end Reading

namespace Schedule

variable {u : Universe} {stats : Stats}

/-- Scheduling keeps the calls of a statement. -/
theorem Derives.calls_arranged {s s' : Statement} (h : Derives u (.arranged s s' stats)) :
    Reading.calls.read s' = Reading.calls.read s :=
  (Reading.independent_of_comm Reading.calls u).keeps h

theorem Derives.calls_body {kind : BlockKind} {ss out : List Statement} (h : Derives u (.body kind ss out stats)) :
    Reading.calls.readAll out = Reading.calls.readAll ss :=
  (Reading.independent_of_comm Reading.calls u).keeps h

end Schedule

end IonSchedule
