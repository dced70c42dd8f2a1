import Mathlib.Logic.Relation
import Mathlib.Order.Bounds.Basic
import IonSchedule.Proofs.Landing
import IonSchedule.Proofs.ParallelLegality

/-! # Timelines that can be reached

Gates, groups of gates and single statements are put on a timeline in any order, each behind any moment.
Whatever comes to be reached in this way, the moments record exactly the slots of what they hold and the table
of last uses is right. So from the earliest moment for some slots on, all moments are free of them, and where a
gate may join depends only on which of these moments are open.
-/
namespace IonSchedule

theorem Universe.mem_usageAll_iff {u : Universe} {ss : List Statement} {used : Usage} (h : u.usageAll ss = .ok used)
    (x : Slot) : x ∈ used ↔ ∃ s ∈ ss, ∃ slots, u.usage s = .ok slots ∧ x ∈ slots := by
  constructor
  · intro hx
    rw [usageAll_eq_ok_iff] at h
    obtain ⟨g, hg, htouches⟩ := (h.mem_iff x).1 hx
    obtain ⟨s, hs, hgs⟩ := Reading.mem_calls_readAll_iff.1 hg
    obtain ⟨slots, hslots⟩ := usage_of_mem ((usageAll_eq_ok_iff ss).2 h) hs
    exact ⟨s, hs, slots, hslots, (((usage_eq_ok_iff s).1 hslots).mem_iff x).2 ⟨g, hgs, htouches⟩⟩
  · rintro ⟨s, hs, slots, hslots, hx⟩
    exact mem_of_mem_usage h hs hslots hx

namespace Timeline

variable {u : Universe} {t t' : Timeline} {usage : Usage} {after : Option Nat} {x : Slot} {i : Nat} {m : Moment}

/-- One call that puts something on a timeline, with the slots that it touches. A group may be empty, and
`after` need not be the number of a moment. -/
inductive Step (u : Universe) (t : Timeline) : Timeline → Prop
  | place {g : GateCall} {usage : Usage} (after : Option Nat) (hg : g.isParallelizable = true)
      (hu : u.gateUsage g = .ok usage) : Step u t (t.place (.gate g) usage after).1
  | placeGroup {members : List Statement} {usage : Usage} (after : Option Nat)
      (hg : isParallelGroup .parallel members = true) (hu : u.usageAll members = .ok usage) :
      Step u t (t.placeGroup members usage after).1
  | isolate {s : Statement} {usage : Usage} (hu : u.usage s = .ok usage) : Step u t (t.isolate s usage).1

/-- Calls lead from the empty timeline to this one. -/
def Reached (u : Universe) (t : Timeline) : Prop := Relation.ReflTransGen (Step u) empty t

theorem Valid.isolate {s : Statement} (h : t.Valid u) (hu : u.usage s = .ok usage) :
    (t.isolate s usage).1.Valid u :=
  h.push ⟨Universe.usageAll_singleton.2 hu, by simp, by simp, fun _ => ⟨s, rfl⟩⟩

theorem Valid.placeGroup {members : List Statement} (h : t.Valid u) (hg : isParallelGroup .parallel members = true)
    (hu : u.usageAll members = .ok usage) : (t.placeGroup members usage after).1.Valid u := by
  unfold Timeline.placeGroup
  cases hi : t.findOpen? usage after with
  | some i => exact h.merge hi hu hg
  | none => exact h.isolate (by rw [Universe.usage, hu])

theorem Step.valid (h : Step u t t') (ht : t.Valid u) : t'.Valid u := by
  cases h with
  | place after hg hu => exact Schedule.valid_place ht hg hu
  | placeGroup after hg hu => exact ht.placeGroup hg hu
  | isolate hu => exact ht.isolate hu

theorem Reached.valid (h : t.Reached u) : t.Valid u := by
  induction h with
  | refl => exact valid_empty
  | tail _ hstep ih => exact hstep.valid ih

theorem Valid.lastUse_eq_some_iff (h : t.Valid u) : t.lastUse[x]? = some i ↔ IsGreatest {j | t.UsedAt x j} i :=
  h.lastUse x i

theorem Valid.lastUse_eq_none_iff (h : t.Valid u) : t.lastUse[x]? = none ↔ ∀ j, ¬ t.UsedAt x j := by
  constructor
  · intro hnone j hj
    obtain ⟨k, hk, -⟩ := h.le_lastUse hj
    rw [hnone] at hk
    cases hk
  · intro hunused
    rw [Option.eq_none_iff_forall_ne_some]
    intro k hk
    exact hunused k ((h.lastUse x k).1 hk).1

/-- The table of last uses keeps every moment from the earliest one on free of the slots. -/
theorem Valid.disjoint_of_earliest_le (h : t.Valid u) (hm : t.moments[i]? = some m)
    (hi : t.earliest usage after ≤ i) : m.usage.disjoint usage = true := by
  rw [Usage.disjoint_iff]
  intro x hx hused
  have hlt : i < t.earliest usage after := h.lt_earliest hused ⟨m, hm, hx⟩
  omega

theorem Valid.accepts_of_earliest_le (h : t.Valid u) (hm : t.moments[i]? = some m)
    (hi : t.earliest usage after ≤ i) : m.accepts usage = m.isOpen := by
  rw [Moment.accepts, h.disjoint_of_earliest_le hm hi, Bool.and_true]

/-- The moment to join is the first one that accepts the slots. -/
theorem findOpen?_eq_some_iff : t.findOpen? usage after = some i ↔
    IsLeast {k | t.earliest usage after ≤ k ∧ ∃ m, t.moments[k]? = some m ∧ m.accepts usage = true} i := by
  simp only [findOpen?, firstAccepting?_eq_findIdx?, Option.map_eq_some_iff, List.findIdx?_eq_some_iff_getElem]
  generalize t.earliest usage after = start
  constructor
  · rintro ⟨k, ⟨hk, haccepts, hfirst⟩, rfl⟩
    refine ⟨⟨Nat.le_add_right _ _, _, ?_, haccepts⟩, ?_⟩
    · rw [← List.getElem?_drop, List.getElem?_eq_getElem hk]
    · rintro j ⟨hstart, m, hm, hj⟩
      by_contra hlt
      have hbefore : j - start < k := by omega
      apply hfirst (j - start) hbefore
      rw [← Nat.add_sub_of_le hstart, ← List.getElem?_drop, List.getElem?_eq_some_iff] at hm
      obtain ⟨hlength, rfl⟩ := hm
      exact hj
  · rintro ⟨⟨hstart, m, hm, haccepts⟩, hleast⟩
    rw [← Nat.add_sub_of_le hstart, ← List.getElem?_drop, List.getElem?_eq_some_iff] at hm
    obtain ⟨hlt, rfl⟩ := hm
    refine ⟨i - start, ⟨hlt, haccepts, fun j hj hj' => ?_⟩, Nat.add_sub_of_le hstart⟩
    have hle : i ≤ start + j := by
      refine hleast ⟨Nat.le_add_right _ _, _, ?_, hj'⟩
      rw [← List.getElem?_drop, List.getElem?_eq_getElem]
    omega

/-- The numbers of the open moments from a given one on. -/
def openFrom (t : Timeline) (start : Nat) : Set Nat :=
  {k | start ≤ k ∧ ∃ m, t.moments[k]? = some m ∧ m.isOpen = true}

theorem Valid.findOpen?_eq_some_iff (h : t.Valid u) :
    t.findOpen? usage after = some i ↔ IsLeast (t.openFrom (t.earliest usage after)) i := by
  have hset : {k | t.earliest usage after ≤ k ∧ ∃ m, t.moments[k]? = some m ∧ m.accepts usage = true} =
      t.openFrom (t.earliest usage after) := by
    ext k
    refine and_congr_right fun hk => exists_congr fun m => and_congr_right fun hm => ?_
    rw [h.accepts_of_earliest_le hm hk]
  rw [Timeline.findOpen?_eq_some_iff, hset]

theorem Valid.findOpen?_eq_none_iff (h : t.Valid u) :
    t.findOpen? usage after = none ↔ t.openFrom (t.earliest usage after) = ∅ := by
  rw [Option.eq_none_iff_forall_ne_some, Set.eq_empty_iff_forall_notMem]
  constructor
  · intro hnone k hk
    classical
    -- a set of numbers that is not empty has a least element
    have hopen : ∃ k, k ∈ t.openFrom (t.earliest usage after) := ⟨k, hk⟩
    exact hnone _ (h.findOpen?_eq_some_iff.2 ⟨Nat.find_spec hopen, fun _ => Nat.find_min' hopen⟩)
  · intro hempty i hi
    exact hempty i (h.findOpen?_eq_some_iff.1 hi).1

/-- However a timeline was reached, no moment of it is empty, a moment records the union of what its statements
touch, open moments hold parallelizable gates and closed ones a single statement. The table of last uses maps a
slot to the greatest moment that uses it, and has no entry for a slot that is not used. So from the earliest
moment for some slots on, all moments are free of them, and the moment to join is the first open one among
these. -/
theorem reached_timeline_consistent {u : Universe} {t : Timeline} (h : t.Reached u) :
    (∀ m ∈ t.moments, m.statements ≠ [] ∧ (∀ s ∈ m.statements, ∃ used, u.usage s = .ok used) ∧
      (∀ x, x ∈ m.usage ↔ ∃ s ∈ m.statements, ∃ used, u.usage s = .ok used ∧ x ∈ used) ∧
      (m.isOpen = true → ∀ s ∈ m.statements, ∃ g, s = .gate g ∧ g.isParallelizable = true) ∧
      (m.isOpen = false → ∃ s, m.statements = [s])) ∧
    (∀ x, (∀ i, t.lastUse[x]? = some i ↔ IsGreatest {j | t.UsedAt x j} i) ∧
      (t.lastUse[x]? = none ↔ ∀ j, ¬ t.UsedAt x j)) ∧
    ∀ usage after,
      (∀ i m, t.moments[i]? = some m → t.earliest usage after ≤ i →
        m.usage.disjoint usage = true ∧ m.accepts usage = m.isOpen) ∧
      (∀ i, t.findOpen? usage after = some i ↔ IsLeast (t.openFrom (t.earliest usage after)) i) ∧
      (t.findOpen? usage after = none ↔ t.openFrom (t.earliest usage after) = ∅) := by
  have hv := h.valid
  refine ⟨fun m hm => ?_, fun x => ⟨fun i => hv.lastUse_eq_some_iff, hv.lastUse_eq_none_iff⟩, fun usage after => ?_⟩
  · have hwell := hv.moments m hm
    refine ⟨hwell.nonempty, fun s => Universe.usage_of_mem hwell.usage, Universe.mem_usageAll_iff hwell.usage,
      ?_, ?_⟩
    · exact fun hopen s => Statement.gate_of_mem_group (hwell.gates hopen)
    · exact hwell.single
  · refine ⟨fun i m hm hi => ?_, fun i => hv.findOpen?_eq_some_iff, hv.findOpen?_eq_none_iff⟩
    exact ⟨hv.disjoint_of_earliest_le hm hi, hv.accepts_of_earliest_le hm hi⟩

open Sample in
/-- Five calls: two gates share the first moment, and the group finds no moment to join. -/
def sampleRun : Timeline :=
  let q (i : Nat) : Slot := ⟨.register "q", i⟩
  let t := (empty.place (px (onQ 0)) {q 0} none).1
  let t := (t.isolate (sxx (onQ 1) (onQ 2)) {q 1, q 2}).1
  let t := (t.place (px (onQ 3)) {q 3} none).1
  let t := (t.placeGroup [px (onQ 1), px (onQ 0)] {q 1, q 0} (some 0)).1
  (t.place (px (onQ 2)) {q 2} (some 0)).1

theorem reached_sampleRun : sampleRun.Reached Circuit.sample.slots := by
  unfold sampleRun
  refine .tail ?_ (.place (some 0) rfl rfl)
  refine .tail ?_ (.placeGroup (some 0) rfl rfl)
  refine .tail ?_ (.place none rfl rfl)
  refine .tail ?_ (.isolate rfl)
  exact .tail .refl (.place none rfl rfl)

theorem reached_timeline_consistent_sampleRun :
    sampleRun.Reached Circuit.sample.slots ∧ sampleRun.moments.map (·.isOpen) = [true, false, false, true] ∧
      IsGreatest {j | sampleRun.UsedAt ⟨.register "q", 1⟩ j} 2 ∧
      sampleRun.earliest {⟨.register "q", 3⟩} (some 0) = 1 ∧ IsLeast (sampleRun.openFrom 1) 3 := by
  obtain ⟨-, hlast, hopen⟩ := reached_timeline_consistent reached_sampleRun
  have hearliest : sampleRun.earliest {⟨.register "q", 3⟩} (some 0) = 1 := by decide +kernel
  refine ⟨reached_sampleRun, by decide +kernel, ((hlast _).1 2).1 (by decide +kernel), hearliest, ?_⟩
  rw [← hearliest]
  exact ((hopen _ _).2.1 3).1 (by decide +kernel)

end Timeline

end IonSchedule
