import Mathlib.Order.Bounds.Basic
import IonSchedule.Proofs.Preservation

/-! # Where a gate lands

A parallelizable gate joins an open moment or starts one at the end. Both are the same if the moments behind the
end are taken to be there already, open and with nothing in them: the gate then joins the first moment from the
earliest one on that accepts its slots. So what a timeline holds after a gate is placed can be read off moment
by moment.
-/
namespace IonSchedule

namespace Moment

/-- An open moment with nothing in it. -/
def blank : Moment := ⟨[], ∅, true⟩

variable {m : Moment} {ss : List Statement} {a b usage : Usage}

theorem accepts_blank : blank.accepts usage = true := by
  simp only [accepts, blank, Bool.true_and, Usage.disjoint_iff]
  intro x hx
  simp at hx

theorem blank_join : blank.join ss usage = ⟨ss, usage, true⟩ := by
  have hempty : (∅ : Usage) ∪ usage = usage := by
    apply Std.ExtTreeSet.ext_mem
    intro x
    simp [Std.ExtTreeSet.mem_union_iff]
  simp only [join, blank, List.nil_append, hempty]

/-- Whether a moment accepts some slots does not depend on what joins it with other slots. -/
theorem accepts_join (hab : a.disjoint b = true) : (m.join ss a).accepts b = m.accepts b := by
  have hunion : (m.usage ∪ a).disjoint b = m.usage.disjoint b := by
    rw [Bool.eq_iff_iff, Usage.disjoint_union_left]
    exact and_iff_left hab
  simp only [accepts, join, hunion]

end Moment

namespace Timeline

variable {u : Universe} {t : Timeline} {s : Statement} {a b usage : Usage} {after : Option Nat} {x : Slot}
  {i k : Nat}

/-- The moment with the given number, blank behind the end. -/
def momentAt (t : Timeline) (k : Nat) : Moment := t.moments[k]?.getD .blank

/-- The number of the moment that a parallelizable gate goes to. -/
def landing (t : Timeline) (usage : Usage) (after : Option Nat) : Nat :=
  (t.findOpen? usage after).getD t.moments.length

theorem momentAt_of_lt (h : k < t.moments.length) : t.momentAt k = t.moments[k] := by
  rw [momentAt, List.getElem?_eq_getElem h, Option.getD_some]

theorem momentAt_of_le (h : t.moments.length ≤ k) : t.momentAt k = .blank := by
  rw [momentAt, List.getElem?_eq_none h, Option.getD_none]

theorem usedAt_iff : t.UsedAt x k ↔ x ∈ (t.momentAt k).usage := by
  by_cases hk : k < t.moments.length
  · simp [UsedAt, momentAt_of_lt hk, hk]
  · have hle : t.moments.length ≤ k := by omega
    simp [UsedAt, momentAt_of_le hle, Moment.blank, hle]

/-- In a valid timeline the earliest moment is at most one behind the end. -/
theorem Valid.earliest_le_length (h : t.Valid u) (hafter : firstAfter after ≤ t.moments.length) :
    t.earliest usage after ≤ t.moments.length := by
  apply earliest_le_iff.2
  refine ⟨hafter, fun x _ i hi => ?_⟩
  exact ((h.lastUse x i).1 hi).1.lt_length

theorem firstAccepting?_eq_findIdx? (usage : Usage) (start : Nat) (ms : List Moment) :
    firstAccepting? usage start ms = (ms.findIdx? (·.accepts usage)).map (start + ·) := by
  induction ms generalizing start with
  | nil => rfl
  | cons m rest ih =>
    rw [firstAccepting?, List.findIdx?_cons, ih]
    by_cases hm : m.accepts usage = true
    · simp [hm]
    · have hshift : (fun k => start + 1 + k) = (start + ·) ∘ (· + 1) := by
        funext k
        simp only [Function.comp_apply]
        omega
      rw [if_neg hm, if_neg hm, hshift, Option.map_map]

theorem momentAt_add (start : Nat) : t.momentAt (start + k) = ((t.moments.drop start)[k]?).getD .blank := by
  rw [momentAt, List.getElem?_drop]

/-- A gate lands in the first moment, from the earliest one on, that accepts its slots. -/
theorem isLeast_landing (h : t.earliest usage after ≤ t.moments.length) :
    IsLeast {i | t.earliest usage after ≤ i ∧ (t.momentAt i).accepts usage = true} (t.landing usage after) := by
  unfold landing findOpen?
  generalize t.earliest usage after = start at h
  simp only [firstAccepting?_eq_findIdx?]
  cases hindex : (t.moments.drop start).findIdx? (·.accepts usage) with
  | none =>
    rw [List.findIdx?_eq_none_iff] at hindex
    simp only [Option.map_none, Option.getD_none]
    refine ⟨⟨h, ?_⟩, ?_⟩
    · rw [momentAt_of_le (Nat.le_refl _)]
      exact Moment.accepts_blank
    · rintro i ⟨hstart, haccepts⟩
      by_contra hlt
      have hmem : t.momentAt i ∈ t.moments.drop start := by
        rw [momentAt_of_lt (by omega), List.mem_drop_iff_getElem]
        exact ⟨i - start, by omega, by congr 1; omega⟩
      rw [hindex _ hmem] at haccepts
      cases haccepts
  | some k =>
    obtain ⟨hk, haccepts, hfirst⟩ := List.findIdx?_eq_some_iff_getElem.1 hindex
    simp only [Option.map_some, Option.getD_some]
    refine ⟨⟨Nat.le_add_right _ _, ?_⟩, ?_⟩
    · rw [momentAt_add, List.getElem?_eq_getElem hk]
      exact haccepts
    · rintro i ⟨hstart, hi⟩
      by_contra hlt
      have hbefore : i - start < k := by omega
      rw [← Nat.add_sub_of_le hstart, momentAt_add, List.getElem?_eq_getElem (Nat.lt_trans hbefore hk)] at hi
      exact hfirst (i - start) hbefore hi

/-- Placing a gate changes only the moment where it lands. -/
theorem momentAt_place (t : Timeline) (s : Statement) (usage : Usage) (after : Option Nat) (k : Nat) :
    (t.place s usage after).1.momentAt k =
      if k = t.landing usage after then (t.momentAt k).join [s] usage else t.momentAt k := by
  unfold place landing
  cases hi : t.findOpen? usage after with
  | none =>
    simp only [push, Option.getD_none, momentAt]
    by_cases hk : k = t.moments.length
    · simp [hk, Moment.blank_join]
    · rw [if_neg hk]
      by_cases hlt : k < t.moments.length
      · simp [List.getElem?_append_left hlt]
      · rw [List.getElem?_eq_none (by simp; omega), List.getElem?_eq_none (by omega)]
  | some i =>
    obtain ⟨pre, m, post, hsplit, rfl, -⟩ := exists_split_of_findOpen? hi
    simp only [merge, Option.getD_some, momentAt, List.getElem?_modify]
    by_cases hk : k = pre.length
    · simp [hk, hsplit]
    · simp [hk, Ne.symm hk]

theorem length_place (t : Timeline) (s : Statement) (usage : Usage) (after : Option Nat) :
    (t.place s usage after).1.moments.length = max t.moments.length (t.landing usage after + 1) := by
  unfold place landing
  cases hi : t.findOpen? usage after with
  | none => simp [push]
  | some i =>
    obtain ⟨pre, m, post, hsplit, rfl, -⟩ := exists_split_of_findOpen? hi
    simp only [merge, List.length_modify, Option.getD_some, hsplit, List.length_append, List.length_cons]
    omega

theorem lastUse_place (t : Timeline) (s : Statement) (usage : Usage) (after : Option Nat) :
    (t.place s usage after).1.lastUse = t.noteUse usage (t.landing usage after) := by
  unfold place landing
  cases t.findOpen? usage after with
  | none => rfl
  | some i => rfl

theorem landed_place (t : Timeline) (s : Statement) (usage : Usage) (after : Option Nat) :
    (t.place s usage after).2 = t.landing usage after := by
  unfold place landing
  cases t.findOpen? usage after with
  | none => rfl
  | some i => rfl

/-- A slot is in use where it was before and where the gate lands. -/
theorem usedAt_place :
    (t.place s usage after).1.UsedAt x k ↔ t.UsedAt x k ∨ k = t.landing usage after ∧ x ∈ usage := by
  rw [usedAt_iff, usedAt_iff, momentAt_place]
  by_cases hk : k = t.landing usage after
  · simp [hk, Moment.join, Std.ExtTreeSet.mem_union_iff]
  · simp [hk]

end Timeline

namespace Schedule

variable {u : Universe} {t : Timeline} {g : GateCall} {used : Usage} {after : Option Nat}

theorem placeLeaf_of_isParallelizable (hg : g.isParallelizable = true) (hu : u.gateUsage g = .ok used) :
    placeLeaf u after t (.gate g) = .ok ((t.place (.gate g) used after).1, some (t.landing used after)) := by
  rw [← Timeline.landed_place t (.gate g)]
  simp only [placeLeaf, hu, hg, if_true]
  rfl

theorem placeOne_of_isParallelizable (hg : g.isParallelizable = true) (hu : u.gateUsage g = .ok used) :
    placeOne u (.gate g) after t = .ok ⟨(t.place (.gate g) used after).1, some (t.landing used after), 0⟩ := by
  have harranged : arrange u (.gate g) = .ok (.gate g, 0) := by rw [arrange]; rfl
  simp only [placeOne, harranged, bind, Except.bind, placeLeaf_of_isParallelizable hg hu]
  rfl

/-- A gate among the statements of an unscheduled block leaves its mark on the timeline only. -/
theorem placeAll_of_isParallelizable (hg : g.isParallelizable = true) (hu : u.gateUsage g = .ok used)
    (ss : List Statement) :
    placeAll u false (.gate g :: ss) after t = placeAll u false ss after (t.place (.gate g) used after).1 := by
  rw [placeAll_cons, placeOne_of_isParallelizable hg hu]
  simp only [bind, Except.bind, Bool.false_eq_true, if_false]
  cases placeAll u false ss after (t.place (.gate g) used after).1 with
  | error e => rfl
  | ok p => simp only [Stats.zero_add, pure, Except.pure]

theorem valid_place (ht : t.Valid u) (hg : g.isParallelizable = true) (hu : u.gateUsage g = .ok used) :
    (t.place (.gate g) used after).1.Valid u :=
  (enters_of_placeLeaf (placeLeaf_of_isParallelizable hg hu)).valid ht

end Schedule

end IonSchedule
