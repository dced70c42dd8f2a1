import Mathlib.Data.Nat.Find
import IonSchedule.Timeline
import IonSchedule.Proofs.Reading

/-! # The invariant of a timeline

The table of last uses names, for each slot, the greatest moment that uses the slot. So from the earliest moment
for some slots on, no moment uses any of them, and what joins a moment there may be read as if it came last.
Open moments hold parallelizable gates and closed ones a single statement.
-/
namespace IonSchedule

namespace Moment

/-- The recorded slots are those of the statements, and only an open moment may hold more than one statement. -/
structure WellFormed (u : Universe) (m : Moment) : Prop where
  usage : u.usageAll m.statements = .ok m.usage
  nonempty : m.statements ≠ []
  gates : m.isOpen = true → isParallelGroup .parallel m.statements = true
  single : m.isOpen = false → ∃ s, m.statements = [s]

theorem WellFormed.join {u : Universe} {m : Moment} (h : m.WellFormed u) (hopen : m.isOpen = true)
    {members : List Statement} {usage : Usage} (hu : u.usageAll members = .ok usage)
    (hg : isParallelGroup .parallel members = true) : (m.join members usage).WellFormed u where
  usage := Universe.usageAll_append h.usage hu
  nonempty := by simp [Moment.join, h.nonempty]
  gates := by
    intro _
    have hm := h.gates hopen
    simp only [isParallelGroup, Bool.and_eq_true, decide_true, true_and, Moment.join, List.all_append] at hm hg ⊢
    exact ⟨hm, hg⟩
  single := by simp [Moment.join, hopen]

end Moment

namespace Timeline

/-- Some statement of the moment numbered `i` uses the slot. -/
def UsedAt (t : Timeline) (x : Slot) (i : Nat) : Prop := ∃ m, t.moments[i]? = some m ∧ x ∈ m.usage

structure Valid (u : Universe) (t : Timeline) : Prop where
  moments : ∀ m ∈ t.moments, m.WellFormed u
  lastUse : ∀ x i, t.lastUse[x]? = some i ↔ t.UsedAt x i ∧ ∀ j, t.UsedAt x j → j ≤ i

variable {u : Universe} {t t' : Timeline} {usage : Usage} {after : Option Nat} {x : Slot} {i j : Nat}

theorem UsedAt.lt_length (h : t.UsedAt x i) : i < t.moments.length := by
  obtain ⟨m, hm, -⟩ := h
  exact (List.getElem?_eq_some_iff.1 hm).1

theorem valid_empty : empty.Valid u := by
  refine ⟨by simp [empty], fun x i => ?_⟩
  simp [empty, UsedAt]

/-- A used slot has a last use. -/
theorem Valid.le_lastUse (h : t.Valid u) (hx : t.UsedAt x i) : ∃ j, t.lastUse[x]? = some j ∧ i ≤ j := by
  classical
  have hi : i ≤ t.moments.length := Nat.le_of_lt hx.lt_length
  refine ⟨Nat.findGreatest (t.UsedAt x) t.moments.length, (h.lastUse x _).2 ⟨?_, ?_⟩, ?_⟩
  · exact Nat.findGreatest_spec hi hx
  · exact fun j hj => Nat.le_findGreatest (Nat.le_of_lt hj.lt_length) hj
  · exact Nat.le_findGreatest hi hx

section Earliest

variable (lastUse : Std.ExtTreeMap Slot Nat Slot.order)

/-- One slot raises the bound past its last use. -/
private def raise (bound : Nat) (slot : Slot) : Nat := ((lastUse[slot]?).map (max bound <| · + 1)).getD bound

private theorem raise_le_iff {bound n : Nat} {slot : Slot} :
    raise lastUse bound slot ≤ n ↔ bound ≤ n ∧ ∀ i, lastUse[slot]? = some i → i < n := by
  unfold raise
  cases lastUse[slot]? with
  | none => simp
  | some k =>
    simp only [Option.map_some, Option.getD_some, Option.some.injEq, forall_eq', Nat.max_le]
    exact Iff.rfl

private theorem foldl_raise_le_iff {slots : List Slot} {bound n : Nat} :
    slots.foldl (raise lastUse) bound ≤ n ↔ bound ≤ n ∧ ∀ x ∈ slots, ∀ i, lastUse[x]? = some i → i < n := by
  induction slots generalizing bound with
  | nil => simp
  | cons slot rest ih => rw [List.foldl_cons, ih, raise_le_iff, List.forall_mem_cons, and_assoc]

end Earliest

/-- The number of the first moment after `after`. -/
def firstAfter (after : Option Nat) : Nat := (after.map (· + 1)).getD 0

/-- The earliest moment is the least one behind `after` and behind the last use of each of the slots. -/
theorem earliest_le_iff {n : Nat} :
    t.earliest usage after ≤ n ↔ firstAfter after ≤ n ∧ ∀ x ∈ usage, ∀ i, t.lastUse[x]? = some i → i < n := by
  simp only [← Std.ExtTreeSet.mem_toList]
  exact foldl_raise_le_iff t.lastUse

theorem firstAfter_le_earliest (t : Timeline) (usage : Usage) (after : Option Nat) :
    firstAfter after ≤ t.earliest usage after :=
  (earliest_le_iff.1 (Nat.le_refl _)).1

theorem lastUse_lt_earliest (hx : x ∈ usage) (hi : t.lastUse[x]? = some i) : i < t.earliest usage after :=
  (earliest_le_iff.1 (Nat.le_refl _)).2 x hx i hi

/-- From the earliest moment on, none of the slots is in use. -/
theorem Valid.lt_earliest (h : t.Valid u) (hx : x ∈ usage) (hi : t.UsedAt x i) : i < t.earliest usage after := by
  obtain ⟨j, hj, hle⟩ := h.le_lastUse hi
  exact Nat.lt_of_le_of_lt hle (lastUse_lt_earliest hx hj)

theorem firstAccepting?_eq_some {moments : List Moment} {start : Nat}
    (h : firstAccepting? usage start moments = some i) :
    ∃ pre m post, moments = pre ++ m :: post ∧ i = start + pre.length ∧ m.accepts usage = true := by
  induction moments generalizing start with
  | nil => simp [firstAccepting?] at h
  | cons m rest ih =>
    by_cases hm : m.accepts usage = true
    · simp only [firstAccepting?, hm, if_true, Option.some.injEq] at h
      exact ⟨[], m, rest, rfl, h.symm, hm⟩
    · simp only [firstAccepting?, hm] at h
      obtain ⟨pre, n, post, rfl, rfl, hn⟩ := ih h
      exact ⟨m :: pre, n, post, rfl, by simp only [List.length_cons]; omega, hn⟩

theorem earliest_le_of_findOpen? (hi : t.findOpen? usage after = some i) : t.earliest usage after ≤ i := by
  obtain ⟨pre, m, post, -, rfl, -⟩ := firstAccepting?_eq_some hi
  exact Nat.le_add_right _ _

/-- The moment to join is one of the timeline, and it accepts the slots. -/
theorem exists_split_of_findOpen? (hi : t.findOpen? usage after = some i) :
    ∃ pre m post, t.moments = pre ++ m :: post ∧ i = pre.length ∧ m.accepts usage = true := by
  obtain ⟨pre, m, post, hdrop, rfl, hm⟩ := firstAccepting?_eq_some hi
  have hstart : t.earliest usage after ≤ t.moments.length := by
    have hlength := congrArg List.length hdrop
    simp only [List.length_drop, List.length_append, List.length_cons] at hlength
    omega
  refine ⟨t.moments.take (t.earliest usage after) ++ pre, m, post, ?_, by simp [hstart], hm⟩
  rw [List.append_assoc, ← hdrop, List.take_append_drop]

/-- The moment to join splits the timeline: it is open, and it and all later ones are free of the slots. -/
theorem Valid.findOpen?_eq_some (h : t.Valid u) (hi : t.findOpen? usage after = some i) :
    ∃ pre m post, t.moments = pre ++ m :: post ∧ i = pre.length ∧ m.isOpen = true ∧
      ∀ n ∈ m :: post, n.usage.disjoint usage = true := by
  have hearliest := earliest_le_of_findOpen? hi
  obtain ⟨pre, m, post, hsplit, rfl, hm⟩ := exists_split_of_findOpen? hi
  refine ⟨pre, m, post, hsplit, rfl, ?_, ?_⟩
  · simp only [Moment.accepts, Bool.and_eq_true] at hm
    exact hm.1
  · intro n hn
    rw [Usage.disjoint_iff]
    intro x hx hused
    obtain ⟨k, hk⟩ := List.mem_iff_getElem?.1 hn
    have hused' : t.UsedAt x (pre.length + k) := by
      refine ⟨n, ?_, hx⟩
      rw [hsplit, List.getElem?_append_right (Nat.le_add_right _ _), Nat.add_sub_cancel_left]
      exact hk
    have hlt : pre.length + k < t.earliest usage after := h.lt_earliest hused hused'
    omega

private theorem getElem?_foldl_insert (slots : List Slot) (i : Nat) (x : Slot)
    (table : Std.ExtTreeMap Slot Nat Slot.order) :
    (slots.foldl (fun table slot => table.insert slot i) table)[x]? = if x ∈ slots then some i else table[x]? := by
  induction slots generalizing table with
  | nil => simp
  | cons slot rest ih =>
    rw [List.foldl_cons, ih]
    by_cases hrest : x ∈ rest
    · simp [hrest]
    · by_cases hslot : slot = x
      · simp [hslot]
      · simp [hrest, hslot, Ne.symm hslot, Std.ExtTreeMap.getElem?_insert]

theorem getElem?_noteUse (t : Timeline) (usage : Usage) (i : Nat) (x : Slot) :
    (t.noteUse usage i)[x]? = if x ∈ usage then some i else t.lastUse[x]? := by
  simpa [noteUse] using getElem?_foldl_insert usage.toList i x t.lastUse

/-- A use of slots that is noted for the last moment of each of them keeps the table right. -/
theorem Valid.lastUse_noteUse (h : t.Valid u)
    (hused : ∀ x j, t'.UsedAt x j ↔ t.UsedAt x j ∨ j = i ∧ x ∈ usage)
    (hlast : ∀ x ∈ usage, ∀ j, t.UsedAt x j → j ≤ i) (htable : t'.lastUse = t.noteUse usage i) (x : Slot)
    (k : Nat) :
    t'.lastUse[x]? = some k ↔ t'.UsedAt x k ∧ ∀ j, t'.UsedAt x j → j ≤ k := by
  rw [htable, getElem?_noteUse]
  simp only [hused]
  by_cases hx : x ∈ usage
  · simp only [hx, if_true, Option.some.injEq, and_true]
    constructor
    · rintro rfl
      refine ⟨Or.inr rfl, ?_⟩
      rintro j (hj | rfl)
      · exact hlast x hx j hj
      · exact Nat.le_refl j
    · rintro ⟨hk | rfl, hmax⟩
      · exact Nat.le_antisymm (hmax i (Or.inr rfl)) (hlast x hx k hk)
      · rfl
  · simp only [hx, if_false, and_false, or_false]
    exact h.lastUse x k

variable {members : List Statement}

theorem Valid.push (h : t.Valid u) {isOpen : Bool} (hm : Moment.WellFormed u ⟨members, usage, isOpen⟩) :
    (t.push members usage isOpen).1.Valid u := by
  have hused : ∀ x j, (t.push members usage isOpen).1.UsedAt x j ↔
      t.UsedAt x j ∨ j = t.moments.length ∧ x ∈ usage := by
    intro x j
    simp only [Timeline.push, UsedAt, List.getElem?_append]
    by_cases hj : j < t.moments.length
    · simp [hj, Nat.ne_of_lt hj]
    · by_cases hj' : j = t.moments.length
      · simp [hj']
      · have hnone : t.moments[j]? = none := List.getElem?_eq_none (by omega)
        have hnone' : [(⟨members, usage, isOpen⟩ : Moment)][j - t.moments.length]? = none :=
          List.getElem?_eq_none (by simp only [List.length_singleton]; omega)
        simp [hj, hj', hnone']
  constructor
  · intro m hmem
    simp only [Timeline.push, List.mem_append, List.mem_singleton] at hmem
    rcases hmem with hmem | rfl
    · exact h.moments m hmem
    · exact hm
  · exact h.lastUse_noteUse hused (fun x _ j hj => Nat.le_of_lt hj.lt_length) rfl

private theorem modify_middle (pre post : List Moment) (m : Moment) (f : Moment → Moment) :
    (pre ++ m :: post).modify pre.length f = pre ++ f m :: post := by
  induction pre with
  | nil => rfl
  | cons n pre ih => simp [ih]

theorem merge_moments {pre post : List Moment} {m : Moment} (hsplit : t.moments = pre ++ m :: post)
    (members : List Statement) (usage : Usage) :
    (t.merge pre.length members usage).1.moments = pre ++ m.join members usage :: post := by
  simp only [merge, hsplit]
  exact modify_middle pre post m _

theorem Valid.merge (h : t.Valid u) (hi : t.findOpen? usage after = some i) (hu : u.usageAll members = .ok usage)
    (hg : isParallelGroup .parallel members = true) : (t.merge i members usage).1.Valid u := by
  obtain ⟨pre, m, post, hsplit, rfl, hopen, hfree⟩ := h.findOpen?_eq_some hi
  have hm : m.WellFormed u := h.moments m (by simp [hsplit])
  have hused : ∀ x j, (t.merge pre.length members usage).1.UsedAt x j ↔
      t.UsedAt x j ∨ j = pre.length ∧ x ∈ usage := by
    intro x j
    by_cases hj : j = pre.length
    · subst hj
      simp [UsedAt, merge_moments hsplit, hsplit, Moment.join, Std.ExtTreeSet.mem_union_iff]
    · simp [UsedAt, Timeline.merge, hj, Ne.symm hj]
  have hlast : ∀ x ∈ usage, ∀ j, t.UsedAt x j → j ≤ pre.length := by
    rintro x hx j ⟨n, hn, hxn⟩
    by_contra hlt
    -- a later moment would be one of those that are free of the slots
    have hmem : n ∈ m :: post := by
      rw [hsplit, List.getElem?_append_right (by omega)] at hn
      exact List.mem_of_getElem? hn
    exact Usage.disjoint_iff.1 (hfree n hmem) x hxn hx
  refine ⟨fun n hn => ?_, h.lastUse_noteUse hused hlast rfl⟩
  rw [merge_moments hsplit] at hn
  simp only [List.mem_append, List.mem_cons] at hn
  rcases hn with hn | rfl | hn
  · exact h.moments n (by simp [hsplit, hn])
  · exact hm.join hopen hu hg
  · exact h.moments n (by simp [hsplit, hn])

/-- Every moment of a valid timeline is a statement of the schedule. -/
theorem Valid.map_statements (h : t.Valid u) : t.statements.map some = t.moments.map Moment.toStatement? := by
  have hsome : ∀ m ∈ t.moments, ∃ s, m.toStatement? = some s := by
    intro m hm
    have hne := (h.moments m hm).nonempty
    unfold Moment.toStatement?
    match hss : m.statements with
    | [] => exact absurd hss hne
    | [s] => exact ⟨s, rfl⟩
    | s₁ :: s₂ :: rest => exact ⟨_, rfl⟩
  unfold statements
  generalize t.moments = ms at hsome
  induction ms with
  | nil => rfl
  | cons m rest ih =>
    rw [List.forall_mem_cons] at hsome
    obtain ⟨s, hs⟩ := hsome.1
    rw [List.filterMap_cons_some hs, List.map_cons, List.map_cons, hs, ih hsome.2]

theorem Valid.length_statements (h : t.Valid u) : t.statements.length = t.moments.length := by
  simpa using congrArg List.length h.map_statements

theorem Valid.getElem?_statements (h : t.Valid u) (k : Nat) :
    t.statements[k]? = t.moments[k]?.bind Moment.toStatement? := by
  have hk := congrArg (·[k]?) h.map_statements
  simp only [List.getElem?_map] at hk
  cases hm : t.moments[k]? with
  | none =>
    simp only [hm, Option.map_none, Option.map_eq_none_iff] at hk
    rw [hk, Option.bind_none]
  | some m =>
    simp only [hm, Option.map_some, Option.map_eq_some_iff] at hk
    obtain ⟨s, hs, hm'⟩ := hk
    rw [hs, Option.bind_some, hm']

/-- The counts depend only on how many statements each moment holds. -/
theorem stats_eq (t : Timeline) :
    t.stats = ⟨1, (t.moments.map (·.statements.length)).length,
      (t.moments.map (·.statements.length)).countP (1 < ·),
      (t.moments.map (·.statements.length)).foldr (· + ·) 0⟩ := by
  simp only [stats, List.length_map, List.countP_map, List.foldr_map, Function.comp_def]

end Timeline

end IonSchedule
