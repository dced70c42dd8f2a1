import Mathlib.Order.Filter.AtTopBot.Basic
import IonSchedule.Proofs.SoleBlock
import IonSchedule.Proofs.Success

/-! # Moments that are placed again

The moments of an unscheduled block inside another one are placed as they are. They may as well be handled like
statements of the circuit: rewritten, scheduled and placed by the functions that made them. This is a recursion
on results, which are no parts of what the functions were called with and may be larger, so it need not end.
Here it runs with a bound on how deep calls nest, and it ends if some bound is enough. Main statement: moments
are leaves that rewriting keeps, placing them again never comes to schedule a block, and every call of the
recursion ends with the result of the scheduler.
-/
namespace IonSchedule

namespace Schedule

/-! ## The recursion -/

/-- What the recursion is called for, by the type of the result. -/
inductive Call : Type → Type where
  | arrange (s : Statement) : Call (Statement × Stats)
  | arrangeBody (kind : BlockKind) (ss : List Statement) : Call (List Statement × Stats)
  | arrangeEach (ss : List Statement) : Call (List Statement × Stats)
  | splice (topLevel : Bool) (ss : List Statement) : Call (List Statement × Stats)
  | spliceOne (topLevel : Bool) (s : Statement) : Call (List Statement × Stats)
  | scheduleBlock (ss : List Statement) : Call (List Statement × Stats)
  | place (s : Statement) (after : Option Nat) (t : Timeline) : Call Placed
  | placeAll (chained : Bool) (ss : List Statement) (after : Option Nat) (t : Timeline) : Call Placed

/-- A result or an error, if the call has ended. -/
abbrev Attempt (α : Type) := ExceptT CircuitError Option α

variable {α β : Type}

def ended (r : Except CircuitError α) : Attempt α := ExceptT.mk (some r)

def unfinished : Attempt α := ExceptT.mk none

namespace Call

/-- The result of the scheduler. -/
def answer (u : Universe) : {α : Type} → Call α → Except CircuitError α
  | _, .arrange s => Schedule.arrange u s
  | _, .arrangeBody kind ss => Schedule.arrangeBody u kind ss
  | _, .arrangeEach ss => Schedule.arrangeEach u ss
  | _, .splice topLevel ss => Schedule.splice u topLevel ss
  | _, .spliceOne topLevel s => Schedule.spliceOne u topLevel s
  | _, .scheduleBlock ss => Schedule.scheduleBlock u ss
  | _, .place s after t => placeOne u s after t
  | _, .placeAll chained ss after t => Schedule.placeAll u chained ss after t

/-- What a call does, given what the calls that it makes give back. The moments of an unscheduled block are
placed like the statements of a sequential one. Without `entering`, no block is scheduled: a call for that does
not end. -/
def step (u : Universe) (entering : Bool) (call : {β : Type} → Call β → Attempt β) : {α : Type} → Call α → Attempt α
  | _, .arrange (.gate g) => return (.gate g, 0)
  | _, .arrange (.block kind ss) => do
    let (out, stats) ← call (.arrangeBody kind ss)
    return (.block kind.scheduled out, stats)
  | _, .arrange (.loop count kind body) => do
    let (out, stats) ← call (.arrangeBody kind body)
    return (.loop count kind.scheduled out, stats)
  | _, .arrangeBody .sequential ss => call (.splice false ss)
  | _, .arrangeBody .parallel ss => call (.arrangeEach ss)
  | _, .arrangeBody .unscheduled ss => call (.scheduleBlock ss)
  | _, .arrangeEach [] => return ([], 0)
  | _, .arrangeEach (s :: rest) => do
    let (first, stats) ← call (.arrange s)
    let (others, more) ← call (.arrangeEach rest)
    return (first :: others, stats + more)
  | _, .splice _ [] => return ([], 0)
  | _, .splice topLevel (s :: rest) => do
    let (first, stats) ← call (.spliceOne topLevel s)
    let (others, more) ← call (.splice topLevel rest)
    return (first ++ others, stats + more)
  | _, .spliceOne _ (.block .unscheduled ss) => call (.scheduleBlock ss)
  | _, .spliceOne topLevel (.block .sequential ss) => do
    let (inner, stats) ← call (.splice false ss)
    return (if topLevel then [.block .sequential inner] else inner, stats)
  | _, .spliceOne _ s => do
    let (s, stats) ← call (.arrange s)
    return ([s], stats)
  | _, .scheduleBlock ss =>
    if entering then do
      let p ← call (.placeAll false ss none .empty)
      return p.close
    else unfinished
  | _, .place (.block .sequential ss) after t => call (.placeAll true ss after t)
  | _, .place (.block .unscheduled ss) after t => do
    let (inner, stats) ← call (.scheduleBlock ss)
    let p ← call (.placeAll true inner after t)
    return { p with stats := stats + p.stats }
  | _, .place s after t => do
    let (s, stats) ← call (.arrange s)
    let (t, last) ← ended (placeLeaf u after t s)
    return ⟨t, last, stats⟩
  | _, .placeAll _ [] after t => return ⟨t, after, 0⟩
  | _, .placeAll chained (s :: rest) after t => do
    let first ← call (.place s after t)
    let others ← call (.placeAll chained rest (if chained then first.last else after) first.timeline)
    return { others with stats := first.stats + others.stats }

/-- A call that is unfinished when calls nest deeper than allowed. -/
def runWithin (u : Universe) (entering : Bool) : (depth : Nat) → {α : Type} → Call α → Attempt α
  | 0, _, _ => unfinished
  | depth + 1, _, c => c.step u entering (runWithin u entering depth)

/-- Deep enough, the call ends with the result of the scheduler. -/
def Ends (u : Universe) (entering : Bool) (c : Call α) : Prop :=
  ∀ᶠ depth in Filter.atTop, c.runWithin u entering depth = ended (c.answer u)

end Call

theorem ended_bind (x : Except CircuitError α) (f : α → Except CircuitError β) :
    ended (x >>= f) = ended x >>= fun a => ended (f a) := by
  cases x with
  | error e => rfl
  | ok a => rfl

theorem ended_ok_bind (a : α) (f : α → Attempt β) : ended (.ok a) >>= f = f a := rfl

/-! ## Lists of statements -/

variable {u : Universe} {entering : Bool} {s : Statement} {ss : List Statement}

theorem Call.Ends.of_step {c : Call α}
    (h : ∀ᶠ depth in Filter.atTop, c.step u entering (Call.runWithin u entering depth) = ended (c.answer u)) :
    c.Ends u entering := by
  obtain ⟨bound, hbound⟩ := Filter.eventually_atTop.1 h
  refine Filter.eventually_atTop.2 ⟨bound + 1, fun depth hdepth => ?_⟩
  obtain ⟨before, rfl⟩ : ∃ before, depth = before + 1 := ⟨depth - 1, by omega⟩
  exact hbound before (by omega)

/-- All calls for this statement end. -/
structure Settles (u : Universe) (entering : Bool) (s : Statement) : Prop where
  arrange : (Call.arrange s).Ends u entering
  spliceOne : ∀ topLevel, (Call.spliceOne topLevel s).Ends u entering
  place : ∀ after t, (Call.place s after t).Ends u entering

theorem ends_arrangeEach (h : ∀ s ∈ ss, Settles u entering s) : (Call.arrangeEach ss).Ends u entering := by
  induction ss with
  | nil => exact .of_step (.of_forall fun _ => rfl)
  | cons s rest ih =>
    rw [List.forall_mem_cons] at h
    apply Call.Ends.of_step
    filter_upwards [h.1.arrange, ih h.2] with depth hfirst hrest
    simp only [Call.step, hfirst, hrest, Call.answer, arrangeEach, ended_bind]
    rfl

theorem ends_splice (h : ∀ s ∈ ss, Settles u entering s) (topLevel : Bool) :
    (Call.splice topLevel ss).Ends u entering := by
  induction ss with
  | nil => exact .of_step (.of_forall fun _ => rfl)
  | cons s rest ih =>
    rw [List.forall_mem_cons] at h
    apply Call.Ends.of_step
    filter_upwards [h.1.spliceOne topLevel, ih h.2] with depth hfirst hrest
    simp only [Call.step, hfirst, hrest, Call.answer, splice_cons, ended_bind]
    rfl

theorem ends_placeAll (h : ∀ s ∈ ss, Settles u entering s) (chained : Bool) (after : Option Nat) (t : Timeline) :
    (Call.placeAll chained ss after t).Ends u entering := by
  induction ss generalizing after t with
  | nil => exact .of_step (.of_forall fun _ => rfl)
  | cons s rest ih =>
    rw [List.forall_mem_cons] at h
    apply Call.Ends.of_step
    cases hs : placeOne u s after t with
    | error e =>
      filter_upwards [h.1.place after t] with depth hfirst
      simp only [Call.step, hfirst, Call.answer, placeAll_cons, hs]
      rfl
    | ok first =>
      -- where the rest is placed depends on where the first statement landed
      filter_upwards [h.1.place after t, ih h.2 (if chained then first.last else after) first.timeline] with
        depth hfirst hrest
      simp only [Call.step, hfirst, Call.answer, placeAll_cons, hs, ended_bind, ended_ok_bind, hrest]
      rfl

theorem ends_scheduleBlock (h : ∀ s ∈ ss, Settles u true s) : (Call.scheduleBlock ss).Ends u true := by
  apply Call.Ends.of_step
  filter_upwards [ends_placeAll h false none .empty] with depth hplaced
  simp only [Call.step, if_true, hplaced, Call.answer, scheduleBlock]
  cases placeAll u false ss none .empty with
  | error e => rfl
  | ok p => rfl

theorem ends_arrangeBody {kind : BlockKind} (hkind : kind = .unscheduled → entering = true)
    (h : ∀ s ∈ ss, Settles u entering s) : (Call.arrangeBody kind ss).Ends u entering := by
  apply Call.Ends.of_step
  cases kind with
  | sequential => exact ends_splice h false
  | parallel => exact ends_arrangeEach h
  | unscheduled =>
    cases hkind rfl
    exact ends_scheduleBlock h

/-! ## Statements -/

section Leaves

variable (hleaf : s.isLeaf = true)
include hleaf

theorem Call.step_spliceOne_of_isLeaf (topLevel : Bool) (call : {β : Type} → Call β → Attempt β) :
    (Call.spliceOne topLevel s).step u entering call = (do
      let (s, stats) ← call (.arrange s)
      return ([s], stats)) := by
  cases s with
  | gate g => rfl
  | block kind ss =>
    obtain rfl : kind = .parallel := by simpa [Statement.isLeaf] using hleaf
    rfl
  | loop count kind body => rfl

theorem Call.step_place_of_isLeaf (after : Option Nat) (t : Timeline) (call : {β : Type} → Call β → Attempt β) :
    (Call.place s after t).step u entering call = (do
      let (s, stats) ← call (.arrange s)
      let (t, last) ← ended (placeLeaf u after t s)
      return ⟨t, last, stats⟩) := by
  cases s with
  | gate g => rfl
  | block kind ss =>
    obtain rfl : kind = .parallel := by simpa [Statement.isLeaf] using hleaf
    rfl
  | loop count kind body => rfl

/-- A leaf is only rewritten before it is placed or left in its place. -/
theorem settles_of_isLeaf (h : (Call.arrange s).Ends u entering) : Settles u entering s := by
  refine ⟨h, fun topLevel => .of_step ?_, fun after t => .of_step ?_⟩
  · filter_upwards [h] with depth harrange
    simp only [Call.step_spliceOne_of_isLeaf hleaf, harrange, Call.answer, spliceOne_of_isLeaf hleaf, ended_bind]
    rfl
  · filter_upwards [h] with depth harrange
    simp only [Call.step_place_of_isLeaf hleaf, harrange, Call.answer, placeOne_of_isLeaf hleaf, ended_bind]
    rfl

end Leaves

theorem settles_gate (g : GateCall) : Settles u entering (.gate g) :=
  settles_of_isLeaf rfl (.of_step (.of_forall fun _ => rfl))

theorem ends_arrange_block {kind : BlockKind} (hkind : kind = .unscheduled → entering = true)
    (h : ∀ s ∈ ss, Settles u entering s) : (Call.arrange (.block kind ss)).Ends u entering := by
  apply Call.Ends.of_step
  filter_upwards [ends_arrangeBody hkind h] with depth hbody
  simp only [Call.step, hbody, Call.answer, arrange_block, ended_bind]
  rfl

theorem settles_loop {count : LoopCount} {kind : BlockKind} (hkind : kind = .unscheduled → entering = true)
    (h : ∀ s ∈ ss, Settles u entering s) : Settles u entering (.loop count kind ss) := by
  apply settles_of_isLeaf rfl
  apply Call.Ends.of_step
  filter_upwards [ends_arrangeBody hkind h] with depth hbody
  simp only [Call.step, hbody, Call.answer, arrange_loop, ended_bind]
  rfl

theorem settles_parallel (h : ∀ s ∈ ss, Settles u entering s) : Settles u entering (.block .parallel ss) :=
  settles_of_isLeaf rfl (ends_arrange_block (by simp) h)

theorem settles_sequential (h : ∀ s ∈ ss, Settles u entering s) : Settles u entering (.block .sequential ss) := by
  refine ⟨ends_arrange_block (by simp) h, fun topLevel => .of_step ?_,
    fun after t => .of_step (ends_placeAll h true after t)⟩
  filter_upwards [ends_splice h false] with depth hsplice
  simp only [Call.step, hsplice, Call.answer, spliceOne, ended_bind]
  rfl

/-- A statement without unscheduled blocks is handled without scheduling a block. -/
theorem settles_of_scheduled (u : Universe) (entering : Bool) (s : Statement)
    (h : s.AllBlocks fun b => b.kind ≠ .unscheduled) : Settles u entering s := by
  induction s using Statement.induction with
  | gate g => exact settles_gate g
  | block kind ss ih =>
    obtain ⟨hkind, hss⟩ := Statement.allBlocks_block_iff.1 h
    have hsettles : ∀ s ∈ ss, Settles u entering s := fun s hs => ih s hs (hss s hs)
    cases kind with
    | sequential => exact settles_sequential hsettles
    | parallel => exact settles_parallel hsettles
    | unscheduled => exact absurd rfl hkind
  | loop count kind body ih =>
    obtain ⟨hkind, hbody⟩ := Statement.allBlocks_loop_iff.1 h
    exact settles_loop (fun hunscheduled => absurd hunscheduled hkind) fun s hs => ih s hs (hbody s hs)

/-- The state after placing statements in which nothing was scheduled. -/
def Placed.uncounted (r : Timeline × Option Nat) : Placed := ⟨r.1, r.2, 0⟩

theorem placeOne_of_isFlat {after : Option Nat} {t : Timeline} (hleaf : s.isLeaf = true) (hflat : s.IsFlat) :
    placeOne u s after t = Placed.uncounted <$> placeLeaf u after t s := by
  rw [placeOne_of_isLeaf hleaf, arrange_of_isFlat u s hflat]
  change (placeLeaf u after t s >>= fun r => pure (Placed.uncounted r)) = _
  cases placeLeaf u after t s with
  | error e => rfl
  | ok r => rfl

/-- Flat leaves are placed as they are, and nothing is counted. -/
theorem placeAll_of_isFlat {after : Option Nat} {t : Timeline} (h : ∀ s ∈ ss, s.isLeaf = true ∧ s.IsFlat) :
    placeAll u true ss after t = Placed.uncounted <$> placeLeaves u ss after t := by
  induction ss generalizing after t with
  | nil => rw [placeAll, placeLeaves]; rfl
  | cons s rest ih =>
    rw [List.forall_mem_cons] at h
    rw [placeAll_cons, placeOne_of_isFlat h.1.1 h.1.2, placeLeaves]
    cases placeLeaf u after t s with
    | error e => rfl
    | ok r =>
      change (placeAll u true rest r.2 r.1 >>= _) = Placed.uncounted <$> placeLeaves u rest r.2 r.1
      rw [ih h.2]
      cases placeLeaves u rest r.2 r.1 with
      | error e => rfl
      | ok r' => rfl

theorem isFlat_of_scheduleBlock {out : List Statement} {stats : Stats} (h : scheduleBlock u ss = .ok (out, stats)) :
    ∀ s ∈ out, s.isLeaf = true ∧ s.IsFlat := by
  have hbody : Derives u (.body .unscheduled ss out stats) := derives_arrangeBody h
  have hflat := hbody.isFlat
  exact fun s hs => ⟨Statement.isLeaf_of_isFlat (hflat.2 s hs) (hflat.1.2 rfl s hs), hflat.2 s hs⟩

theorem settles_of_isFlat (h : s.IsFlat) : Settles u entering s :=
  settles_of_scheduled u entering s fun b hb => (h b hb).1

theorem settles_unscheduled (h : ∀ s ∈ ss, Settles u true s) : Settles u true (.block .unscheduled ss) := by
  refine ⟨ends_arrange_block (fun _ => rfl) h, fun topLevel => .of_step (ends_scheduleBlock h),
    fun after t => .of_step ?_⟩
  cases hout : scheduleBlock u ss with
  | error e =>
    filter_upwards [ends_scheduleBlock h] with depth hblock
    simp only [Call.step, hblock, Call.answer, placeOne, hout]
    rfl
  | ok r =>
    obtain ⟨inner, stats⟩ := r
    have hflat := isFlat_of_scheduleBlock hout
    -- the moments are no statements of the block, but nothing is left in them to schedule
    have hagain : (Call.placeAll true inner after t).Ends u true :=
      ends_placeAll (fun s hs => settles_of_isFlat (hflat s hs).2) true after t
    filter_upwards [ends_scheduleBlock h, hagain] with depth hblock hplaced
    simp only [Call.step, hblock, Call.answer, hout, ended_ok_bind, hplaced, placeAll_of_isFlat hflat, placeOne,
      ended_bind]
    cases placeLeaves u inner after t with
    | error e => rfl
    | ok r => exact congrArg (fun stats => ended (.ok (⟨r.1, r.2, stats⟩ : Placed))) (Stats.add_zero stats)

theorem settles (u : Universe) (s : Statement) : Settles u true s := by
  induction s using Statement.induction with
  | gate g => exact settles_gate g
  | loop count kind body ih => exact settles_loop (fun _ => rfl) ih
  | block kind ss ih =>
    cases kind with
    | sequential => exact settles_sequential ih
    | parallel => exact settles_parallel ih
    | unscheduled => exact settles_unscheduled ih

theorem Call.ends (u : Universe) (c : Call α) : c.Ends u true := by
  cases c with
  | arrange s => exact (settles u s).arrange
  | arrangeBody kind ss => exact ends_arrangeBody (fun _ => rfl) fun s _ => settles u s
  | arrangeEach ss => exact ends_arrangeEach fun s _ => settles u s
  | splice topLevel ss => exact ends_splice (fun s _ => settles u s) topLevel
  | spliceOne topLevel s => exact (settles u s).spliceOne topLevel
  | scheduleBlock ss => exact ends_scheduleBlock fun s _ => settles u s
  | place s after t => exact (settles u s).place after t
  | placeAll chained ss after t => exact ends_placeAll (fun s _ => settles u s) chained after t

end Schedule

/-! ## Moments -/

namespace Timeline

/-- No statement on the timeline is an empty parallel block. -/
def IsFilled (t : Timeline) : Prop := ∀ s ∈ t.contents, s.isEmptyParallel = false

theorem isFilled_empty : empty.IsFilled := by simp [IsFilled, empty, contents]

theorem IsFilled.statements {t : Timeline} {s : Statement} (h : t.IsFilled) (hs : s ∈ t.statements) :
    s.isEmptyParallel = false := by
  rcases mem_statements hs with hs | ⟨m, -, hlength, rfl⟩
  · exact h s hs
  · rcases hstatements : m.statements with _ | ⟨first, rest⟩
    · simp [hstatements] at hlength
    · rfl

end Timeline

namespace Schedule

variable {u : Universe} {ss out : List Statement} {stats : Stats}

theorem Enters.isFilled {after last : Option Nat} {t t' : Timeline} {s : Statement} (h : Enters u after t s t' last)
    (ht : t.IsFilled) : t'.IsFilled := by
  by_cases hs : s.isEmptyParallel = true
  · -- an empty block leaves the timeline as it is
    cases Statement.eq_of_isEmptyParallel hs
    cases h with
    | skip kind => exact ht
    | join hgroup hne hu hi =>
      simp only [Statement.group?, Option.ite_none_right_eq_some, Option.some.injEq] at hgroup
      exact absurd hgroup.2.symm hne
    | alone hne hu hgroup => exact absurd rfl (hne .parallel)
  · exact h.forall_contents (fun g => rfl) ht (by simpa using hs)

theorem isFilled_of_scheduleBlock (h : scheduleBlock u ss = .ok (out, stats)) :
    ∀ s ∈ out, s.isEmptyParallel = false := by
  obtain ⟨p, hp, hclose⟩ := map_eq_ok_iff.1 h
  have hfilled : p.timeline.IsFilled :=
    ((derives_all u).2.1 false ss none .empty p hp).maintains Enters.isFilled Timeline.isFilled_empty
  obtain rfl : p.timeline.statements = out := congrArg Prod.fst hclose
  exact fun s hs => hfilled.statements hs

end Schedule

namespace Statement

theorem anyUnscheduled_eq_false_iff {ss : List Statement} :
    anyUnscheduled ss = false ↔ ∀ s ∈ ss, s.hasUnscheduled = false := by
  induction ss with
  | nil => simp [anyUnscheduled]
  | cons s rest ih => rw [anyUnscheduled, Bool.or_eq_false_iff, ih, List.forall_mem_cons]

theorem hasUnscheduled_of_isFlat {s : Statement} (h : s.IsFlat) : s.hasUnscheduled = false := by
  induction s using Statement.induction with
  | gate g => rfl
  | block kind ss ih =>
    obtain ⟨hb, hss⟩ := allBlocks_block_iff.1 h
    rw [hasUnscheduled, Bool.or_eq_false_iff, anyUnscheduled_eq_false_iff]
    exact ⟨decide_eq_false hb.1, fun s hs => ih s hs (hss s hs)⟩
  | loop count kind body ih =>
    obtain ⟨hb, hbody⟩ := allBlocks_loop_iff.1 h
    rw [hasUnscheduled, Bool.or_eq_false_iff, anyUnscheduled_eq_false_iff]
    exact ⟨decide_eq_false hb.1, fun s hs => ih s hs (hbody s hs)⟩

end Statement

namespace Schedule

variable {u : Universe} {ss out : List Statement} {stats : Stats}

theorem exists_placeLeaves_of_scheduleBlock (h : scheduleBlock u ss = .ok (out, stats)) (after : Option Nat)
    (t : Timeline) : ∃ t' last, placeLeaves u out after t = .ok (t', last) := by
  have hbody : Derives u (.body .unscheduled ss out stats) := derives_arrangeBody h
  obtain ⟨⟨t', last⟩, hplaced⟩ := exists_placeLeaves ((resolves_body hbody).2 (hbody.isResolvable.1 rfl)) after t
  exact ⟨t', last, hplaced⟩

/-- The moments of a block are gates, loops and parallel blocks that are not empty, with nothing left to
schedule in them. Rewriting leaves them as they are and counts nothing. Placing them again succeeds, counts
nothing and never comes to schedule a block. So the recursion that handles moments like statements of the
circuit ends on every call, with the result of the scheduler. -/
theorem moments_placed_again (u : Universe) :
    (∀ ss out stats, scheduleBlock u ss = .ok (out, stats) →
      (∀ s ∈ out, (s.isLeaf = true ∧ s.isEmptyParallel = false) ∧ s.hasUnscheduled = false ∧
        arrange u s = .ok (s, 0)) ∧
      ∀ after t, ∃ t' last, placeLeaves u out after t = .ok (t', last) ∧
        ∃ bound, ∀ depth ≥ bound,
          ((Call.placeAll true out after t).runWithin u false depth).run = some (.ok ⟨t', last, 0⟩)) ∧
    ∀ (α : Type) (c : Call α), ∃ bound, ∀ depth ≥ bound, (c.runWithin u true depth).run = some (c.answer u) := by
  refine ⟨fun ss out stats h => ⟨fun s hs => ?_, fun after t => ?_⟩,
    fun α c => Filter.eventually_atTop.1 (c.ends u)⟩
  · obtain ⟨hleaf, hflat⟩ := isFlat_of_scheduleBlock h s hs
    exact ⟨⟨hleaf, isFilled_of_scheduleBlock h s hs⟩, Statement.hasUnscheduled_of_isFlat hflat,
      arrange_of_isFlat u s hflat⟩
  · have hflat := isFlat_of_scheduleBlock h
    obtain ⟨t', last, hplaced⟩ := exists_placeLeaves_of_scheduleBlock h after t
    obtain ⟨bound, hbound⟩ := Filter.eventually_atTop.1
      (ends_placeAll (fun s hs => @settles_of_isFlat u false s (hflat s hs).2) true after t)
    refine ⟨t', last, hplaced, bound, fun depth hdepth => ?_⟩
    rw [hbound depth hdepth, Call.answer, placeAll_of_isFlat hflat, hplaced]
    rfl

theorem moments_placed_again_sole :
    ∃ out, scheduleBlock Circuit.sample.slots [Sample.sole.toStatement] = .ok (out, ⟨3, 9, 2, 11⟩) ∧
      (∀ s ∈ out, s.hasUnscheduled = false ∧ arrange Circuit.sample.slots s = .ok (s, 0)) ∧
      (∃ depth t last, ((Call.placeAll true out none .empty).runWithin Circuit.sample.slots false depth).run =
        some (.ok ⟨t, last, 0⟩)) ∧
      ∃ depth, ((Call.scheduleBlock [Sample.sole.toStatement]).runWithin Circuit.sample.slots true depth).run =
        some (.ok (out, ⟨3, 9, 2, 11⟩)) := by
  have hstats : Prod.snd <$> scheduleBlock Circuit.sample.slots [Sample.sole.toStatement] = .ok ⟨3, 9, 2, 11⟩ := by
    decide +kernel
  obtain ⟨⟨out, stats⟩, hout, rfl⟩ := map_eq_ok_iff.1 hstats
  obtain ⟨hmoments, hends⟩ := moments_placed_again Circuit.sample.slots
  obtain ⟨hkept, hplaced⟩ := hmoments _ out _ hout
  obtain ⟨t, last, -, bound, hagain⟩ := hplaced none .empty
  obtain ⟨enough, hwhole⟩ := hends _ (.scheduleBlock [Sample.sole.toStatement])
  refine ⟨out, hout, fun s hs => (hkept s hs).2, ⟨bound, t, last, hagain bound (Nat.le_refl _)⟩, enough, ?_⟩
  exact (hwhole enough (Nat.le_refl _)).trans (congrArg some hout)

end Schedule

end IonSchedule
