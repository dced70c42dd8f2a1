import IonSchedule.Proofs.Success

/-! # Why scheduling fails

Main statement: scheduling fails on a parallel body, and else exactly if some call inside an unscheduled block
does not resolve; the error is then the error of such a call. Where several calls fail, the one that is reported
need not be the one listed first, since what is inside a loop or a parallel block is rewritten before its slots
are looked up.

Calls outside of unscheduled blocks are never looked up: without them a circuit fails in the same way.
-/
namespace IonSchedule

section Errors

variable {ε δ α β γ : Type}

/-- The error of a computation that fails. -/
def fault? : Except ε α → Option ε
  | .ok _ => none
  | .error e => some e

theorem fault?_eq_some_iff {x : Except ε α} {e : ε} : fault? x = some e ↔ x = .error e := by
  cases x with
  | error e' => simp [fault?]
  | ok a => simp [fault?]

theorem fault?_map (f : α → β) (x : Except ε α) : fault? (f <$> x) = fault? x := by
  cases x <;> rfl

theorem fault?_mapError (f : ε → δ) (x : Except ε α) : fault? (x.mapError f) = (fault? x).map f := by
  cases x <;> rfl

theorem fault?_bind_pure (x : Except ε α) (f : α → β) : fault? (x >>= fun a => pure (f a)) = fault? x := by
  cases x <;> rfl

/-- Of two computations in a row, the first one that fails gives the error. -/
theorem fault?_bind_bind_pure (x : Except ε α) (y : Except ε β) (f : α → β → γ) :
    fault? (x >>= fun a => y >>= fun b => pure (f a b)) = (fault? x).or (fault? y) := by
  cases x with
  | error e => rfl
  | ok a => exact fault?_bind_pure y (f a)

theorem bind_eq_error_iff {x : Except ε α} {f : α → Except ε β} {e : ε} :
    x >>= f = .error e ↔ x = .error e ∨ ∃ a, x = .ok a ∧ f a = .error e := by
  cases x with
  | error e' => simp [bind, Except.bind]
  | ok a => simp [bind, Except.bind]

theorem findSome?_cons_eq_or (f : α → Option β) (a : α) (as : List α) :
    (a :: as).findSome? f = (f a).or (as.findSome? f) := by
  rw [List.findSome?_cons]
  cases f a <;> rfl

end Errors

/-! ## The error of a call -/

/-- One of the calls in the statements fails with the error. -/
def Universe.Faults (u : Universe) (e : CircuitError) (ss : List Statement) : Prop :=
  ∃ g ∈ Reading.calls.readAll ss, u.gateUsage g = .error e

/-- A call in an unscheduled block of the statement fails with the error. -/
def Statement.Faults (u : Universe) (e : CircuitError) (s : Statement) : Prop :=
  ∃ b ∈ s.blocks, b.kind = .unscheduled ∧ u.Faults e b.statements

namespace Universe

variable {u : Universe} {e : CircuitError} {s : Statement} {ss : List Statement}

theorem faults_cons : u.Faults e (s :: ss) ↔ u.Faults e [s] ∨ u.Faults e ss := by
  simp only [Faults, Reading.readAll_cons, Reading.readAll_nil, add_zero, Multiset.mem_add, or_and_right, exists_or]

theorem faults_singleton_block {kind : BlockKind} : u.Faults e [.block kind ss] ↔ u.Faults e ss := by
  simp only [Faults, Reading.readAll_cons, Reading.readAll_nil, Reading.read_block, add_zero]

theorem faults_singleton_loop {count : LoopCount} {kind : BlockKind} :
    u.Faults e [.loop count kind ss] ↔ u.Faults e ss := by
  simp only [Faults, Reading.readAll_cons, Reading.readAll_nil, Reading.read_loop, Reading.calls_loop, add_zero]

mutual

/-- The slots of a statement are looked up call by call, so a failure is the failure of a call. -/
theorem faults_of_usage : (s : Statement) → u.usage s = .error e → u.Faults e [s]
  | .gate g, h => ⟨g, by simp, by rwa [usage] at h⟩
  | .block _ ss, h => by
    rw [usage] at h
    exact faults_singleton_block.2 (faults_of_usageAll ss h)
  | .loop _ _ body, h => by
    rw [usage] at h
    exact faults_singleton_loop.2 (faults_of_usageAll body h)

theorem faults_of_usageAll : (ss : List Statement) → u.usageAll ss = .error e → u.Faults e ss
  | [], h => by simp [usageAll] at h
  | s :: rest, h => by
    rw [usageAll, bind_eq_error_iff] at h
    rcases h with hs | ⟨first, -, h⟩
    · exact faults_cons.2 (.inl (faults_of_usage s hs))
    · rw [bind_eq_error_iff] at h
      rcases h with hrest | ⟨others, -, h⟩
      · exact faults_cons.2 (.inr (faults_of_usageAll rest hrest))
      · cases h

end

end Universe

namespace Statement

variable {u : Universe} {e : CircuitError} {s : Statement} {ss : List Statement} {kind : BlockKind}

theorem faults_block_iff : (Statement.block kind ss).Faults u e ↔
    kind = .unscheduled ∧ u.Faults e ss ∨ ∃ s ∈ ss, s.Faults u e := by
  simp only [Faults, blocks, blocksAll_eq_flatMap, List.mem_cons, exists_eq_or_imp, List.mem_flatMap]
  refine or_congr_right ⟨?_, ?_⟩
  · rintro ⟨b, ⟨s, hs, hb⟩, hfault⟩
    exact ⟨s, hs, b, hb, hfault⟩
  · rintro ⟨s, hs, b, hb, hfault⟩
    exact ⟨b, ⟨s, hs, hb⟩, hfault⟩

theorem faults_loop_iff {count : LoopCount} : (Statement.loop count kind ss).Faults u e ↔
    (Statement.block kind ss).Faults u e := by
  simp only [Faults, blocks]

theorem Faults.of_statement (h : s.Faults u e) : u.Faults e [s] := by
  obtain ⟨b, hb, -, g, hg, hfault⟩ := h
  exact ⟨g, by simpa using mem_calls_of_mem_blocks hb g hg, hfault⟩

end Statement

namespace Schedule

variable {u : Universe} {e : CircuitError} {after : Option Nat} {t : Timeline} {s : Statement} {ss : List Statement}
  {kind : BlockKind}

/-! ## Errors of rewriting

Outside of unscheduled blocks statements are rewritten one by one, and the first error is the result. -/

theorem fault?_arrange_block : fault? (arrange u (.block kind ss)) = fault? (arrangeBody u kind ss) := by
  rw [arrange_block]
  exact fault?_bind_pure _ _

theorem fault?_arrange_loop {count : LoopCount} :
    fault? (arrange u (.loop count kind ss)) = fault? (arrangeBody u kind ss) := by
  rw [arrange_loop]
  exact fault?_bind_pure _ _

theorem fault?_arrangeEach (u : Universe) (ss : List Statement) :
    fault? (arrangeEach u ss) = ss.findSome? fun s => fault? (arrange u s) := by
  induction ss with
  | nil => rfl
  | cons s rest ih =>
    rw [findSome?_cons_eq_or, ← ih, arrangeEach]
    exact fault?_bind_bind_pure _ _ _

/-- Splicing a statement fails as rewriting it does. -/
theorem fault?_spliceOne (u : Universe) (topLevel : Bool) (s : Statement) :
    fault? (spliceOne u topLevel s) = fault? (arrange u s) := by
  cases s with
  | gate g => exact fault?_bind_pure _ _
  | block kind ss =>
    cases kind with
    | sequential =>
      rw [fault?_arrange_block]
      exact fault?_bind_pure _ _
    | parallel => exact fault?_bind_pure _ _
    | unscheduled =>
      rw [fault?_arrange_block]
      rfl
  | loop count kind body => exact fault?_bind_pure _ _

theorem fault?_splice (u : Universe) (topLevel : Bool) (ss : List Statement) :
    fault? (splice u topLevel ss) = ss.findSome? fun s => fault? (arrange u s) := by
  induction ss with
  | nil => rfl
  | cons s rest ih =>
    rw [findSome?_cons_eq_or, ← ih, ← fault?_spliceOne u topLevel s, splice_cons]
    exact fault?_bind_bind_pure _ _ _

theorem fault?_arrangeBody (hkind : kind ≠ .unscheduled) :
    fault? (arrangeBody u kind ss) = ss.findSome? fun s => fault? (arrange u s) := by
  cases kind with
  | sequential => exact fault?_splice u false ss
  | parallel => exact fault?_arrangeEach u ss
  | unscheduled => exact absurd rfl hkind

/-! ## Errors of placing -/

theorem faults_of_placeLeaf (h : placeLeaf u after t s = .error e) : u.Faults e [s] := by
  cases s with
  | gate g =>
    rw [placeLeaf, bind_eq_error_iff] at h
    rcases h with h | ⟨used, -, h⟩
    · exact Universe.faults_of_usage (.gate g) (by rwa [Universe.usage])
    · cases h
  | block kind ss =>
    rw [placeLeaf] at h
    split at h
    · cases h
    · rw [bind_eq_error_iff] at h
      rcases h with h | ⟨used, -, h⟩
      · exact Universe.faults_singleton_block.2 (Universe.faults_of_usageAll ss h)
      · cases h
  | loop count kind body =>
    rw [placeLeaf, bind_eq_error_iff] at h
    rcases h with h | ⟨used, -, h⟩
    · exact Universe.faults_singleton_loop.2 (Universe.faults_of_usageAll body h)
    · cases h

theorem faults_of_placeLeaves (h : placeLeaves u ss after t = .error e) : u.Faults e ss := by
  induction ss generalizing after t with
  | nil => cases h
  | cons s rest ih =>
    rw [placeLeaves, bind_eq_error_iff] at h
    rcases h with h | ⟨r, -, h⟩
    · exact Universe.faults_cons.2 (.inl (faults_of_placeLeaf h))
    · exact Universe.faults_cons.2 (.inr (ih h))

theorem faults_of_placeAll {chained : Bool}
    (hss : ∀ s ∈ ss, ∀ after t, placeOne u s after t = .error e → u.Faults e [s])
    (h : placeAll u chained ss after t = .error e) : u.Faults e ss := by
  induction ss generalizing after t with
  | nil =>
    rw [placeAll] at h
    cases h
  | cons s rest ih =>
    rw [List.forall_mem_cons] at hss
    rw [placeAll_cons, bind_eq_error_iff] at h
    rcases h with h | ⟨first, -, h⟩
    · exact Universe.faults_cons.2 (.inl (hss.1 after t h))
    · rw [bind_eq_error_iff] at h
      rcases h with h | ⟨others, -, h⟩
      · exact Universe.faults_cons.2 (.inr (ih hss.2 h))
      · cases h

theorem faults_of_scheduleBlock (hss : ∀ s ∈ ss, ∀ after t, placeOne u s after t = .error e → u.Faults e [s])
    (h : scheduleBlock u ss = .error e) : u.Faults e ss := by
  have hplace : placeAll u false ss none .empty = .error e := by
    rw [← fault?_eq_some_iff] at h ⊢
    rwa [scheduleBlock, fault?_map] at h
  exact faults_of_placeAll hss hplace

/-- A leaf is rewritten and then placed; rewriting keeps its calls. -/
theorem faults_of_leaf (hs : arrange u s = .error e → s.Faults u e)
    (h : (do
      let (s', stats) ← arrange u s
      let (t', last) ← placeLeaf u after t s'
      return (⟨t', last, stats⟩ : Placed)) = Except.error e) : u.Faults e [s] := by
  rw [bind_eq_error_iff] at h
  rcases h with h | ⟨⟨s', stats⟩, hs', h⟩
  · exact (hs h).of_statement
  · rw [bind_eq_error_iff] at h
    rcases h with h | ⟨r, -, h⟩
    · obtain ⟨g, hg, hfault⟩ := faults_of_placeLeaf h
      rw [Reading.readAll_cons, ((derives_all u).1 s s' stats hs').calls_arranged, ← Reading.readAll_cons] at hg
      exact ⟨g, hg, hfault⟩
    · cases h

/-- What goes wrong in a block outside of placing goes wrong in one of its statements. -/
theorem faults_of_arrangeBody
    (hss : ∀ s ∈ ss, (arrange u s = .error e → s.Faults u e) ∧
      ∀ after t, placeOne u s after t = .error e → u.Faults e [s])
    (h : arrangeBody u kind ss = .error e) : (Statement.block kind ss).Faults u e := by
  rw [Statement.faults_block_iff]
  by_cases hkind : kind = .unscheduled
  · subst hkind
    exact .inl ⟨rfl, faults_of_scheduleBlock (fun s hs => (hss s hs).2) h⟩
  · rw [← fault?_eq_some_iff, fault?_arrangeBody hkind] at h
    obtain ⟨s, hs, hfault⟩ := List.exists_of_findSome?_eq_some h
    exact .inr ⟨s, hs, (hss s hs).1 (fault?_eq_some_iff.1 hfault)⟩

/-- Rewriting fails by a call in an unscheduled block, and placing by any call. -/
theorem faults_of_error (u : Universe) (e : CircuitError) (s : Statement) :
    (arrange u s = .error e → s.Faults u e) ∧ ∀ after t, placeOne u s after t = .error e → u.Faults e [s] := by
  induction s using Statement.induction with
  | gate g =>
    have harrange : arrange u (.gate g) = .error e → (Statement.gate g).Faults u e := by
      intro h
      rw [arrange] at h
      cases h
    exact ⟨harrange, fun after t h => faults_of_leaf harrange h⟩
  | block kind ss ih =>
    have harrange : arrange u (.block kind ss) = .error e → (Statement.block kind ss).Faults u e := by
      intro h
      rw [← fault?_eq_some_iff, fault?_arrange_block, fault?_eq_some_iff] at h
      exact faults_of_arrangeBody ih h
    refine ⟨harrange, fun after t h => ?_⟩
    cases kind with
    | sequential => exact Universe.faults_singleton_block.2 (faults_of_placeAll (fun s hs => (ih s hs).2) h)
    | parallel => exact faults_of_leaf harrange h
    | unscheduled =>
      rw [Universe.faults_singleton_block]
      rw [placeOne, bind_eq_error_iff] at h
      rcases h with h | ⟨⟨out, stats⟩, hout, h⟩
      · exact faults_of_scheduleBlock (fun s hs => (ih s hs).2) h
      · rw [bind_eq_error_iff] at h
        rcases h with h | ⟨r, -, h⟩
        · have hbody : Derives u (.body .unscheduled ss out stats) := derives_arrangeBody hout
          obtain ⟨g, hg, hfault⟩ := faults_of_placeLeaves h
          rw [hbody.calls_body] at hg
          exact ⟨g, hg, hfault⟩
        · cases h
  | loop count kind body ih =>
    have harrange : arrange u (.loop count kind body) = .error e → (Statement.loop count kind body).Faults u e := by
      intro h
      rw [← fault?_eq_some_iff, fault?_arrange_loop, fault?_eq_some_iff] at h
      exact Statement.faults_loop_iff.2 (faults_of_arrangeBody ih h)
    exact ⟨harrange, fun after t h => faults_of_leaf harrange h⟩

end Schedule

/-! ## Calls outside of unscheduled blocks -/

namespace Statement

mutual

/-- The statement without the calls that are in none of its unscheduled blocks. -/
def pruned : Statement → Statement
  | .gate g => .gate g
  | .block kind statements => .block kind (if kind = .unscheduled then statements else prunedAll statements)
  | .loop count kind body => .loop count kind (if kind = .unscheduled then body else prunedAll body)

def prunedAll : List Statement → List Statement
  | [] => []
  | .gate _ :: rest => prunedAll rest
  | s :: rest => pruned s :: prunedAll rest

end

end Statement

def Block.pruned (b : Block) : Block :=
  ⟨b.kind, if b.kind = .unscheduled then b.statements else Statement.prunedAll b.statements⟩

def Circuit.pruned (c : Circuit) : Circuit :=
  { c with macros := c.macros.map fun m => { m with body := m.body.pruned }, body := c.body.pruned }

namespace Schedule

variable {u : Universe} {s : Statement} {ss : List Statement} {kind : BlockKind}

theorem findSome?_prunedAll (h : ∀ s ∈ ss, fault? (arrange u s.pruned) = fault? (arrange u s)) :
    ((Statement.prunedAll ss).findSome? fun s => fault? (arrange u s)) =
      ss.findSome? fun s => fault? (arrange u s) := by
  induction ss with
  | nil => rfl
  | cons s rest ih =>
    rw [List.forall_mem_cons] at h
    rw [findSome?_cons_eq_or, ← ih h.2]
    cases s with
    | gate g =>
      -- a call that is rewritten by itself never fails
      rw [Statement.prunedAll, arrange]
      rfl
    | block kind ss => rw [Statement.prunedAll, findSome?_cons_eq_or, h.1]; simp
    | loop count kind body => rw [Statement.prunedAll, findSome?_cons_eq_or, h.1]; simp

theorem fault?_arrangeBody_pruned (h : ∀ s ∈ ss, fault? (arrange u s.pruned) = fault? (arrange u s)) :
    fault? (arrangeBody u kind (if kind = .unscheduled then ss else Statement.prunedAll ss)) =
      fault? (arrangeBody u kind ss) := by
  by_cases hkind : kind = .unscheduled
  · rw [if_pos hkind]
  · rw [if_neg hkind, fault?_arrangeBody hkind, fault?_arrangeBody hkind, findSome?_prunedAll h]

theorem fault?_arrange_pruned (u : Universe) (s : Statement) :
    fault? (arrange u s.pruned) = fault? (arrange u s) := by
  induction s using Statement.induction with
  | gate g => rw [Statement.pruned]
  | block kind ss ih =>
    rw [Statement.pruned, fault?_arrange_block, fault?_arrange_block, fault?_arrangeBody_pruned ih]
  | loop count kind body ih =>
    rw [Statement.pruned, fault?_arrange_loop, fault?_arrange_loop, fault?_arrangeBody_pruned ih]

end Schedule

theorem Table.fault?_traverse {α β ε : Type} (f : α → Except ε β) (t : Table α) :
    fault? (t.traverse f) = t.values.findSome? fun a => fault? (f a) := by
  have hitems : ∀ items : List (String × α),
      fault? (traverseItems f items) = (items.map Prod.snd).findSome? fun a => fault? (f a) := by
    intro items
    induction items with
    | nil => rfl
    | cons entry rest ih =>
      rw [List.map_cons, findSome?_cons_eq_or, ← ih]
      simp only [traverseItems]
      cases f entry.2 with
      | error e => rfl
      | ok b => cases traverseItems f rest <;> rfl
  rw [Table.values, ← hitems]
  unfold traverse
  split
  · rename_i h
    exact (congrArg fault? h).symm
  · rename_i h
    exact (congrArg fault? h).symm

namespace Circuit

open Schedule

variable {c : Circuit} {e : CircuitError}

theorem fault?_scheduleBody (hkind : c.body.kind ≠ .parallel) :
    fault? c.scheduleBody = (fault? (arrangeBody c.slots c.body.kind c.body.statements)).map .circuit := by
  unfold scheduleBody
  cases hk : c.body.kind with
  | parallel => exact absurd hk hkind
  | sequential =>
    have hsame : fault? (arrangeBody c.slots .sequential c.body.statements) =
        fault? (splice c.slots true c.body.statements) := by
      rw [arrangeBody, fault?_splice, fault?_splice]
    rw [hsame, ← fault?_mapError]
    exact fault?_bind_pure _ _
  | unscheduled =>
    rw [← fault?_mapError]
    exact fault?_bind_pure _ _

theorem fault?_scheduleMacro (m : Macro) : fault? (c.scheduleMacro m) =
    (fault? (arrangeBody (c.macroSlots m) m.body.kind m.body.statements)).map .circuit := by
  unfold scheduleMacro
  rw [arrangeBlock_eq]
  refine (fault?_bind_pure _ _).trans ?_
  rw [fault?_mapError]
  exact congrArg _ (fault?_bind_pure _ _)

/-- The body is scheduled first, then the macros in the order of their declaration. -/
theorem fault?_schedule (c : Circuit) :
    fault? c.schedule =
      (fault? c.scheduleBody).or (c.macros.values.findSome? fun m => fault? (c.scheduleMacro m)) := by
  rw [← Table.fault?_traverse]
  exact fault?_bind_bind_pure _ _ _

/-- A call in an unscheduled block, at any depth of the body or of a macro, with the slots that there are for it. -/
def HasUnscheduledCall (c : Circuit) (u : Universe) (g : GateCall) : Prop :=
  ∃ b, c.HasBlock u b ∧ b.kind = .unscheduled ∧ g ∈ Reading.calls.readAll b.statements

theorem hasUnscheduledCall_of_faults {u : Universe} (root : Block) (hroot : ∀ b ∈ root.blocks, c.HasBlock u b)
    (h : root.toStatement.Faults u e) : ∃ g, c.HasUnscheduledCall u g ∧ u.gateUsage g = .error e := by
  obtain ⟨b, hb, hkind, g, hg, hfault⟩ := h
  exact ⟨g, ⟨b, hroot b hb, hkind, hg⟩, hfault⟩

/-- A circuit whose body is not parallel fails by a call in one of its unscheduled blocks. -/
theorem exists_fault_of_schedule (hkind : c.body.kind ≠ .parallel) {error : ScheduleError}
    (h : c.schedule = .error error) :
    ∃ u g e, c.HasUnscheduledCall u g ∧ u.gateUsage g = .error e ∧ error = .circuit e := by
  rw [← fault?_eq_some_iff, fault?_schedule, Option.or_eq_some_iff] at h
  rcases h with h | ⟨-, h⟩
  · rw [fault?_scheduleBody hkind, Option.map_eq_some_iff] at h
    obtain ⟨e, he, rfl⟩ := h
    have hfaults := faults_of_arrangeBody (fun s _ => faults_of_error c.slots e s) (fault?_eq_some_iff.1 he)
    obtain ⟨g, hg, hfault⟩ := hasUnscheduledCall_of_faults c.body (fun b => .body) hfaults
    exact ⟨c.slots, g, e, hg, hfault, rfl⟩
  · obtain ⟨m, hm, h⟩ := List.exists_of_findSome?_eq_some h
    rw [fault?_scheduleMacro, Option.map_eq_some_iff] at h
    obtain ⟨e, he, rfl⟩ := h
    have hfaults :=
      faults_of_arrangeBody (fun s _ => faults_of_error (c.macroSlots m) e s) (fault?_eq_some_iff.1 he)
    obtain ⟨g, hg, hfault⟩ := hasUnscheduledCall_of_faults m.body (fun b => .inMacro hm) hfaults
    exact ⟨c.macroSlots m, g, e, hg, hfault, rfl⟩

theorem fault?_schedule_pruned (c : Circuit) : fault? c.pruned.schedule = fault? c.schedule := by
  have hbody : fault? c.pruned.scheduleBody = fault? c.scheduleBody := by
    by_cases hkind : c.body.kind = .parallel
    · have hpruned : c.pruned.body.kind = .parallel := hkind
      simp only [scheduleBody, hkind, hpruned]
    · rw [fault?_scheduleBody hkind, fault?_scheduleBody (c := c.pruned) hkind]
      exact congrArg _ (fault?_arrangeBody_pruned fun s _ => fault?_arrange_pruned c.slots s)
  have hmacro : ∀ m : Macro, fault? (c.pruned.scheduleMacro { m with body := m.body.pruned }) =
      fault? (c.scheduleMacro m) := by
    intro m
    rw [fault?_scheduleMacro, fault?_scheduleMacro]
    exact congrArg _ (fault?_arrangeBody_pruned fun s _ => fault?_arrange_pruned (c.macroSlots m) s)
  have hvalues : c.pruned.macros.values = c.macros.values.map fun m => { m with body := m.body.pruned } := by
    simp [pruned, Table.values, Table.map]
  rw [fault?_schedule, fault?_schedule, hbody, hvalues, List.findSome?_map]
  simp only [Function.comp_def, hmacro]

/-- Scheduling succeeds exactly if the body is not parallel and every call in an unscheduled block resolves. A
parallel body is refused, and any other failure is the failure of one of these calls. Calls outside of
unscheduled blocks play no part. -/
theorem schedule_eq_ok_iff (c : Circuit) :
    ((∃ c' stats, c.schedule = .ok (c', stats)) ↔
      c.body.kind ≠ .parallel ∧ ∀ u g, c.HasUnscheduledCall u g → ∃ used, u.gateUsage g = .ok used) ∧
    (c.body.kind = .parallel → c.schedule = .error .parallelBody) ∧
    (∀ error, c.body.kind ≠ .parallel → c.schedule = .error error →
      ∃ u g e, c.HasUnscheduledCall u g ∧ u.gateUsage g = .error e ∧ error = .circuit e) ∧
    fault? c.pruned.schedule = fault? c.schedule := by
  have hparallel : c.body.kind = .parallel → c.schedule = .error .parallelBody := by
    intro hkind
    simp only [schedule, scheduleBody, hkind]
    rfl
  refine ⟨⟨?_, ?_⟩, hparallel, fun error hkind => exists_fault_of_schedule hkind, fault?_schedule_pruned c⟩
  · rintro ⟨c', stats, h⟩
    refine ⟨fun hkind => ?_, ?_⟩
    · rw [hparallel hkind] at h
      cases h
    · rintro u g ⟨b, hb, hkind, hg⟩
      exact isResolvable_of_schedule h hb hkind g hg
  · rintro ⟨hkind, hcalls⟩
    exact exists_schedule hkind fun u b hb hunscheduled g hg => hcalls u g ⟨b, hb, hunscheduled, hg⟩

open Sample in
/-- Calls that do not resolve: one outside of unscheduled blocks, and one in a loop inside such a block. -/
def strayCalls : Circuit where
  constants := Catalog.empty
  registers := Catalog.ofList [("q", ⟨"q", .fundamental 2⟩)]
  macros := Catalog.empty
  nativeGates := Catalog.empty
  body := .sequential
    [px (.qubit ⟨"p", 0⟩), .block .unscheduled [px (onQ 1), .loop (.fixed 3) .sequential [px (onQ 5)]]]

theorem schedule_strayCalls :
    (sample.body.kind ≠ .parallel ∧
      ∀ u g, sample.HasUnscheduledCall u g → ∃ used, u.gateUsage g = .ok used) ∧
    strayCalls.schedule = .error (.circuit (.qubitOutOfRange "q" 5 2)) ∧
    strayCalls.pruned.schedule = .error (.circuit (.qubitOutOfRange "q" 5 2)) ∧
    ∃ u g, strayCalls.HasUnscheduledCall u g ∧ u.gateUsage g = .error (.qubitOutOfRange "q" 5 2) := by
  have hfails : strayCalls.schedule = .error (.circuit (.qubitOutOfRange "q" 5 2)) := rfl
  obtain ⟨-, -, hblame, hpruned⟩ := schedule_eq_ok_iff strayCalls
  refine ⟨(schedule_eq_ok_iff sample).1.1 exists_schedule_sample, hfails, ?_, ?_⟩
  · rwa [← fault?_eq_some_iff, hpruned, fault?_eq_some_iff]
  · obtain ⟨u, g, e, hg, he, heq⟩ := hblame _ (by decide) hfails
    cases heq
    exact ⟨u, g, hg, he⟩

end Circuit

end IonSchedule
