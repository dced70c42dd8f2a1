import IonSchedule.Verification
import IonSchedule.Proofs.NormalForm
import IonSchedule.Proofs.ParallelLegality

/-! # Scheduled form

Verification is decided block by block: it accepts a block exactly if every block in it is scheduled, flat and
legal, and its tally counts those blocks. Schedules are flat, and they are legal if the circuit was, so that
verification accepts them.
-/
namespace IonSchedule

namespace Tally

/-- The number of blocks, the number of parallel ones, and the most members of a parallel one. -/
def ofBlocks (bs : List Block) : Tally where
  blocks := bs.length
  parallelBlocks := bs.countP (·.kind = .parallel)
  width := ((bs.filter (·.kind = .parallel)).map (·.statements.length)).foldr max 0

@[simp] theorem ofBlocks_nil : ofBlocks [] = empty := rfl

theorem foldr_max_append (xs ys : List Nat) : (xs ++ ys).foldr max 0 = max (xs.foldr max 0) (ys.foldr max 0) := by
  induction xs with
  | nil => simp
  | cons x xs ih => rw [List.cons_append, List.foldr_cons, List.foldr_cons, ih, max_assoc]

theorem ofBlocks_append (bs cs : List Block) : ofBlocks (bs ++ cs) = (ofBlocks bs).join (ofBlocks cs) := by
  simp only [ofBlocks, join, List.length_append, List.countP_append, List.filter_append, List.map_append,
    foldr_max_append]

theorem ofBlocks_sequential (ss : List Statement) (bs : List Block) :
    ofBlocks (⟨.sequential, ss⟩ :: bs) = (ofBlocks bs).sequential := by
  rw [← List.singleton_append, ofBlocks_append]
  rfl

theorem ofBlocks_parallel (ss : List Statement) (bs : List Block) :
    ofBlocks (⟨.parallel, ss⟩ :: bs) = (ofBlocks bs).parallel ss.length := by
  rw [← List.singleton_append, ofBlocks_append]
  simp [ofBlocks, parallel]

end Tally

structure Block.IsScheduled (u : Universe) (b : Block) : Prop where
  flat : b.IsFlat
  legal : b.IsLegal u

abbrev Statement.IsScheduled (u : Universe) (s : Statement) : Prop := s.AllBlocks (Block.IsScheduled u)

/-- The form of a body; only the body of a circuit may hold sequential blocks in a sequential block. -/
structure Block.InScheduledForm (u : Universe) (topLevel : Bool) (b : Block) : Prop where
  scheduled : b.kind ≠ .unscheduled
  flat : b.kind = .sequential → topLevel = false → ∀ s ∈ b.statements, s.isSequential = false
  legal : b.IsLegal u
  statements : ∀ s ∈ b.statements, s.IsScheduled u

/-- The form of a whole circuit. -/
structure Circuit.IsScheduled (c : Circuit) : Prop where
  body : c.body.InScheduledForm c.slots true
  macros : ∀ m ∈ c.macros.values, m.body.InScheduledForm (c.macroSlots m) false

theorem Block.inScheduledForm_iff {u : Universe} {b : Block} :
    b.InScheduledForm u false ↔ b.IsScheduled u ∧ ∀ s ∈ b.statements, s.IsScheduled u := by
  constructor
  · intro h
    exact ⟨⟨⟨h.scheduled, fun hkind => h.flat hkind rfl⟩, h.legal⟩, h.statements⟩
  · rintro ⟨⟨hflat, hlegal⟩, hss⟩
    exact ⟨hflat.1, fun hkind _ => hflat.2 hkind, hlegal, hss⟩

theorem Statement.isScheduled_block_iff {u : Universe} {kind : BlockKind} {ss : List Statement} :
    (Statement.block kind ss).IsScheduled u ↔ (⟨kind, ss⟩ : Block).InScheduledForm u false :=
  allBlocks_block_iff.trans Block.inScheduledForm_iff.symm

theorem Statement.isScheduled_loop_iff {u : Universe} {count : LoopCount} {kind : BlockKind} {ss : List Statement} :
    (Statement.loop count kind ss).IsScheduled u ↔ (⟨kind, ss⟩ : Block).InScheduledForm u false :=
  allBlocks_loop_iff.trans Block.inScheduledForm_iff.symm

namespace Verification

variable {u : Universe} {location : Location} {topLevel crowded : Bool} {ss : List Statement} {tally : Tally}

/-- Checks one statement of a sequential block. -/
def checkStep (u : Universe) (location : Location) (topLevel : Bool) : Statement → Except ScheduleError Tally
  | .gate _ => .ok .empty
  | .block kind ss =>
    if kind = .sequential ∧ topLevel = false then .error (.violation location .nestedSequential)
    else checkBlock u location false ⟨kind, ss⟩
  | .loop _ kind body => checkBlock u location false ⟨kind, body⟩

theorem checkSequence_cons (u : Universe) (location : Location) (topLevel : Bool) (s : Statement)
    (rest : List Statement) :
    checkSequence u location topLevel (s :: rest) = (do
      let first ← checkStep u location topLevel s
      let others ← checkSequence u location topLevel rest
      return first.join others) := by
  cases s with
  | gate g => rw [checkSequence]; rfl
  | block kind ss => cases kind <;> cases topLevel <;> rw [checkSequence] <;> rfl
  | loop count kind body => cases kind <;> rw [checkSequence] <;> rfl

/-- Checks one member of a parallel block. -/
def checkMember (u : Universe) (location : Location) (crowded : Bool) :
    Statement → Except ScheduleError (Tally × Usage)
  | .gate g =>
    if crowded && !g.isParallelizable then .error (.violation location (.notParallelizable g))
    else do
      let usage ← (u.usage (.gate g)).mapError .circuit
      return (.empty, usage)
  | .block kind ss =>
    if kind = .parallel then .error (.violation location .nestedParallel)
    else do
      let tally ← checkBlock u location false ⟨kind, ss⟩
      let usage ← (u.usage (.block kind ss)).mapError .circuit
      return (tally, usage)
  | .loop .. => .error (.violation location .loopInParallel)

theorem checkMembers_cons (u : Universe) (location : Location) (crowded : Bool) (s : Statement)
    (rest : List Statement) (occupied : Usage) :
    checkMembers u location crowded (s :: rest) occupied = (do
      let (first, usage) ← checkMember u location crowded s
      if occupied.disjoint usage then do
        let others ← checkMembers u location crowded rest (occupied ∪ usage)
        return first.join others
      else .error (.violation location .sharedQubit)) := by
  cases s with
  | gate g => rw [checkMembers, checkMember, Universe.usage]
  | block kind ss =>
    cases kind with
    | sequential =>
      rw [checkMembers]
      simp only [checkMember, checkBlock, Universe.usage, reduceCtorEq, if_false]
      cases checkSequence u location false ss <;> rfl
    | parallel => rw [checkMembers]; rfl
    | unscheduled => rw [checkMembers]; rfl
  | loop count kind body => rw [checkMembers]; rfl

/-- The checks of a statement succeed exactly if it is scheduled, and count its blocks. -/
structure Decided (u : Universe) (location : Location) (s : Statement) : Prop where
  step : ∀ topLevel tally, checkStep u location topLevel s = .ok tally ↔
    s.IsScheduled u ∧ (topLevel = false → s.isSequential = false) ∧ tally = .ofBlocks s.blocks
  member : ∀ crowded tally used, checkMember u location crowded s = .ok (tally, used) ↔
    s.IsScheduled u ∧ s.MayJoin crowded ∧ u.usage s = .ok used ∧ tally = .ofBlocks s.blocks

theorem checkSequence_eq_ok_iff (h : ∀ s ∈ ss, Decided u location s) :
    checkSequence u location topLevel ss = .ok tally ↔
      (∀ s ∈ ss, s.IsScheduled u) ∧ (topLevel = false → ∀ s ∈ ss, s.isSequential = false) ∧
        tally = .ofBlocks (Statement.blocksAll ss) := by
  induction ss generalizing tally with
  | nil =>
    rw [checkSequence, pure_eq_ok_iff, eq_comm]
    simp [Statement.blocksAll]
  | cons s rest ih =>
    rw [List.forall_mem_cons] at h
    simp only [checkSequence_cons, bind_eq_ok_iff, pure_eq_ok_iff, h.1.step, ih h.2, List.forall_mem_cons,
      Statement.blocksAll, Tally.ofBlocks_append]
    constructor
    · rintro ⟨_, ⟨hs, hflat, rfl⟩, _, ⟨hrest, hflats, rfl⟩, rfl⟩
      exact ⟨⟨hs, hrest⟩, fun htop => ⟨hflat htop, hflats htop⟩, rfl⟩
    · rintro ⟨⟨hs, hrest⟩, hflats, rfl⟩
      exact ⟨_, ⟨hs, fun htop => (hflats htop).1, rfl⟩, _, ⟨hrest, fun htop => (hflats htop).2, rfl⟩, rfl⟩

/-- The members are checked against what those before them use. -/
theorem checkMembers_eq_ok_iff {occupied : Usage} (h : ∀ s ∈ ss, Decided u location s) :
    checkMembers u location crowded ss occupied = .ok tally ↔
      (∀ s ∈ ss, s.IsScheduled u) ∧ (∀ s ∈ ss, s.MayJoin crowded) ∧
        (∀ s ∈ ss, ∃ used, u.usage s = .ok used ∧ occupied.disjoint used = true) ∧ ss.Pairwise u.Apart ∧
          tally = .ofBlocks (Statement.blocksAll ss) := by
  induction ss generalizing tally occupied with
  | nil =>
    rw [checkMembers, pure_eq_ok_iff, eq_comm]
    simp [Statement.blocksAll]
  | cons s rest ih =>
    rw [List.forall_mem_cons] at h
    simp only [checkMembers_cons, bind_eq_ok_iff, Prod.exists, h.1.member, List.forall_mem_cons, List.pairwise_cons,
      Statement.blocksAll, Tally.ofBlocks_append]
    constructor
    · rintro ⟨_, used, ⟨hs, hjoin, hu, rfl⟩, hrest⟩
      split at hrest
      · rename_i hfree
        -- the others are checked against the first member too, so they are apart from it
        simp only [bind_eq_ok_iff, pure_eq_ok_iff, ih h.2] at hrest
        obtain ⟨_, ⟨hss, hjoins, hfrees, hapart, rfl⟩, rfl⟩ := hrest
        refine ⟨⟨hs, hss⟩, ⟨hjoin, hjoins⟩, ⟨⟨used, hu, hfree⟩, ?_⟩, ⟨?_, hapart⟩, rfl⟩
        · intro s' hs'
          obtain ⟨other, ho, hdisjoint⟩ := hfrees s' hs'
          exact ⟨other, ho, (Usage.disjoint_union_left.1 hdisjoint).1⟩
        · intro s' hs' a b ha hb
          obtain ⟨other, ho, hdisjoint⟩ := hfrees s' hs'
          cases hu.symm.trans ha
          cases ho.symm.trans hb
          exact (Usage.disjoint_union_left.1 hdisjoint).2
      · simp at hrest
    · rintro ⟨⟨hs, hss⟩, ⟨hjoin, hjoins⟩, ⟨⟨used, hu, hfree⟩, hfrees⟩, ⟨hfirst, hapart⟩, rfl⟩
      refine ⟨_, used, ⟨hs, hjoin, hu, rfl⟩, ?_⟩
      simp only [hfree, if_true, bind_eq_ok_iff, pure_eq_ok_iff, ih h.2]
      refine ⟨_, ⟨hss, hjoins, ?_, hapart, rfl⟩, rfl⟩
      intro s' hs'
      obtain ⟨other, ho, hdisjoint⟩ := hfrees s' hs'
      exact ⟨other, ho, Usage.disjoint_union_left.2 ⟨hdisjoint, hfirst s' hs' used other hu ho⟩⟩

theorem checkBlock_of_decided {b : Block} (h : ∀ s ∈ b.statements, Decided u location s) :
    checkBlock u location topLevel b = .ok tally ↔ b.InScheduledForm u topLevel ∧ tally = .ofBlocks b.blocks := by
  rcases b with ⟨kind, ss⟩
  cases kind with
  | sequential =>
    simp only [checkBlock, map_eq_ok_iff, checkSequence_eq_ok_iff h, Block.blocks, Tally.ofBlocks_sequential]
    constructor
    · rintro ⟨_, ⟨hss, hflat, rfl⟩, rfl⟩
      exact ⟨⟨by simp, fun _ => hflat, by simp [Block.IsLegal], hss⟩, rfl⟩
    · rintro ⟨hform, rfl⟩
      exact ⟨_, ⟨hform.statements, hform.flat rfl, rfl⟩, rfl⟩
  | parallel =>
    simp only [checkBlock, map_eq_ok_iff, checkMembers_eq_ok_iff h, Block.blocks, Tally.ofBlocks_parallel]
    have hempty : ∀ used : Usage, (∅ : Usage).disjoint used = true := by simp [Usage.disjoint_iff]
    simp only [hempty, and_true]
    constructor
    · rintro ⟨_, ⟨hss, hjoin, hresolved, hapart, rfl⟩, rfl⟩
      exact ⟨⟨by simp, by simp, fun _ => Universe.legalMembers_iff.1 ⟨hjoin, hresolved, hapart⟩, hss⟩, rfl⟩
    · rintro ⟨hform, rfl⟩
      obtain ⟨hjoin, hresolved, hapart⟩ := Universe.legalMembers_iff.2 (hform.legal rfl)
      exact ⟨_, ⟨hform.statements, hjoin, hresolved, hapart, rfl⟩, rfl⟩
  | unscheduled =>
    simp only [checkBlock, reduceCtorEq, false_iff]
    exact fun hform => hform.1.scheduled rfl

theorem decided_gate (u : Universe) (location : Location) (g : GateCall) : Decided u location (.gate g) where
  step topLevel tally := by
    simp [checkStep, Statement.allBlocks_gate, Statement.isSequential, Statement.blocks, eq_comm]
  member crowded tally used := by
    rw [checkMember]
    split
    · rename_i hg
      simp only [Bool.and_eq_true, Bool.not_eq_true'] at hg
      simp [Statement.MayJoin, Statement.gate?, hg]
    · rename_i hg
      simp only [bind_eq_ok_iff, mapError_eq_ok_iff, pure_eq_ok_iff, Prod.mk.injEq]
      constructor
      · rintro ⟨used, hu, rfl, rfl⟩
        refine ⟨Statement.allBlocks_gate g, ⟨rfl, ?_⟩, hu, rfl⟩
        rintro rfl g' ⟨⟩
        simpa using hg
      · rintro ⟨-, -, hu, rfl⟩
        exact ⟨used, hu, rfl, rfl⟩

theorem decided_block {kind : BlockKind} (h : ∀ s ∈ ss, Decided u location s) :
    Decided u location (.block kind ss) := by
  have hblock : ∀ tally, checkBlock u location false ⟨kind, ss⟩ = .ok tally ↔
      (Statement.block kind ss).IsScheduled u ∧ tally = .ofBlocks (Statement.block kind ss).blocks := by
    intro tally
    rw [checkBlock_of_decided h, Statement.isScheduled_block_iff, Block.blocks, Statement.blocks]
  constructor
  · intro topLevel tally
    rw [checkStep]
    split
    · rename_i hnested
      simp [Statement.isSequential, hnested]
    · rename_i hnested
      have hflat : topLevel = false → (Statement.block kind ss).isSequential = false := by
        intro htop
        simpa [Statement.isSequential, htop] using hnested
      rw [hblock]
      constructor
      · rintro ⟨hs, rfl⟩
        exact ⟨hs, hflat, rfl⟩
      · rintro ⟨hs, -, rfl⟩
        exact ⟨hs, rfl⟩
  · intro crowded tally used
    rw [checkMember]
    split
    · rename_i hkind
      simp [Statement.MayJoin, Statement.mayShare, hkind]
    · rename_i hkind
      have hjoin : (Statement.block kind ss).MayJoin crowded :=
        ⟨by simpa [Statement.mayShare] using hkind, by simp [Statement.gate?]⟩
      simp only [bind_eq_ok_iff, mapError_eq_ok_iff, pure_eq_ok_iff, Prod.mk.injEq, hblock]
      constructor
      · rintro ⟨_, ⟨hs, rfl⟩, _, hu, rfl, rfl⟩
        exact ⟨hs, hjoin, hu, rfl⟩
      · rintro ⟨hs, -, hu, rfl⟩
        exact ⟨_, ⟨hs, rfl⟩, used, hu, rfl, rfl⟩

theorem decided_loop {count : LoopCount} {kind : BlockKind} (h : ∀ s ∈ ss, Decided u location s) :
    Decided u location (.loop count kind ss) where
  step topLevel tally := by
    rw [checkStep, checkBlock_of_decided h, Statement.isScheduled_loop_iff, Block.blocks, Statement.blocks]
    simp [Statement.isSequential]
  member crowded tally used := by simp [checkMember, Statement.MayJoin, Statement.mayShare]

theorem decided (u : Universe) (location : Location) (s : Statement) : Decided u location s := by
  induction s using Statement.induction with
  | gate g => exact decided_gate u location g
  | block kind ss ih => exact decided_block ih
  | loop count kind body ih => exact decided_loop ih

theorem checkBlock_eq_ok_iff {b : Block} :
    checkBlock u location topLevel b = .ok tally ↔ b.InScheduledForm u topLevel ∧ tally = .ofBlocks b.blocks :=
  checkBlock_of_decided fun s _ => decided u location s

theorem checkMacros_eq_ok_iff {c : Circuit} {ms : List Macro} :
    checkMacros c ms = .ok tally ↔
      (∀ m ∈ ms, m.body.InScheduledForm (c.macroSlots m) false) ∧
      tally = .ofBlocks (ms.flatMap (·.body.blocks)) := by
  induction ms generalizing tally with
  | nil =>
    rw [checkMacros, pure_eq_ok_iff, eq_comm]
    simp
  | cons m rest ih =>
    simp only [checkMacros, bind_eq_ok_iff, pure_eq_ok_iff, checkBlock_eq_ok_iff, ih, List.forall_mem_cons,
      List.flatMap_cons, Tally.ofBlocks_append]
    constructor
    · rintro ⟨_, ⟨hm, rfl⟩, _, ⟨hrest, rfl⟩, rfl⟩
      exact ⟨⟨hm, hrest⟩, rfl⟩
    · rintro ⟨⟨hm, hrest⟩, rfl⟩
      exact ⟨_, ⟨hm, rfl⟩, _, ⟨hrest, rfl⟩, rfl⟩

end Verification

namespace Circuit

variable {c c' : Circuit} {stats : Stats}

theorem IsScheduled.verify (h : c.IsScheduled) : ∃ report, c.verify = .ok report ∧ report.passed = true := by
  have hbody : Verification.checkBlock c.slots .body true c.body = .ok (.ofBlocks c.body.blocks) :=
    Verification.checkBlock_eq_ok_iff.2 ⟨h.body, rfl⟩
  have hmacros : Verification.checkMacros c c.macros.values =
      .ok (.ofBlocks (c.macros.values.flatMap (·.body.blocks))) :=
    Verification.checkMacros_eq_ok_iff.2 ⟨h.macros, rfl⟩
  simp only [Circuit.verify, hbody, hmacros]
  exact ⟨_, rfl, rfl⟩

/-- Every block of a circuit at any depth, those of its macros included. -/
def blocks (c : Circuit) : List Block := c.body.blocks ++ c.macros.values.flatMap (·.body.blocks)

/-- Verification accepts exactly the circuits in scheduled form, and its report counts all of their blocks. -/
theorem verify_eq_ok_iff {report : Report} :
    c.verify = .ok report ↔ c.IsScheduled ∧ report = ⟨.ofBlocks c.blocks, true⟩ := by
  simp only [Circuit.verify, bind_eq_ok_iff, pure_eq_ok_iff, Verification.checkBlock_eq_ok_iff,
    Verification.checkMacros_eq_ok_iff, blocks, Tally.ofBlocks_append]
  constructor
  · rintro ⟨_, ⟨hbody, rfl⟩, _, ⟨hmacros, rfl⟩, rfl⟩
    exact ⟨⟨hbody, hmacros⟩, rfl⟩
  · rintro ⟨h, rfl⟩
    exact ⟨_, ⟨h.body, rfl⟩, _, ⟨h.macros, rfl⟩, rfl⟩

/-- A legal circuit in normal form is scheduled. -/
theorem IsNormal.isScheduled (hn : c.IsNormal) (hl : c.IsLegal) : c.IsScheduled where
  body := by
    have hlegal := Block.forall_blocks_iff.1 hl.body
    refine ⟨by simp [hn.sequential], by simp, hlegal.1, fun s hs => ?_⟩
    have hflat : s.IsFlat := Statement.forall_blocksAll_iff.1 hn.body s hs
    exact fun b hb => ⟨hflat b hb, hlegal.2 s hs b hb⟩
  macros m hm := by
    refine Block.inScheduledForm_iff.2 (Block.forall_blocks_iff.1 fun b hb => ?_)
    exact ⟨hn.macros m hm b hb, hl.macros m hm b hb⟩

/-- The schedule of a circuit whose parallel blocks are legal passes verification. -/
theorem verify_schedule (hl : c.IsLegal) (h : c.schedule = .ok (c', stats)) :
    ∃ report, c'.verify = .ok report ∧ report.passed = true :=
  ((isNormal_of_schedule h).isScheduled (hl.schedule h)).verify

theorem verify_schedule_sample :
    sample.IsLegal ∧ ∃ c' stats report, sample.schedule = .ok (c', stats) ∧ c'.verify = .ok report ∧
      report.passed = true := by
  have hl : sample.IsLegal := by decide +kernel
  obtain ⟨c', stats, h⟩ := exists_schedule_sample
  obtain ⟨report, hreport⟩ := verify_schedule hl h
  exact ⟨hl, c', stats, report, h, hreport⟩

end Circuit

end IonSchedule
