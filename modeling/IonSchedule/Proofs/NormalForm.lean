import IonSchedule.Proofs.Blocks

/-! # Normal form

A circuit is in normal form when nothing is left to schedule and no sequential block stands directly inside
another, except among the statements of its body. Main statement: schedules are in normal form, and the circuits
in normal form are those that scheduling leaves as they are, whether or not their qubits resolve. So scheduling
twice is scheduling once.
-/
namespace IonSchedule

namespace Statement

def isSequential : Statement → Bool
  | .block kind _ => kind = .sequential
  | _ => false

theorem isSequential_of_isLeaf {s : Statement} (h : s.isLeaf = true) : s.isSequential = false := by
  cases s with
  | gate g => rfl
  | block kind ss =>
    simp only [isLeaf, decide_eq_true_eq] at h
    simp [isSequential, h]
  | loop count kind body => rfl

end Statement

/-- The block is scheduled, and if it is sequential, none of its statements is. -/
def Block.IsFlat (b : Block) : Prop :=
  b.kind ≠ .unscheduled ∧ (b.kind = .sequential → ∀ s ∈ b.statements, s.isSequential = false)

/-- Nothing is left to schedule or to splice; the statements of the body itself may be sequential blocks. -/
structure Circuit.IsNormal (c : Circuit) : Prop where
  sequential : c.body.kind = .sequential
  body : ∀ b ∈ Statement.blocksAll c.body.statements, b.IsFlat
  macros : ∀ m ∈ c.macros.values, ∀ b ∈ m.body.blocks, b.IsFlat

instance (b : Block) : Decidable b.IsFlat := inferInstanceAs (Decidable (_ ∧ (_ → _)))

instance (c : Circuit) : Decidable c.IsNormal :=
  decidable_of_iff (_ ∧ _ ∧ _) ⟨fun h => ⟨h.1, h.2.1, h.2.2⟩, fun h => ⟨h.sequential, h.body, h.macros⟩⟩

namespace Statement

abbrev IsFlat (s : Statement) : Prop := s.AllBlocks Block.IsFlat

theorem isLeaf_of_isFlat {s : Statement} (hflat : s.IsFlat) (hs : s.isSequential = false) : s.isLeaf = true := by
  cases s with
  | gate g => rfl
  | block kind ss =>
    have hkind := (allBlocks_block_iff.1 hflat).1.1
    cases kind with
    | sequential => simp [isSequential] at hs
    | parallel => rfl
    | unscheduled => simp at hkind
  | loop count kind body => rfl

end Statement

namespace Timeline

variable {t : Timeline} {s : Statement}

/-- Leaves with nothing left to schedule in them. -/
def IsFlat (t : Timeline) : Prop := ∀ s ∈ t.contents, s.isLeaf = true ∧ s.IsFlat

theorem isFlat_empty : empty.IsFlat := by simp [IsFlat, empty, contents]

theorem IsFlat.statements (h : t.IsFlat) (hs : s ∈ t.statements) : s.isLeaf = true ∧ s.IsFlat := by
  rcases mem_statements hs with hs | ⟨m, hm, -, rfl⟩
  · exact h s hs
  · refine ⟨rfl, Statement.allBlocks_block_iff.2 ⟨⟨by simp, by simp⟩, fun x hx => ?_⟩⟩
    exact (h x (mem_contents_iff.2 ⟨m, hm, hx⟩)).2

end Timeline

namespace Schedule

variable {u : Universe} {after last : Option Nat} {t t' : Timeline} {s : Statement} {ss : List Statement}
  {j : Judgement}

/-- Nothing that comes out is left to schedule or to splice. -/
def Judgement.IsFlat : Judgement → Prop
  | .arranged s s' _ => s'.IsFlat ∧ (s.isLeaf = true → s'.isLeaf = true)
  | .members _ out _ => ∀ s ∈ out, s.IsFlat
  | .sequence topLevel _ out _ => (∀ s ∈ out, s.IsFlat) ∧ (topLevel = false → ∀ s ∈ out, s.isSequential = false)
  | .piece topLevel _ out _ => (∀ s ∈ out, s.IsFlat) ∧ (topLevel = false → ∀ s ∈ out, s.isSequential = false)
  | .body kind _ out _ => (⟨kind.scheduled, out⟩ : Block).IsFlat ∧ ∀ s ∈ out, s.IsFlat
  | .placed _ _ t p => t.IsFlat → p.timeline.IsFlat
  | .placedAll _ _ _ t p => t.IsFlat → p.timeline.IsFlat

private theorem isFlat_leaf_gate (g : GateCall) : (Statement.gate g).isLeaf = true ∧ (Statement.gate g).IsFlat :=
  ⟨rfl, Statement.allBlocks_gate g⟩

theorem Derives.isFlat (h : Derives u j) : j.IsFlat := by
  induction h with
  | gate => exact ⟨Statement.allBlocks_gate _, id⟩
  | @block kind ss out stats body ih =>
    refine ⟨Statement.allBlocks_block_iff.2 ih, fun hleaf => ?_⟩
    simp only [Statement.isLeaf, decide_eq_true_eq] at hleaf ⊢
    rw [hleaf]
    rfl
  | loop body ih => exact ⟨Statement.allBlocks_loop_iff.2 ih, fun _ => rfl⟩
  | noMember => simp [Judgement.IsFlat]
  | member first others ihfirst ihothers => exact List.forall_mem_cons.2 ⟨ihfirst.1, ihothers⟩
  | noPiece => simp [Judgement.IsFlat]
  | pieces head tail ihhead ihtail =>
    refine ⟨List.forall_mem_append.2 ⟨ihhead.1, ihtail.1⟩, fun htop => ?_⟩
    exact List.forall_mem_append.2 ⟨ihhead.2 htop, ihtail.2 htop⟩
  | moments body ih => exact ⟨ih.2, fun _ => ih.1.2 rfl⟩
  | spliced body ih => exact ⟨ih.2, fun _ => ih.1.2 rfl⟩
  | nested body ih => exact ⟨List.forall_mem_singleton.2 (Statement.allBlocks_block_iff.2 ih), by simp⟩
  | kept hleaf arranged ih =>
    refine ⟨List.forall_mem_singleton.2 ih.1, fun _ => List.forall_mem_singleton.2 ?_⟩
    exact Statement.isSequential_of_isLeaf (ih.2 hleaf)
  | sequential sequence ih => exact ⟨⟨by simp [BlockKind.scheduled], fun _ => ih.2 rfl⟩, ih.1⟩
  | parallel members ih => exact ⟨⟨by simp [BlockKind.scheduled], by simp [BlockKind.scheduled]⟩, ih⟩
  | unscheduled placed ih =>
    have hflat := ih Timeline.isFlat_empty
    refine ⟨⟨by simp [BlockKind.scheduled], fun _ s hs => ?_⟩, fun s hs => (hflat.statements hs).2⟩
    exact Statement.isSequential_of_isLeaf (hflat.statements hs).1
  | chain placed ih => exact ih
  | again body enters ih =>
    -- a flat block that came out of scheduling has leaves only
    intro ht
    refine enters.forall_contents isFlat_leaf_gate ht fun s hs => ⟨?_, ih.2 s hs⟩
    exact Statement.isLeaf_of_isFlat (ih.2 s hs) (ih.1.2 rfl s hs)
  | leaf hleaf arranged enters ih => exact fun ht => enters.forall_contents isFlat_leaf_gate ht ⟨ih.2 hleaf, ih.1⟩
  | none => exact id
  | next first others ihfirst ihothers => exact fun ht => ihothers (ihfirst ht)

theorem ArrangesBlock.isFlat {topLevel : Bool} {b b' : Block} (h : ArrangesBlock u topLevel b b') :
    (∀ s ∈ b'.statements, s.IsFlat) ∧ (topLevel = false → b'.IsFlat) ∧
    (topLevel = true → b'.kind = .sequential) := by
  cases h with
  | body statements => exact ⟨statements.isFlat.2, fun _ => statements.isFlat.1, by simp⟩
  | top statements => exact ⟨statements.isFlat.1, by simp, fun _ => rfl⟩
  | topMoments statements => exact ⟨statements.isFlat.2, by simp, fun _ => rfl⟩

theorem arrangeEach_of_fixed (h : ∀ s ∈ ss, arrange u s = .ok (s, 0)) : arrangeEach u ss = .ok (ss, 0) := by
  induction ss with
  | nil => rfl
  | cons s rest ih =>
    rw [arrangeEach, h s List.mem_cons_self, ih fun x hx => h x (List.mem_cons_of_mem s hx)]
    rfl

/-- A statement that is left as it is stays in its place, unless it has to be spliced. -/
theorem spliceOne_of_fixed {topLevel : Bool} (h : arrange u s = .ok (s, 0)) (hflat : s.IsFlat)
    (hs : topLevel = false → s.isSequential = false) : spliceOne u topLevel s = .ok ([s], 0) := by
  cases s with
  | gate g => simp only [spliceOne, h]; rfl
  | block kind inner =>
    cases kind with
    | sequential =>
      have htop : topLevel = true := by simpa [Statement.isSequential] using hs
      simp only [arrange_block, bind_eq_ok_iff, pure_eq_ok_iff, Prod.mk.injEq, Statement.block.injEq] at h
      obtain ⟨⟨out, stats⟩, hbody, ⟨-, rfl⟩, rfl⟩ := h
      replace hbody : splice u false out = .ok (out, 0) := hbody
      simp only [spliceOne, hbody, htop]
      rfl
    | parallel => simp only [spliceOne, h]; rfl
    | unscheduled => exact absurd rfl (Statement.allBlocks_block_iff.1 hflat).1.1
  | loop count kind body => simp only [spliceOne, h]; rfl

theorem splice_of_fixed {topLevel : Bool} (h : ∀ s ∈ ss, arrange u s = .ok (s, 0)) (hflat : ∀ s ∈ ss, s.IsFlat)
    (hs : topLevel = false → ∀ s ∈ ss, s.isSequential = false) : splice u topLevel ss = .ok (ss, 0) := by
  induction ss with
  | nil => rfl
  | cons s rest ih =>
    have hfirst : spliceOne u topLevel s = .ok ([s], 0) :=
      spliceOne_of_fixed (h s List.mem_cons_self) (hflat s List.mem_cons_self) fun htop =>
        hs htop s List.mem_cons_self
    have hrest : splice u topLevel rest = .ok (rest, 0) :=
      ih (fun x hx => h x (List.mem_cons_of_mem s hx)) (fun x hx => hflat x (List.mem_cons_of_mem s hx))
        fun htop x hx => hs htop x (List.mem_cons_of_mem s hx)
    rw [splice_cons, hfirst, hrest]
    rfl

theorem arrangeBody_of_fixed {kind : BlockKind} (h : ∀ s ∈ ss, arrange u s = .ok (s, 0))
    (hflat : ∀ s ∈ ss, s.IsFlat) (hb : (⟨kind, ss⟩ : Block).IsFlat) : arrangeBody u kind ss = .ok (ss, 0) := by
  cases kind with
  | sequential => exact splice_of_fixed h hflat fun _ => hb.2 rfl
  | parallel => exact arrangeEach_of_fixed h
  | unscheduled => exact absurd rfl hb.1

theorem scheduled_of_isFlat {b : Block} (h : b.IsFlat) : b.kind.scheduled = b.kind := by
  rcases b with ⟨kind, ss⟩
  cases kind with
  | sequential => rfl
  | parallel => rfl
  | unscheduled => exact absurd rfl h.1

/-- What is flat is left as it is. -/
theorem arrange_of_isFlat (u : Universe) (s : Statement) (h : s.IsFlat) : arrange u s = .ok (s, 0) := by
  induction s using Statement.induction with
  | gate g => rfl
  | block kind ss ih =>
    obtain ⟨hb, hss⟩ := Statement.allBlocks_block_iff.1 h
    have hkind : kind.scheduled = kind := scheduled_of_isFlat hb
    rw [arrange_block, arrangeBody_of_fixed (fun s hs => ih s hs (hss s hs)) hss hb]
    simp only [hkind, bind, Except.bind, pure, Except.pure]
  | loop count kind body ih =>
    obtain ⟨hb, hss⟩ := Statement.allBlocks_loop_iff.1 h
    have hkind : kind.scheduled = kind := scheduled_of_isFlat hb
    rw [arrange_loop, arrangeBody_of_fixed (fun s hs => ih s hs (hss s hs)) hss hb]
    simp only [hkind, bind, Except.bind, pure, Except.pure]

theorem arrangeBlock_of_isFlat (u : Universe) {b : Block} (h : ∀ b' ∈ b.blocks, b'.IsFlat) :
    arrangeBlock u b = .ok (b, 0) := by
  obtain ⟨hb, hss⟩ := Block.forall_blocks_iff.1 h
  have hfixed : arrangeBody u b.kind b.statements = .ok (b.statements, 0) :=
    arrangeBody_of_fixed (fun s hs => arrange_of_isFlat u s (hss s hs)) hss hb
  rw [arrangeBlock_eq, hfixed, scheduled_of_isFlat hb]
  rfl

end Schedule

namespace Circuit

open Schedule

theorem isNormal_of_schedule {c c' : Circuit} {stats : Stats} (h : c.schedule = .ok (c', stats)) : c'.IsNormal := by
  have ha := arranges_of_schedule h
  refine ⟨ha.body.isFlat.2.2 rfl, ?_, ?_⟩
  · exact Statement.forall_blocksAll_iff.2 ha.body.isFlat.1
  · intro m' hm'
    obtain ⟨m, -, -, -, hbody⟩ := ha.exists_macro hm'
    exact Block.forall_blocks_iff.2 ⟨hbody.isFlat.2.1 rfl, hbody.isFlat.1⟩

theorem IsNormal.scheduleBody_eq {c : Circuit} (h : c.IsNormal) : c.scheduleBody = .ok (c.body, 0) := by
  have hflat : ∀ s ∈ c.body.statements, s.IsFlat := Statement.forall_blocksAll_iff.1 h.body
  have hsplice : splice c.slots true c.body.statements = .ok (c.body.statements, 0) :=
    splice_of_fixed (fun s hs => arrange_of_isFlat c.slots s (hflat s hs)) hflat (by simp)
  have hbody : c.body = .sequential c.body.statements := by
    rw [Block.sequential, ← h.sequential]
  simp only [scheduleBody, h.sequential, hsplice]
  exact congrArg (fun b => Except.ok (b, 0)) hbody.symm

theorem foldl_stats_eq_zero {ms : List (Macro × Stats)} (h : ∀ m ∈ ms, m.2 = 0) :
    ms.foldl (fun sum m => sum + m.2) 0 = (0 : Stats) := by
  induction ms with
  | nil => rfl
  | cons m rest ih =>
    rw [List.forall_mem_cons] at h
    rw [List.foldl_cons, h.1]
    exact ih h.2

/-- A circuit in normal form is its own schedule, and nothing is counted. -/
theorem IsNormal.schedule_eq {c : Circuit} (h : c.IsNormal) : c.schedule = .ok (c, 0) := by
  have hmacros : c.macros.traverse c.scheduleMacro = .ok (c.macros.map fun m => (m, 0)) := by
    rw [Table.traverse_eq_ok_iff]
    simp only [Table.map, List.forall₂_map_right_iff, List.forall₂_same]
    intro e he
    refine ⟨trivial, ?_⟩
    have hm := h.macros e.2 (List.mem_map_of_mem he)
    simp only [scheduleMacro, arrangeBlock_of_isFlat _ hm]
    rfl
  have hmap : (c.macros.map fun m => (m, (0 : Stats))).map Prod.fst = c.macros :=
    Catalog.eq_of_items_eq (by simp [Table.map, Function.comp_def])
  simp only [schedule, h.scheduleBody_eq, hmacros, bind, Except.bind, pure, Except.pure, hmap]
  refine congrArg (fun stats => Except.ok (c, stats)) (foldl_stats_eq_zero fun m hm => ?_)
  simp only [Table.values, Table.map, List.map_map, List.mem_map, Function.comp_apply] at hm
  obtain ⟨entry, -, rfl⟩ := hm
  rfl

/-- Schedules are in normal form, and a circuit is its own schedule exactly if it is in normal form; then nothing is
counted. So scheduling a schedule again succeeds and changes nothing. -/
theorem schedule_fixed_iff_isNormal (c : Circuit) :
    (∀ c' stats, c.schedule = .ok (c', stats) → c'.IsNormal) ∧
    ((∃ stats, c.schedule = .ok (c, stats)) ↔ c.IsNormal) ∧
    (∀ stats, c.schedule = .ok (c, stats) → stats = ⟨0, 0, 0, 0⟩) ∧
    (∀ c' stats, c.schedule = .ok (c', stats) → c'.schedule = .ok (c', ⟨0, 0, 0, 0⟩)) := by
  have hfixed : ∀ stats, c.schedule = .ok (c, stats) → stats = ⟨0, 0, 0, 0⟩ := by
    intro stats h
    have hzero := (isNormal_of_schedule h).schedule_eq
    rw [h] at hzero
    cases hzero
    rfl
  refine ⟨fun _ _ => isNormal_of_schedule, ?_, hfixed, fun c' stats h => (isNormal_of_schedule h).schedule_eq⟩
  constructor
  · rintro ⟨stats, h⟩
    exact isNormal_of_schedule h
  · intro h
    exact ⟨0, h.schedule_eq⟩

theorem schedule_fixed_sample :
    ∃ c' stats, sample.schedule = .ok (c', stats) ∧ c'.IsNormal ∧ c'.schedule = .ok (c', ⟨0, 0, 0, 0⟩) ∧
      ¬ ∃ stats, sample.schedule = .ok (sample, stats) := by
  obtain ⟨c', stats, h⟩ := exists_schedule_sample
  obtain ⟨hnormal, hiff, -, hagain⟩ := schedule_fixed_iff_isNormal sample
  have hsample : ¬ sample.IsNormal := by decide +kernel
  exact ⟨c', stats, h, hnormal c' stats h, hagain c' stats h, fun hfixed => hsample (hiff.1 hfixed)⟩

end Circuit

end IonSchedule
