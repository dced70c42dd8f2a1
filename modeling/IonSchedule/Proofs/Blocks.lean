import IonSchedule.Proofs.Preservation

/-! # Blocks at any depth

The blocks of a statement are listed at any depth, the bodies of loops included, so that a property of all
blocks splits into one of each statement. What a timeline holds is what entered it, up to gates taken out of
their groups.
-/
namespace IonSchedule

namespace Statement

/-- Induction on statements, with the hypothesis for each statement of a block. -/
theorem induction {motive : Statement → Prop} (gate : ∀ g, motive (.gate g))
    (block : ∀ kind ss, (∀ s ∈ ss, motive s) → motive (.block kind ss))
    (loop : ∀ count kind body, (∀ s ∈ body, motive s) → motive (.loop count kind body)) : ∀ s, motive s := by
  intro s
  refine @Statement.rec motive (fun ss => ∀ s ∈ ss, motive s) gate block loop ?_ ?_ s
  · simp
  · intro s ss hs hss s' hs'
    rcases List.mem_cons.1 hs' with rfl | hs'
    · exact hs
    · exact hss s' hs'

mutual

/-- Every block at any depth, the bodies of loops included. -/
def blocks : Statement → List Block
  | .gate _ => []
  | .block kind statements => ⟨kind, statements⟩ :: blocksAll statements
  | .loop _ kind body => ⟨kind, body⟩ :: blocksAll body

def blocksAll : List Statement → List Block
  | [] => []
  | s :: rest => blocks s ++ blocksAll rest

end

theorem blocksAll_eq_flatMap (ss : List Statement) : blocksAll ss = ss.flatMap blocks := by
  induction ss with
  | nil => rw [blocksAll, List.flatMap_nil]
  | cons s rest ih => rw [blocksAll, List.flatMap_cons, ih]

/-- A property of every block at any depth. -/
def AllBlocks (P : Block → Prop) (s : Statement) : Prop := ∀ b ∈ s.blocks, P b

variable {P : Block → Prop}

theorem allBlocks_gate (g : GateCall) : (Statement.gate g).AllBlocks P := by
  intro b hb
  simp [blocks] at hb

theorem allBlocks_block_iff {kind : BlockKind} {ss : List Statement} :
    (Statement.block kind ss).AllBlocks P ↔ P ⟨kind, ss⟩ ∧ ∀ s ∈ ss, s.AllBlocks P := by
  simp only [AllBlocks, blocks, blocksAll_eq_flatMap, List.forall_mem_cons, List.forall_mem_flatMap]

theorem allBlocks_loop_iff {count : LoopCount} {kind : BlockKind} {body : List Statement} :
    (Statement.loop count kind body).AllBlocks P ↔ P ⟨kind, body⟩ ∧ ∀ s ∈ body, s.AllBlocks P := by
  simp only [AllBlocks, blocks, blocksAll_eq_flatMap, List.forall_mem_cons, List.forall_mem_flatMap]

theorem forall_blocksAll_iff {ss : List Statement} : (∀ b ∈ blocksAll ss, P b) ↔ ∀ s ∈ ss, s.AllBlocks P := by
  rw [blocksAll_eq_flatMap, List.forall_mem_flatMap]
  rfl

/-- The calls of a block are calls of the statement around it. -/
theorem mem_calls_of_mem_blocks {s : Statement} {b : Block} (hb : b ∈ s.blocks) :
    ∀ g ∈ Reading.calls.readAll b.statements, g ∈ Reading.calls.read s := by
  suffices hall : s.AllBlocks fun b => ∀ g ∈ Reading.calls.readAll b.statements,
      g ∈ Reading.calls.read s from hall b hb
  clear hb
  induction s using Statement.induction with
  | gate g => exact allBlocks_gate g
  | block kind ss ih =>
    rw [allBlocks_block_iff, Reading.read_block]
    exact ⟨fun g hg => hg, fun s hs b hb g hg => Reading.mem_calls_readAll_iff.2 ⟨s, hs, ih s hs b hb g hg⟩⟩
  | loop count kind body ih =>
    rw [allBlocks_loop_iff, Reading.read_loop, Reading.calls_loop]
    exact ⟨fun g hg => hg, fun s hs b hb g hg => Reading.mem_calls_readAll_iff.2 ⟨s, hs, ih s hs b hb g hg⟩⟩

end Statement

namespace Block

/-- A block with every block at any depth in it. -/
def blocks (b : Block) : List Block := b :: Statement.blocksAll b.statements

theorem forall_blocks_iff {P : Block → Prop} {b : Block} :
    (∀ b' ∈ b.blocks, P b') ↔ P b ∧ ∀ s ∈ b.statements, s.AllBlocks P := by
  rw [blocks, List.forall_mem_cons, Statement.forall_blocksAll_iff]

end Block

namespace Timeline

variable {t : Timeline} {s : Statement}

theorem mem_contents_iff : s ∈ t.contents ↔ ∃ m ∈ t.moments, s ∈ m.statements := List.mem_flatMap

theorem mem_contents_merge {i : Nat} {members : List Statement} {usage : Usage}
    (h : s ∈ (t.merge i members usage).1.contents) : s ∈ t.contents ∨ s ∈ members := by
  obtain ⟨m, hm, hs⟩ := mem_contents_iff.1 h
  obtain ⟨k, hk⟩ := List.mem_iff_getElem?.1 hm
  simp only [merge, List.getElem?_modify, Option.map_eq_map, Option.map_eq_some_iff] at hk
  obtain ⟨m', hm', rfl⟩ := hk
  have hcontents : ∀ x ∈ m'.statements, x ∈ t.contents :=
    fun x hx => mem_contents_iff.2 ⟨m', List.mem_of_getElem? hm', hx⟩
  split at hs
  · rcases List.mem_append.1 hs with hs | hs
    · exact Or.inl (hcontents s hs)
    · exact Or.inr hs
  · exact Or.inl (hcontents s hs)

theorem mem_contents_push {members : List Statement} {usage : Usage} {isOpen : Bool} :
    s ∈ (t.push members usage isOpen).1.contents ↔ s ∈ t.contents ∨ s ∈ members := by
  simp [push, contents]

/-- A finished timeline lists single statements as they are and all others in parallel blocks. -/
theorem mem_statements (h : s ∈ t.statements) :
    s ∈ t.contents ∨ ∃ m ∈ t.moments, 1 < m.statements.length ∧ s = .block .parallel m.statements := by
  obtain ⟨m, hm, hs⟩ := List.mem_filterMap.1 h
  rcases hstatements : m.statements with _ | ⟨first, _ | ⟨second, others⟩⟩
  · simp [Moment.toStatement?, hstatements] at hs
  · simp only [Moment.toStatement?, hstatements, Option.some.injEq] at hs
    exact Or.inl (mem_contents_iff.2 ⟨m, hm, by simp [hstatements, hs]⟩)
  · simp only [Moment.toStatement?, hstatements, Option.some.injEq] at hs
    exact Or.inr ⟨m, hm, by simp [hstatements], by rw [hstatements, hs]⟩

end Timeline

namespace Schedule

variable {u : Universe} {after last : Option Nat} {t t' : Timeline} {s : Statement} {ss : List Statement}

/-- What enters a timeline is the statement or gates out of it. -/
theorem Enters.mem_contents (h : Enters u after t s t' last) {x : Statement} (hx : x ∈ t'.contents) :
    x ∈ t.contents ∨ x = s ∨ ∃ g, x = .gate g := by
  cases h with
  | skip kind => exact Or.inl hx
  | join hs hne hu hi =>
    rcases Timeline.mem_contents_merge hx with hx | hx
    · exact Or.inl hx
    · obtain ⟨g, rfl, -⟩ := Statement.gate_of_mem_group (Statement.isParallelGroup_of_group? hs) hx
      exact Or.inr (Or.inr ⟨g, rfl⟩)
  | start hg hu hi =>
    rcases Timeline.mem_contents_push.1 hx with hx | hx
    · exact Or.inl hx
    · exact Or.inr (Or.inl (List.mem_singleton.1 hx))
  | alone hne hu hs =>
    rcases Timeline.mem_contents_push.1 hx with hx | hx
    · exact Or.inl hx
    · exact Or.inr (Or.inl (List.mem_singleton.1 hx))

theorem Enters.forall_contents (h : Enters u after t s t' last) {P : Statement → Prop} (hgate : ∀ g, P (.gate g))
    (ht : ∀ x ∈ t.contents, P x) (hs : P s) : ∀ x ∈ t'.contents, P x := by
  intro x hx
  rcases h.mem_contents hx with hx | rfl | ⟨g, rfl⟩
  · exact ht x hx
  · exact hs
  · exact hgate g

theorem EntersAll.forall_contents (h : EntersAll u after t ss t' last) {P : Statement → Prop}
    (hgate : ∀ g, P (.gate g)) (ht : ∀ x ∈ t.contents, P x) (hss : ∀ s ∈ ss, P s) : ∀ x ∈ t'.contents, P x :=
  h.preserves (fun henters hs ht => henters.forall_contents hgate ht hs) hss ht

end Schedule

end IonSchedule
