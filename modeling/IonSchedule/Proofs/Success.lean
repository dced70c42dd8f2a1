import IonSchedule.Proofs.ParallelLegality

/-! # When scheduling succeeds

Scheduling looks up the qubits of the calls inside unscheduled blocks and of no others. So a statement is
rewritten exactly if all calls in its unscheduled blocks resolve, and a circuit whose body is not parallel is
scheduled exactly if this holds of its body and of its macros.
-/
namespace IonSchedule

/-- The qubits of every call in the statements resolve. -/
def Universe.Resolves (u : Universe) (ss : List Statement) : Prop :=
  ∀ g ∈ Reading.calls.readAll ss, ∃ used, u.gateUsage g = .ok used

/-- What scheduling asks of a block: in an unscheduled one, all calls resolve. -/
def Block.IsResolvable (u : Universe) (b : Block) : Prop := b.kind = .unscheduled → u.Resolves b.statements

abbrev Statement.IsResolvable (u : Universe) (s : Statement) : Prop := s.AllBlocks (Block.IsResolvable u)

namespace Universe

variable {u : Universe} {s : Statement} {ss ts : List Statement}

theorem resolves_iff : u.Resolves ss ↔ ∃ used, u.usageAll ss = .ok used := by
  constructor
  · intro h
    obtain ⟨used, hused⟩ := exists_uses h
    exact ⟨used, (usageAll_eq_ok_iff ss).2 hused⟩
  · rintro ⟨used, hused⟩
    exact ((usageAll_eq_ok_iff ss).1 hused).resolved

theorem resolves_nil : u.Resolves [] := by simp [Resolves]

theorem resolves_cons : u.Resolves (s :: ss) ↔ u.Resolves [s] ∧ u.Resolves ss := Reading.forall_calls_cons_iff

theorem Resolves.of_mem (h : u.Resolves ss) (hs : s ∈ ss) : u.Resolves [s] := by
  intro g hg
  exact h g (Reading.mem_calls_readAll_iff.2 ⟨s, hs, by simpa using hg⟩)

theorem resolves_singleton_block {kind : BlockKind} : u.Resolves [.block kind ss] ↔ u.Resolves ss := by
  simp only [Resolves, Reading.readAll_cons, Reading.readAll_nil, Reading.read_block, add_zero]

theorem resolves_singleton_loop {count : LoopCount} {kind : BlockKind} :
    u.Resolves [.loop count kind ss] ↔ u.Resolves ss := by
  simp only [Resolves, Reading.readAll_cons, Reading.readAll_nil, Reading.read_loop, Reading.calls_loop, add_zero]

/-- Where every call resolves, so does every call of each unscheduled block. -/
theorem Resolves.isResolvable (h : u.Resolves [s]) : s.IsResolvable u := by
  induction s using Statement.induction with
  | gate g => exact Statement.allBlocks_gate g
  | block kind ss ih =>
    have hss : u.Resolves ss := resolves_singleton_block.1 h
    exact Statement.allBlocks_block_iff.2 ⟨fun _ => hss, fun s hs => ih s hs (hss.of_mem hs)⟩
  | loop count kind body ih =>
    have hbody : u.Resolves body := resolves_singleton_loop.1 h
    exact Statement.allBlocks_loop_iff.2 ⟨fun _ => hbody, fun s hs => ih s hs (hbody.of_mem hs)⟩

end Universe

namespace Schedule

variable {u : Universe} {after last : Option Nat} {t t' : Timeline} {s : Statement} {ss : List Statement}
  {j : Judgement}

theorem Enters.resolves (h : Enters u after t s t' last) : u.Resolves [s] := by
  cases h with
  | skip kind => exact Universe.resolves_singleton_block.2 Universe.resolves_nil
  | join hs hne hu hi =>
    intro g hg
    rw [Reading.readAll_cons, Reading.readAll_nil, add_zero, ← Reading.readAll_of_group? hs] at hg
    exact Universe.resolves_iff.2 ⟨_, hu⟩ g hg
  | start hg hu hi => exact Universe.resolves_iff.2 ⟨_, hu⟩
  | alone hne hu hs => exact Universe.resolves_iff.2 ⟨_, hu⟩

theorem EntersAll.resolves (h : EntersAll u after t ss t' last) : u.Resolves ss := by
  induction h with
  | nil => exact Universe.resolves_nil
  | cons first others ih => exact Universe.resolves_cons.2 ⟨first.resolves, ih⟩

/-- All that is placed resolves, and all that is rewritten is resolvable. -/
def Judgement.IsResolvable (u : Universe) : Judgement → Prop
  | .arranged s _ _ => s.IsResolvable u
  | .members ss _ _ => ∀ s ∈ ss, s.IsResolvable u
  | .sequence _ ss _ _ => ∀ s ∈ ss, s.IsResolvable u
  | .piece _ s _ _ => s.IsResolvable u
  | .body kind ss _ _ => (⟨kind, ss⟩ : Block).IsResolvable u ∧ ∀ s ∈ ss, s.IsResolvable u
  | .placed s _ _ _ => u.Resolves [s]
  | .placedAll _ ss _ _ _ => u.Resolves ss

theorem resolves_body {kind : BlockKind} {out : List Statement} {stats : Stats}
    (h : Derives u (.body kind ss out stats)) : u.Resolves out ↔ u.Resolves ss := by
  simp only [Universe.Resolves, h.calls_body]

theorem resolves_arranged {s' : Statement} {stats : Stats} (h : Derives u (.arranged s s' stats)) :
    u.Resolves [s'] ↔ u.Resolves [s] := by
  simp only [Universe.Resolves, Reading.readAll_cons, h.calls_arranged]

theorem Derives.isResolvable (h : Derives u j) : j.IsResolvable u := by
  induction h with
  | gate => exact Statement.allBlocks_gate _
  | block body ih => exact Statement.allBlocks_block_iff.2 ih
  | loop body ih => exact Statement.allBlocks_loop_iff.2 ih
  | noMember => simp [Judgement.IsResolvable]
  | member first others ihfirst ihothers => exact List.forall_mem_cons.2 ⟨ihfirst, ihothers⟩
  | noPiece => simp [Judgement.IsResolvable]
  | pieces head tail ihhead ihtail => exact List.forall_mem_cons.2 ⟨ihhead, ihtail⟩
  | moments body ih => exact Statement.allBlocks_block_iff.2 ih
  | spliced body ih => exact Statement.allBlocks_block_iff.2 ih
  | nested body ih => exact Statement.allBlocks_block_iff.2 ih
  | kept hleaf arranged ih => exact ih
  | sequential sequence ih => exact ⟨by simp [Block.IsResolvable], ih⟩
  | parallel members ih => exact ⟨by simp [Block.IsResolvable], ih⟩
  | unscheduled placed ih => exact ⟨fun _ => ih, fun s hs => (Universe.Resolves.of_mem ih hs).isResolvable⟩
  | chain placed ih => exact Universe.resolves_singleton_block.2 ih
  | again body enters ih => exact Universe.resolves_singleton_block.2 ((resolves_body body).1 enters.resolves)
  | leaf hleaf arranged enters ih => exact (resolves_arranged arranged).1 enters.resolves
  | none => exact Universe.resolves_nil
  | next first others ihfirst ihothers => exact Universe.resolves_cons.2 ⟨ihfirst, ihothers⟩

theorem exists_placeLeaf (h : u.Resolves [s]) (after : Option Nat) (t : Timeline) :
    ∃ r, placeLeaf u after t s = .ok r := by
  obtain ⟨used, hused⟩ := Universe.resolves_iff.1 h
  rw [Universe.usageAll_singleton] at hused
  cases s with
  | gate g =>
    rw [Universe.usage] at hused
    simp only [placeLeaf, hused]
    exact ⟨_, rfl⟩
  | block kind ss =>
    rw [Universe.usage] at hused
    by_cases hempty : ss.isEmpty = true
    · simp only [placeLeaf, hempty]
      exact ⟨_, rfl⟩
    · simp only [placeLeaf, hempty, hused]
      exact ⟨_, rfl⟩
  | loop count kind body =>
    rw [Universe.usage] at hused
    simp only [placeLeaf, hused]
    exact ⟨_, rfl⟩

theorem exists_placeLeaves (h : u.Resolves ss) (after : Option Nat) (t : Timeline) :
    ∃ r, placeLeaves u ss after t = .ok r := by
  induction ss generalizing after t with
  | nil => exact ⟨_, rfl⟩
  | cons s rest ih =>
    obtain ⟨hs, hrest⟩ := Universe.resolves_cons.1 h
    obtain ⟨⟨t', last⟩, hplace⟩ := exists_placeLeaf hs after t
    obtain ⟨r, hr⟩ := ih hrest last t'
    exact ⟨r, by simp only [placeLeaves, hplace]; exact hr⟩

section Existence

variable {kind : BlockKind}

private theorem exists_scheduleBlock_step (hp : ∃ p, placeAll u false ss none .empty = .ok p) :
    ∃ r, scheduleBlock u ss = .ok r := by
  obtain ⟨p, hp⟩ := hp
  exact ⟨p.close, by rw [scheduleBlock, hp]; rfl⟩

private theorem exists_arrangeBody_step (hb : (⟨kind, ss⟩ : Block).IsResolvable u)
    (hss : ∀ s ∈ ss, s.IsResolvable u) (hs : (∀ s ∈ ss, s.IsResolvable u) → ∃ r, splice u false ss = .ok r)
    (hm : (∀ s ∈ ss, s.IsResolvable u) → ∃ r, arrangeEach u ss = .ok r)
    (hp : u.Resolves ss → ∃ p, placeAll u false ss none .empty = .ok p) : ∃ r, arrangeBody u kind ss = .ok r := by
  cases kind with
  | sequential => exact hs hss
  | parallel => exact hm hss
  | unscheduled => exact exists_scheduleBlock_step (hp (hb rfl))

private theorem exists_spliceOne_step (topLevel : Bool)
    (hs : match s with
      | .block .unscheduled ss => u.Resolves ss → ∃ p, placeAll u false ss none .empty = .ok p
      | .block .sequential ss => (∀ s ∈ ss, s.IsResolvable u) → ∃ r, splice u false ss = .ok r
      | s => s.IsResolvable u → ∃ r, arrange u s = .ok r)
    (h : s.IsResolvable u) : ∃ r, spliceOne u topLevel s = .ok r := by
  cases s with
  | gate g =>
    obtain ⟨r, hr⟩ := hs h
    exact ⟨_, by simp only [spliceOne, hr]; rfl⟩
  | block kind ss =>
    obtain ⟨hb, hss⟩ := Statement.allBlocks_block_iff.1 h
    cases kind with
    | sequential =>
      obtain ⟨r, hr⟩ := hs hss
      exact ⟨_, by simp only [spliceOne, hr]; rfl⟩
    | parallel =>
      obtain ⟨r, hr⟩ := hs h
      exact ⟨_, by simp only [spliceOne, hr]; rfl⟩
    | unscheduled => exact exists_scheduleBlock_step (hs (hb rfl))
  | loop count kind body =>
    obtain ⟨r, hr⟩ := hs h
    exact ⟨_, by simp only [spliceOne, hr]; rfl⟩

/-- A leaf is rewritten first, which keeps its calls, and then placed. -/
private theorem exists_leaf_step (h : u.Resolves [s]) (hs : s.IsResolvable u → ∃ r, arrange u s = .ok r)
    (after : Option Nat) (t : Timeline) :
    ∃ p, (do
      let (s', stats) ← arrange u s
      let (t', last) ← placeLeaf u after t s'
      return (⟨t', last, stats⟩ : Placed)) = Except.ok p := by
  obtain ⟨⟨s', stats⟩, hs'⟩ := hs h.isResolvable
  have hresolves : u.Resolves [s'] := (resolves_arranged ((derives_all u).1 s s' stats hs')).2 h
  obtain ⟨r, hr⟩ := exists_placeLeaf hresolves after t
  exact ⟨_, by simp only [hs', bind, Except.bind, hr]; rfl⟩

private theorem exists_placeOne_step
    (hs : match s with
      | .block .sequential ss => u.Resolves ss → ∃ p, placeAll u true ss after t = .ok p
      | .block .unscheduled ss => u.Resolves ss → ∃ p, placeAll u false ss none .empty = .ok p
      | s => s.IsResolvable u → ∃ r, arrange u s = .ok r)
    (h : u.Resolves [s]) : ∃ p, placeOne u s after t = .ok p := by
  cases s with
  | gate g => exact exists_leaf_step h hs after t
  | block kind ss =>
    cases kind with
    | sequential => exact hs (Universe.resolves_singleton_block.1 h)
    | parallel => exact exists_leaf_step h hs after t
    | unscheduled =>
      obtain ⟨⟨out, stats⟩, hout⟩ := exists_scheduleBlock_step (hs (Universe.resolves_singleton_block.1 h))
      have hbody : Derives u (.body .unscheduled ss out stats) := derives_arrangeBody hout
      have hresolves : u.Resolves out := (resolves_body hbody).2 (Universe.resolves_singleton_block.1 h)
      obtain ⟨r, hr⟩ := exists_placeLeaves hresolves after t
      exact ⟨_, by simp only [placeOne, hout, bind, Except.bind, hr]; rfl⟩
  | loop count kind body => exact exists_leaf_step h hs after t

/-- Every part of the scheduler succeeds on statements whose unscheduled blocks resolve. -/
theorem exists_all (u : Universe) :
    (∀ s, s.IsResolvable u → ∃ r, arrange u s = .ok r) ∧
    (∀ chained ss after t, u.Resolves ss → ∃ p, placeAll u chained ss after t = .ok p) ∧
    (∀ ss, (∀ s ∈ ss, s.IsResolvable u) → ∃ r, arrangeEach u ss = .ok r) ∧
    (∀ topLevel ss, (∀ s ∈ ss, s.IsResolvable u) → ∃ r, splice u topLevel ss = .ok r) := by
  apply arrange.mutual_induct
  -- one statement
  · exact fun g _ => ⟨_, by rw [arrange]; rfl⟩
  · intro kind ss hs hm hp h
    obtain ⟨hb, hss⟩ := Statement.allBlocks_block_iff.1 h
    obtain ⟨r, hr⟩ := exists_arrangeBody_step hb hss hs hm hp
    exact ⟨_, by rw [arrange_block, hr]; rfl⟩
  · intro count kind ss hs hm hp h
    obtain ⟨hb, hss⟩ := Statement.allBlocks_loop_iff.1 h
    obtain ⟨r, hr⟩ := exists_arrangeBody_step hb hss hs hm hp
    exact ⟨_, by rw [arrange_loop, hr]; rfl⟩
  -- the statements of an unscheduled block, or a chain inside one
  · exact fun chained after t _ => ⟨_, by rw [placeAll]; rfl⟩
  · intro chained s rest after t hs hrest h
    obtain ⟨hfirst, hothers⟩ := Universe.resolves_cons.1 h
    obtain ⟨first, hplace⟩ := exists_placeOne_step hs hfirst
    obtain ⟨others, hp⟩ := hrest first hothers
    exact ⟨_, by simp only [placeAll_cons, hplace, bind, Except.bind, hp]; rfl⟩
  -- the members of a parallel block
  · exact fun _ => ⟨_, by rw [arrangeEach]; rfl⟩
  · intro s rest hs hrest h
    obtain ⟨hfirst, hothers⟩ := List.forall_mem_cons.1 h
    obtain ⟨first, hr⟩ := hs hfirst
    obtain ⟨others, hrs⟩ := hrest hothers
    exact ⟨_, by simp only [arrangeEach, hr, bind, Except.bind, hrs]; rfl⟩
  -- the statements of a sequential block
  · exact fun topLevel _ => ⟨_, by rw [splice]; rfl⟩
  · intro topLevel s rest hs hrest h
    obtain ⟨hfirst, hothers⟩ := List.forall_mem_cons.1 h
    obtain ⟨first, hr⟩ := exists_spliceOne_step topLevel hs hfirst
    obtain ⟨others, hrs⟩ := hrest hothers
    exact ⟨_, by simp only [splice_cons, hr, bind, Except.bind, hrs]; rfl⟩

theorem exists_scheduleBlock (h : u.Resolves ss) : ∃ r, scheduleBlock u ss = .ok r :=
  exists_scheduleBlock_step ((exists_all u).2.1 false ss none .empty h)

theorem exists_arrangeBody (hb : (⟨kind, ss⟩ : Block).IsResolvable u) (hss : ∀ s ∈ ss, s.IsResolvable u) :
    ∃ r, arrangeBody u kind ss = .ok r := by
  obtain ⟨-, hplace, hmembers, hsplice⟩ := exists_all u
  exact exists_arrangeBody_step hb hss (hsplice false ss) (hmembers ss) (hplace false ss none .empty)

end Existence

theorem ArrangesBlock.isResolvable {topLevel : Bool} {b b' : Block} (h : ArrangesBlock u topLevel b b') :
    ∀ x ∈ b.blocks, x.IsResolvable u := by
  rw [Block.forall_blocks_iff]
  cases h with
  | body statements => exact statements.isResolvable
  | top statements => exact ⟨by simp [Block.IsResolvable], statements.isResolvable⟩
  | topMoments statements => exact statements.isResolvable

end Schedule

theorem Table.exists_traverse {α β ε : Type} {f : α → Except ε β} {t : Table α}
    (h : ∀ a ∈ t.values, ∃ b, f a = .ok b) : ∃ t', t.traverse f = .ok t' := by
  have hitems : ∀ items : List (String × α), (∀ e ∈ items, ∃ b, f e.2 = .ok b) →
      ∃ out, traverseItems f items = .ok out := by
    intro items
    induction items with
    | nil => exact fun _ => ⟨[], rfl⟩
    | cons entry rest ih =>
      intro hentries
      obtain ⟨hentry, hrest⟩ := List.forall_mem_cons.1 hentries
      obtain ⟨b, hb⟩ := hentry
      obtain ⟨bs, hbs⟩ := ih hrest
      exact ⟨(entry.1, b) :: bs, by simp only [traverseItems, hb, hbs]⟩
  obtain ⟨out, hout⟩ := hitems t.items fun e he => h e.2 (List.mem_map_of_mem he)
  unfold traverse
  split
  · simp_all
  · exact ⟨_, rfl⟩

namespace Circuit

open Schedule

/-- A block at any depth of the body or of a macro, with the slots that there are for it. -/
inductive HasBlock (c : Circuit) : Universe → Block → Prop
  | body {b : Block} (h : b ∈ c.body.blocks) : HasBlock c c.slots b
  | inMacro {m : Macro} {b : Block} (hm : m ∈ c.macros.values) (h : b ∈ m.body.blocks) :
      HasBlock c (c.macroSlots m) b

/-- In a circuit that is scheduled, the calls of every unscheduled block resolve. -/
theorem isResolvable_of_schedule {c c' : Circuit} {stats : Stats} (h : c.schedule = .ok (c', stats)) {u : Universe}
    {b : Block} (hb : c.HasBlock u b) : b.IsResolvable u := by
  have ha := arranges_of_schedule h
  cases hb with
  | body hb => exact ha.body.isResolvable b hb
  | inMacro hm hb =>
    obtain ⟨e, he, rfl⟩ := List.mem_map.1 hm
    obtain ⟨e', -, -, -, -, hbody⟩ := exists_left_of_forall₂ ha.macros.flip he
    exact hbody.isResolvable b hb

theorem exists_scheduleBody {c : Circuit} (hkind : c.body.kind ≠ .parallel)
    (h : ∀ b ∈ c.body.blocks, b.IsResolvable c.slots) : ∃ r, c.scheduleBody = .ok r := by
  obtain ⟨hb, hss⟩ := Block.forall_blocks_iff.1 h
  unfold scheduleBody
  cases hk : c.body.kind with
  | parallel => exact absurd hk hkind
  | sequential =>
    obtain ⟨r, hr⟩ := (exists_all c.slots).2.2.2 true c.body.statements hss
    exact ⟨_, by simp only [hr]; rfl⟩
  | unscheduled =>
    obtain ⟨r, hr⟩ := exists_scheduleBlock (hb hk)
    exact ⟨_, by simp only [hr]; rfl⟩

theorem exists_scheduleMacro {c : Circuit} {m : Macro} (h : ∀ b ∈ m.body.blocks, b.IsResolvable (c.macroSlots m)) :
    ∃ r, c.scheduleMacro m = .ok r := by
  obtain ⟨hb, hss⟩ := Block.forall_blocks_iff.1 h
  obtain ⟨r, hr⟩ := exists_arrangeBody hb hss
  exact ⟨_, by simp only [scheduleMacro, arrangeBlock_eq, hr]; rfl⟩

/-- A circuit is scheduled if its body is not parallel and the calls of its unscheduled blocks resolve. -/
theorem exists_schedule {c : Circuit} (hkind : c.body.kind ≠ .parallel)
    (h : ∀ u b, c.HasBlock u b → b.IsResolvable u) : ∃ c' stats, c.schedule = .ok (c', stats) := by
  obtain ⟨r, hr⟩ := exists_scheduleBody hkind fun b hb => h _ b (.body hb)
  obtain ⟨macros, hmacros⟩ : ∃ macros, c.macros.traverse c.scheduleMacro = .ok macros :=
    Table.exists_traverse fun m hm => exists_scheduleMacro fun b hb => h _ b (.inMacro hm hb)
  exact ⟨_, _, by simp only [schedule, hr, bind, Except.bind, hmacros]; rfl⟩

end Circuit

end IonSchedule
