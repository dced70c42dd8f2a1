import IonSchedule.Proofs.Preservation
import IonSchedule.Proofs.Relabelling
import IonSchedule.Proofs.ScheduledForm

/-! # What the counts count

The counts of a schedule are a sum with one term for each unscheduled block of the circuit, however deep it
lies: the counts of the timeline on which its statements were placed. What was scheduled inside a block is
placed again as it is, which adds nothing. No moment of a finished timeline is empty, which bounds the counts by
each other.
-/
namespace IonSchedule

namespace Stats

/-- The sum of several counts. -/
def total (parts : List Stats) : Stats := parts.foldr (· + ·) 0

theorem total_cons (a : Stats) (parts : List Stats) : total (a :: parts) = a + total parts := rfl

theorem total_append (parts more : List Stats) : total (parts ++ more) = total parts + total more := by
  induction parts with
  | nil => exact (zero_add _).symm
  | cons a parts ih => rw [List.cons_append, total_cons, total_cons, ih, add_assoc]

/-- What holds of counts without an empty moment: each moment holds a statement, and each parallel one a second. -/
structure IsBalanced (a : Stats) : Prop where
  parallel_le : a.parallelMoments ≤ a.moments
  moments_le : a.moments + a.parallelMoments ≤ a.statementsPlaced

theorem isBalanced_total {parts : List Stats} (h : ∀ a ∈ parts, a.IsBalanced) : (total parts).IsBalanced := by
  induction parts with
  | nil => exact ⟨Nat.le_refl _, Nat.le_refl _⟩
  | cons a parts ih =>
    rw [List.forall_mem_cons] at h
    obtain ⟨hparallel, hmoments⟩ := h.1
    obtain ⟨hparallels, hplaced⟩ := ih h.2
    rw [total_cons, add_def]
    constructor
    · exact Nat.add_le_add hparallel hparallels
    · dsimp only
      omega

end Stats

namespace Timeline

theorem Valid.isBalanced {u : Universe} {t : Timeline} (h : t.Valid u) : t.stats.IsBalanced := by
  refine ⟨List.countP_le_length, ?_⟩
  have hne : ∀ m ∈ t.moments, 0 < m.statements.length :=
    fun m hm => List.length_pos_iff.2 (h.moments m hm).nonempty
  simp only [stats]
  generalize t.moments = moments at hne
  induction moments with
  | nil => exact Nat.le_refl _
  | cons m rest ih =>
    rw [List.forall_mem_cons] at hne
    have hrest := ih hne.2
    have hm := hne.1
    rw [List.length_cons, List.countP_cons, List.foldr_cons]
    by_cases hparallel : 1 < m.statements.length
    · simp only [hparallel, decide_true, if_true]
      omega
    · simp only [hparallel, decide_false, Bool.false_eq_true, if_false]
      omega

/-- Each timeline counts as one block. -/
theorem blocksScheduled_total (ts : List Timeline) : (Stats.total (ts.map stats)).blocksScheduled = ts.length := by
  induction ts with
  | nil => rfl
  | cons t ts ih =>
    rw [List.map_cons, Stats.total_cons, List.length_cons, ← ih, Nat.add_comm]
    rfl

end Timeline

namespace Schedule

variable {u : Universe} {s : Statement} {ss out : List Statement} {stats : Stats} {t : Timeline}
  {after : Option Nat} {p : Placed} {es : List (Universe × List Statement)}

/-- The timeline on which all statements of an unscheduled block are placed. -/
def FinishesAs (u : Universe) (ss : List Statement) (t : Timeline) : Prop :=
  ∃ last inner, placeAll u false ss none .empty = .ok ⟨t, last, inner⟩

theorem FinishesAs.valid (h : FinishesAs u ss t) : t.Valid u := by
  obtain ⟨last, inner, hplaced⟩ := h
  exact ((derives_all u).2.1 _ _ _ _ _ hplaced).keepsValid Timeline.valid_empty

/-- The statements of the timeline are those that the block is rewritten to. -/
theorem FinishesAs.scheduleBlock (h : FinishesAs u ss t) :
    ∃ inner, scheduleBlock u ss = .ok (t.statements, inner + t.stats) := by
  obtain ⟨last, inner, hplaced⟩ := h
  refine ⟨inner, ?_⟩
  rw [Schedule.scheduleBlock, hplaced]
  rfl

/-- The counts have one part for each of the blocks, the counts of its own timeline. -/
def Accounts (es : List (Universe × List Statement)) (stats : Stats) : Prop :=
  ∃ ts, List.Forall₂ (fun e t => FinishesAs e.1 e.2 t) es ts ∧ stats = .total (ts.map Timeline.stats)

theorem accounts_nil : Accounts [] 0 := ⟨[], .nil, rfl⟩

theorem accounts_singleton (h : FinishesAs u ss t) : Accounts [(u, ss)] t.stats :=
  ⟨[t], .cons h .nil, (Stats.add_zero _).symm⟩

theorem Accounts.append {es' : List (Universe × List Statement)} {more : Stats} (h : Accounts es stats)
    (h' : Accounts es' more) : Accounts (es ++ es') (stats + more) := by
  obtain ⟨ts, hts, rfl⟩ := h
  obtain ⟨ts', hts', rfl⟩ := h'
  exact ⟨ts ++ ts', List.rel_append hts hts', by rw [List.map_append, Stats.total_append]⟩

/-- The statements of the unscheduled blocks among some blocks, with the slots that these blocks see. -/
def unscheduledAmong (u : Universe) (bs : List Block) : List (Universe × List Statement) :=
  (bs.filter (·.kind = .unscheduled)).map fun b => (u, b.statements)

theorem unscheduledAmong_append (u : Universe) (bs bs' : List Block) :
    unscheduledAmong u (bs ++ bs') = unscheduledAmong u bs ++ unscheduledAmong u bs' := by
  simp only [unscheduledAmong, List.filter_append, List.map_append]

/-- Whatever is done to a statement is counted by the unscheduled blocks in it. -/
structure IsAccounted (u : Universe) (s : Statement) : Prop where
  arranged : ∀ s' stats, arrange u s = .ok (s', stats) → Accounts (unscheduledAmong u s.blocks) stats
  spliced : ∀ topLevel out stats, spliceOne u topLevel s = .ok (out, stats) →
    Accounts (unscheduledAmong u s.blocks) stats
  placed : ∀ after t p, placeOne u s after t = .ok p → Accounts (unscheduledAmong u s.blocks) p.stats

theorem accounts_arrangeEach (hss : ∀ s ∈ ss, IsAccounted u s) (h : arrangeEach u ss = .ok (out, stats)) :
    Accounts (unscheduledAmong u (Statement.blocksAll ss)) stats := by
  induction ss generalizing out stats with
  | nil =>
    simp only [arrangeEach, pure_eq_ok_iff, Prod.mk.injEq] at h
    obtain ⟨rfl, rfl⟩ := h
    exact accounts_nil
  | cons s rest ih =>
    rw [List.forall_mem_cons] at hss
    simp only [arrangeEach, bind_eq_ok_iff, pure_eq_ok_iff, Prod.mk.injEq] at h
    obtain ⟨⟨s', first⟩, hs, ⟨others, more⟩, hrest, rfl, rfl⟩ := h
    rw [Statement.blocksAll, unscheduledAmong_append]
    exact (hss.1.arranged s' first hs).append (ih hss.2 hrest)

theorem accounts_splice {topLevel : Bool} (hss : ∀ s ∈ ss, IsAccounted u s)
    (h : splice u topLevel ss = .ok (out, stats)) :
    Accounts (unscheduledAmong u (Statement.blocksAll ss)) stats := by
  induction ss generalizing out stats with
  | nil =>
    simp only [splice, pure_eq_ok_iff, Prod.mk.injEq] at h
    obtain ⟨rfl, rfl⟩ := h
    exact accounts_nil
  | cons s rest ih =>
    rw [List.forall_mem_cons] at hss
    simp only [splice_cons, bind_eq_ok_iff, pure_eq_ok_iff, Prod.mk.injEq] at h
    obtain ⟨⟨pieces, first⟩, hs, ⟨others, more⟩, hrest, rfl, rfl⟩ := h
    rw [Statement.blocksAll, unscheduledAmong_append]
    exact (hss.1.spliced topLevel pieces first hs).append (ih hss.2 hrest)

theorem accounts_placeAll {chained : Bool} (hss : ∀ s ∈ ss, IsAccounted u s)
    (h : placeAll u chained ss after t = .ok p) :
    Accounts (unscheduledAmong u (Statement.blocksAll ss)) p.stats := by
  induction ss generalizing after t p with
  | nil =>
    simp only [placeAll, pure_eq_ok_iff] at h
    subst h
    exact accounts_nil
  | cons s rest ih =>
    rw [List.forall_mem_cons] at hss
    simp only [placeAll_cons, bind_eq_ok_iff, pure_eq_ok_iff] at h
    obtain ⟨first, hs, others, hrest, rfl⟩ := h
    rw [Statement.blocksAll, unscheduledAmong_append]
    exact (hss.1.placed after t first hs).append (ih hss.2 hrest)

/-- The moments of an unscheduled block add its own counts to those of the blocks in it. -/
theorem accounts_scheduleBlock (hss : ∀ s ∈ ss, IsAccounted u s) (h : scheduleBlock u ss = .ok (out, stats)) :
    Accounts (unscheduledAmong u (⟨.unscheduled, ss⟩ :: Statement.blocksAll ss)) stats := by
  obtain ⟨⟨t, last, inner⟩, hplaced, hclose⟩ := map_eq_ok_iff.1 h
  obtain ⟨rfl, rfl⟩ := Prod.mk.inj hclose
  have hown : Accounts [(u, ss)] t.stats := accounts_singleton ⟨last, inner, hplaced⟩
  have hsum := hown.append (accounts_placeAll hss hplaced)
  rwa [Stats.add_comm] at hsum

theorem accounts_arrangeBody {kind : BlockKind} (hss : ∀ s ∈ ss, IsAccounted u s)
    (h : arrangeBody u kind ss = .ok (out, stats)) :
    Accounts (unscheduledAmong u (⟨kind, ss⟩ :: Statement.blocksAll ss)) stats := by
  cases kind with
  | sequential => exact accounts_splice hss h
  | parallel => exact accounts_arrangeEach hss h
  | unscheduled => exact accounts_scheduleBlock hss h

/-- What is spliced or placed as a whole counts as when it is arranged. -/
theorem isAccounted_of_isLeaf (hleaf : s.isLeaf = true)
    (h : ∀ s' stats, arrange u s = .ok (s', stats) → Accounts (unscheduledAmong u s.blocks) stats) :
    IsAccounted u s where
  arranged := h
  spliced := by
    intro topLevel out stats hs
    simp only [spliceOne_of_isLeaf hleaf, bind_eq_ok_iff, pure_eq_ok_iff, Prod.mk.injEq] at hs
    obtain ⟨⟨s', stats⟩, harrange, rfl, rfl⟩ := hs
    exact h s' stats harrange
  placed := by
    intro after t p hs
    simp only [placeOne_of_isLeaf hleaf, bind_eq_ok_iff, pure_eq_ok_iff] at hs
    obtain ⟨⟨s', stats⟩, harrange, ⟨t', last⟩, henter, rfl⟩ := hs
    exact h s' stats harrange

theorem accounts_arrange_block {kind : BlockKind} (hss : ∀ s ∈ ss, IsAccounted u s) {s' : Statement}
    (h : arrange u (.block kind ss) = .ok (s', stats)) :
    Accounts (unscheduledAmong u (Statement.block kind ss).blocks) stats := by
  simp only [arrange_block, bind_eq_ok_iff, pure_eq_ok_iff, Prod.mk.injEq] at h
  obtain ⟨⟨out, stats⟩, hbody, rfl, rfl⟩ := h
  exact accounts_arrangeBody hss hbody

theorem isAccounted_block {kind : BlockKind} (hss : ∀ s ∈ ss, IsAccounted u s) :
    IsAccounted u (.block kind ss) := by
  cases kind with
  | parallel => exact isAccounted_of_isLeaf rfl fun _ _ => accounts_arrange_block hss
  | sequential =>
    refine ⟨fun _ _ => accounts_arrange_block hss, ?_, fun after t p h => accounts_placeAll hss h⟩
    intro topLevel out stats h
    simp only [spliceOne, bind_eq_ok_iff, pure_eq_ok_iff, Prod.mk.injEq] at h
    obtain ⟨⟨inner, stats⟩, hinner, rfl, rfl⟩ := h
    exact accounts_splice hss hinner
  | unscheduled =>
    refine ⟨fun _ _ => accounts_arrange_block hss, fun topLevel out stats h => accounts_scheduleBlock hss h, ?_⟩
    intro after t p h
    simp only [placeOne, bind_eq_ok_iff, pure_eq_ok_iff] at h
    obtain ⟨⟨inner, stats⟩, hinner, ⟨t', last⟩, henter, rfl⟩ := h
    exact accounts_scheduleBlock hss hinner

theorem isAccounted (u : Universe) (s : Statement) : IsAccounted u s := by
  induction s using Statement.induction with
  | gate g =>
    refine isAccounted_of_isLeaf rfl ?_
    intro s' stats h
    simp only [arrange, pure_eq_ok_iff, Prod.mk.injEq] at h
    obtain ⟨rfl, rfl⟩ := h
    exact accounts_nil
  | block kind ss ih => exact isAccounted_block ih
  | loop count kind body ih =>
    refine isAccounted_of_isLeaf rfl ?_
    intro s' stats h
    simp only [arrange_loop, bind_eq_ok_iff, pure_eq_ok_iff, Prod.mk.injEq] at h
    obtain ⟨⟨out, stats⟩, hbody, rfl, rfl⟩ := h
    exact accounts_arrangeBody ih hbody

end Schedule

open Schedule

namespace Circuit

variable {c c' : Circuit} {stats : Stats}

/-- The statements of every unscheduled block of a circuit, at any depth in its body and its macros, with the
slots that the block sees. -/
def unscheduledBlocks (c : Circuit) : List (Universe × List Statement) :=
  unscheduledAmong c.slots c.body.blocks ++
    c.macros.values.flatMap fun m => unscheduledAmong (c.macroSlots m) m.body.blocks

theorem accounts_scheduleBody {b : Block} (h : c.scheduleBody = .ok (b, stats)) :
    Accounts (unscheduledAmong c.slots c.body.blocks) stats := by
  have hss : ∀ s ∈ c.body.statements, IsAccounted c.slots s := fun s _ => isAccounted c.slots s
  unfold scheduleBody at h
  rcases hb : c.body with ⟨kind, ss⟩
  rw [hb] at h hss
  cases kind with
  | parallel => simp at h
  | sequential =>
    simp only [bind_eq_ok_iff, pure_eq_ok_iff, mapError_eq_ok_iff, Prod.mk.injEq] at h
    obtain ⟨⟨out, stats⟩, hout, rfl, rfl⟩ := h
    exact accounts_splice hss hout
  | unscheduled =>
    simp only [bind_eq_ok_iff, pure_eq_ok_iff, mapError_eq_ok_iff, Prod.mk.injEq] at h
    obtain ⟨⟨out, stats⟩, hout, rfl, rfl⟩ := h
    exact accounts_scheduleBlock hss hout

theorem accounts_scheduleMacro {m m' : Macro} (h : c.scheduleMacro m = .ok (m', stats)) :
    Accounts (unscheduledAmong (c.macroSlots m) m.body.blocks) stats := by
  simp only [scheduleMacro, arrangeBlock_eq, bind_eq_ok_iff, pure_eq_ok_iff, mapError_eq_ok_iff, Prod.mk.injEq] at h
  obtain ⟨⟨body, stats⟩, ⟨⟨out, stats⟩, hbody, rfl, rfl⟩, rfl, rfl⟩ := h
  exact accounts_arrangeBody (fun s _ => isAccounted _ s) hbody

/-- The counts of the macros are added to what was counted before them. -/
theorem accounts_macros {items : List (String × Macro)} {out : List (String × Macro × Stats)}
    {es : List (Universe × List Statement)} (hstats : Accounts es stats)
    (h : List.Forall₂ (fun e e' => e'.1 = e.1 ∧ c.scheduleMacro e.2 = .ok e'.2) items out) :
    Accounts (es ++ (items.map Prod.snd).flatMap fun m => unscheduledAmong (c.macroSlots m) m.body.blocks)
      ((out.map Prod.snd).foldl (fun sum m => sum + m.2) stats) := by
  induction h generalizing es stats with
  | nil => simpa using hstats
  | @cons e e' items out first _ ih =>
    rw [List.map_cons, List.flatMap_cons, ← List.append_assoc]
    exact ih (hstats.append (accounts_scheduleMacro first.2))

theorem accounts_schedule (h : c.schedule = .ok (c', stats)) : Accounts c.unscheduledBlocks stats := by
  simp only [schedule, bind_eq_ok_iff, pure_eq_ok_iff, Prod.mk.injEq] at h
  obtain ⟨⟨body, bodyStats⟩, hbody, macros, hmacros, -, rfl⟩ := h
  exact accounts_macros (accounts_scheduleBody hbody) (Table.traverse_eq_ok_iff.1 hmacros)

theorem length_unscheduledBlocks (c : Circuit) :
    c.unscheduledBlocks.length = c.blocks.countP (·.kind = .unscheduled) := by
  simp only [unscheduledBlocks, unscheduledAmong, blocks, List.length_append, List.length_map, List.length_flatMap,
    ← List.countP_eq_length_filter, List.countP_append, List.countP_flatMap, Function.comp_def]

/-- Every unscheduled block of a circuit is counted once, and the counts are the sum of what these blocks add:
the counts of the timelines that they are finished as. The moments of such a timeline are as many as the
statements that the block is rewritten to, and none of them is empty. So there are at most as many parallel
moments as moments, and at least as many statements are placed as there are moments, and one more for each
parallel moment. -/
theorem schedule_counts (h : c.schedule = .ok (c', stats)) :
    stats.blocksScheduled = c.blocks.countP (·.kind = .unscheduled) ∧
    (∃ ts, List.Forall₂ (fun e t => FinishesAs e.1 e.2 t ∧
          (∃ inner, scheduleBlock e.1 e.2 = .ok (t.statements, inner + t.stats)) ∧
          t.stats.moments = t.statements.length ∧ ∀ m ∈ t.moments, m.statements ≠ []) c.unscheduledBlocks ts ∧
        stats = .total (ts.map Timeline.stats)) ∧
    stats.parallelMoments ≤ stats.moments ∧ stats.moments + stats.parallelMoments ≤ stats.statementsPlaced := by
  obtain ⟨ts, hts, rfl⟩ := accounts_schedule h
  have hvalid : ∀ t ∈ ts, ∃ u : Universe, t.Valid u := by
    intro t ht
    obtain ⟨e, -, he⟩ := exists_left_of_forall₂ hts ht
    exact ⟨e.1, he.valid⟩
  have hbalanced : (Stats.total (ts.map Timeline.stats)).IsBalanced := by
    apply Stats.isBalanced_total
    intro a ha
    obtain ⟨t, ht, rfl⟩ := List.mem_map.1 ha
    obtain ⟨u, hu⟩ := hvalid t ht
    exact hu.isBalanced
  refine ⟨?_, ⟨ts, hts.imp ?_, rfl⟩, hbalanced.parallel_le, hbalanced.moments_le⟩
  · rw [← length_unscheduledBlocks, hts.length_eq, Timeline.blocksScheduled_total]
  · intro e t ht
    exact ⟨ht, ht.scheduleBlock, ht.valid.length_statements.symm, fun m hm => (ht.valid.moments m hm).nonempty⟩

/-- Blocks inside blocks, in a loop, in a parallel block and in a macro. -/
theorem schedule_counts_sample : ∃ c' stats, sample.schedule = .ok (c', stats) ∧ stats.blocksScheduled = 5 ∧
    stats.parallelMoments ≤ stats.moments ∧ stats.moments + stats.parallelMoments ≤ stats.statementsPlaced := by
  obtain ⟨c', stats, h⟩ := exists_schedule_sample
  obtain ⟨hblocks, -, hparallel, hplaced⟩ := schedule_counts h
  have hfive : sample.blocks.countP (·.kind = .unscheduled) = 5 := by decide
  exact ⟨c', stats, h, hblocks.trans hfive, hparallel, hplaced⟩

end Circuit

end IonSchedule
