import IonSchedule.Proofs.NormalForm
import IonSchedule.Proofs.Relabelling

/-! # A block on its own

A block inside an unscheduled block is placed on a timeline, and elsewhere its statements are spliced into what
surrounds it. Both come to the same when the block is all there is. Each statement that is placed has to come
after the one before it, and with nothing else on the timeline that is behind its last moment, so that every
statement starts a moment of its own; only an empty parallel block, which splicing keeps, takes no moment.
-/
namespace IonSchedule

def Statement.isEmptyParallel : Statement → Bool
  | .block .parallel [] => true
  | _ => false

theorem Statement.eq_of_isEmptyParallel {s : Statement} (h : s.isEmptyParallel = true) :
    s = .block .parallel [] := by
  unfold isEmptyParallel at h
  split at h
  · rfl
  · cases h

namespace Timeline

variable {t : Timeline} {usage : Usage} {after : Option Nat} {ss : List Statement} {s : Statement}

/-- The statements are all that is on the timeline, each in a moment of its own, and what comes next comes
behind them. -/
structure IsSeries (t : Timeline) (after : Option Nat) (ss : List Statement) : Prop where
  statements : t.moments.map Moment.statements = ss.map ([·])
  isLast : firstAfter after = t.moments.length

namespace IsSeries

theorem push (h : t.IsSeries after ss) (isOpen : Bool) :
    (t.push [s] usage isOpen).1.IsSeries (some t.moments.length) (ss ++ [s]) where
  statements := by simp [Timeline.push, h.statements]
  isLast := by simp [Timeline.push, firstAfter]

theorem findOpen?_eq_none (h : t.IsSeries after ss) : t.findOpen? usage after = none := by
  have hstart := firstAfter_le_earliest t usage after
  rw [h.isLast] at hstart
  rw [findOpen?, List.drop_eq_nil_of_le hstart]
  rfl

theorem statements_eq (h : t.IsSeries after ss) : t.statements = ss := by
  calc t.statements = (t.moments.map Moment.statements).filterMap fun ss => Moment.toStatement? ⟨ss, ∅, true⟩ := by
        rw [List.filterMap_map]
        rfl
    _ = ss := by
        rw [h.statements, List.filterMap_map]
        exact List.filterMap_some

theorem stats_eq (h : t.IsSeries after ss) : t.stats = ⟨1, ss.length, 0, ss.length⟩ := by
  have hlengths : t.moments.map (·.statements.length) = List.replicate ss.length 1 := by
    have hmap := congrArg (List.map List.length) h.statements
    rw [List.map_map, List.map_map] at hmap
    exact hmap.trans List.map_const'
  have hsum : ∀ n : Nat, (List.replicate n 1).foldr (· + ·) 0 = n := by
    intro n
    induction n with
    | zero => rfl
    | succ n ih => rw [List.replicate_succ, List.foldr_cons, ih, Nat.add_comm]
  simp [Timeline.stats_eq, hlengths, hsum]

end IsSeries

end Timeline

namespace Schedule

variable {u : Universe} {after last : Option Nat} {t t' : Timeline} {s : Statement} {ss out : List Statement}
  {stats : Stats} {earlier : List Statement}

/-- A leaf that enters behind all others starts a moment, unless it is an empty block. -/
theorem Enters.isSeries (h : Enters u after t s t' last) (hleaf : s.isLeaf = true) (ht : t.IsSeries after earlier) :
    t'.IsSeries last (earlier ++ [s].filter (!·.isEmptyParallel)) := by
  cases h with
  | skip kind =>
    obtain rfl : kind = .parallel := by simpa [Statement.isLeaf] using hleaf
    simpa [Statement.isEmptyParallel] using ht
  | join hs hne hu hi =>
    rw [ht.findOpen?_eq_none] at hi
    cases hi
  | start hg hu hi => exact ht.push true
  | alone hne hu hs =>
    have hkept : s.isEmptyParallel = false := by
      by_contra hempty
      exact hne .parallel (Statement.eq_of_isEmptyParallel (by simpa using hempty))
    rw [List.filter_cons_of_pos (by simp [hkept])]
    exact ht.push false

theorem EntersAll.isSeries (h : EntersAll u after t ss t' last) (hleaf : ∀ s ∈ ss, s.isLeaf = true)
    (ht : t.IsSeries after earlier) : t'.IsSeries last (earlier ++ ss.filter (!·.isEmptyParallel)) := by
  induction h generalizing earlier with
  | nil => simpa using ht
  | @cons after mid last t t₁ t₂ s rest first others ih =>
    rw [List.forall_mem_cons] at hleaf
    have hrest := ih hleaf.2 (first.isSeries hleaf.1 ht)
    rwa [List.append_assoc, ← List.filter_append, List.singleton_append] at hrest

/-- Behind all others, a statement is placed as what splicing leaves of it. -/
def PlacedAsSpliced (u : Universe) (s : Statement) : Prop :=
  ∀ after t earlier p, t.IsSeries after earlier → placeOne u s after t = .ok p →
    ∃ out, spliceOne u false s = .ok (out, p.stats) ∧
      p.timeline.IsSeries p.last (earlier ++ out.filter (!·.isEmptyParallel))

theorem placedAsSpliced_of_isLeaf (hleaf : s.isLeaf = true) : PlacedAsSpliced u s := by
  intro after t earlier p ht hp
  rw [placeOne_of_isLeaf hleaf] at hp
  simp only [bind_eq_ok_iff, pure_eq_ok_iff] at hp
  obtain ⟨⟨s', stats⟩, harrange, ⟨t', last⟩, henter, rfl⟩ := hp
  have hleaf' : s'.isLeaf = true := ((derives_all u).1 s s' stats harrange).isFlat.2 hleaf
  refine ⟨[s'], ?_, (enters_of_placeLeaf henter).isSeries hleaf' ht⟩
  rw [spliceOne_of_isLeaf hleaf, harrange]
  rfl

/-- The statements of a sequential block are placed one after another. -/
theorem exists_splice_of_placeAll (hss : ∀ s ∈ ss, PlacedAsSpliced u s) {p : Placed} (ht : t.IsSeries after earlier)
    (hp : placeAll u true ss after t = .ok p) :
    ∃ out, splice u false ss = .ok (out, p.stats) ∧
      p.timeline.IsSeries p.last (earlier ++ out.filter (!·.isEmptyParallel)) := by
  induction ss generalizing after t earlier p with
  | nil =>
    simp only [placeAll, pure_eq_ok_iff] at hp
    subst hp
    exact ⟨[], rfl, by simpa using ht⟩
  | cons s rest ih =>
    rw [List.forall_mem_cons] at hss
    simp only [placeAll_cons, if_true, bind_eq_ok_iff, pure_eq_ok_iff] at hp
    obtain ⟨first, hfirst, others, hothers, rfl⟩ := hp
    obtain ⟨out, hout, hseries⟩ := hss.1 after t earlier first ht hfirst
    obtain ⟨more, hmore, hrest⟩ := ih hss.2 hseries hothers
    refine ⟨out ++ more, ?_, ?_⟩
    · rw [splice_cons, hout]
      simp only [pure_eq_ok_iff, bind_eq_ok_iff]
      exact ⟨_, rfl, _, hmore, rfl⟩
    · rwa [List.append_assoc, ← List.filter_append] at hrest

/-- The moments of an unscheduled block are placed again, one after another. -/
theorem placedAsSpliced_unscheduled : PlacedAsSpliced u (.block .unscheduled ss) := by
  intro after t earlier p ht hp
  simp only [placeOne, bind_eq_ok_iff, pure_eq_ok_iff] at hp
  obtain ⟨⟨inner, stats⟩, hinner, ⟨t', last⟩, henter, rfl⟩ := hp
  have hbody : Derives u (.body .unscheduled ss inner stats) := derives_arrangeBody hinner
  have hflat := hbody.isFlat
  have hleaves : ∀ s ∈ inner, s.isLeaf = true :=
    fun s hs => Statement.isLeaf_of_isFlat (hflat.2 s hs) (hflat.1.2 rfl s hs)
  exact ⟨inner, hinner, (entersAll_of_placeLeaves henter).isSeries hleaves ht⟩

theorem placedAsSpliced (u : Universe) (s : Statement) : PlacedAsSpliced u s := by
  induction s using Statement.induction with
  | gate g => exact placedAsSpliced_of_isLeaf rfl
  | loop count kind body _ => exact placedAsSpliced_of_isLeaf rfl
  | block kind ss ih =>
    cases kind with
    | parallel => exact placedAsSpliced_of_isLeaf rfl
    | unscheduled => exact placedAsSpliced_unscheduled
    | sequential =>
      intro after t earlier p ht hp
      obtain ⟨out, hout, hseries⟩ := exists_splice_of_placeAll ih ht hp
      refine ⟨out, ?_, hseries⟩
      rw [spliceOne, hout]
      rfl

theorem arrangeBlock_of_spliceOne {b : Block} (hb : b.kind ≠ .parallel)
    (h : spliceOne u false b.toStatement = .ok (out, stats)) : arrangeBlock u b = .ok (.sequential out, stats) := by
  obtain ⟨kind, ss⟩ := b
  rw [arrangeBlock_eq, bind_eq_ok_iff]
  cases kind with
  | parallel => exact absurd rfl hb
  | unscheduled => exact ⟨(out, stats), h, rfl⟩
  | sequential =>
    simp only [Block.toStatement, spliceOne, Bool.false_eq_true, if_false, bind_eq_ok_iff, pure_eq_ok_iff] at h
    obtain ⟨⟨inner, counts⟩, hinner, hpair⟩ := h
    cases hpair
    exact ⟨_, hinner, rfl⟩

/-- A sequential or unscheduled block that is alone in an unscheduled one is scheduled to what it becomes
elsewhere, without the empty parallel blocks of that. One more block is counted as scheduled, with a moment for
each statement. -/
theorem scheduleBlock_singleton {b : Block} (hb : b.kind ≠ .parallel)
    (h : scheduleBlock u [b.toStatement] = .ok (out, stats)) :
    ∃ inner stats', arrangeBlock u b = .ok (.sequential inner, stats') ∧ out = inner.filter (!·.isEmptyParallel) ∧
      stats = stats' + ⟨1, out.length, 0, out.length⟩ := by
  obtain ⟨p, hp, hclose⟩ := map_eq_ok_iff.1 h
  simp only [placeAll_cons, bind_eq_ok_iff, pure_eq_ok_iff, placeAll] at hp
  obtain ⟨first, hfirst, others, rfl, rfl⟩ := hp
  obtain ⟨inner, hinner, hseries⟩ := placedAsSpliced u b.toStatement none .empty [] first ⟨rfl, rfl⟩ hfirst
  rw [List.nil_append] at hseries
  simp only [Placed.close, Prod.mk.injEq, hseries.statements_eq, hseries.stats_eq] at hclose
  obtain ⟨rfl, rfl⟩ := hclose
  exact ⟨inner, first.stats, arrangeBlock_of_spliceOne hb hinner, rfl, rfl⟩

end Schedule

namespace Sample

/-- A block with others of every kind in it, one of them empty. -/
def sole : Block :=
  .sequential
    [px (onQ 0), .block .parallel [],
      .block .sequential [px (onQ 1), .block .unscheduled [px (onQ 0), px (onQ 1), px (onQ 1)]],
      .loop (.fixed 2) .unscheduled [px (onQ 0), px (onQ 2)], .block .parallel [px (onQ 0), px (onQ 1)]]

end Sample

namespace Schedule

theorem scheduleBlock_singleton_sole :
    ∃ out inner, scheduleBlock Circuit.sample.slots [Sample.sole.toStatement] = .ok (out, ⟨3, 9, 2, 11⟩) ∧
      arrangeBlock Circuit.sample.slots Sample.sole = .ok (.sequential inner, ⟨2, 3, 2, 5⟩) ∧ inner.length = 7 ∧
      out = inner.filter (!·.isEmptyParallel) ∧ out.length = 6 := by
  have hstats : Prod.snd <$> scheduleBlock Circuit.sample.slots [Sample.sole.toStatement] = .ok ⟨3, 9, 2, 11⟩ := by
    decide +kernel
  obtain ⟨⟨out, stats⟩, hout, rfl⟩ := map_eq_ok_iff.1 hstats
  obtain ⟨inner, stats', harrange, hfilter, -⟩ := scheduleBlock_singleton (by decide) hout
  have hinner : (fun r => (r.1.statements.length, (r.1.statements.filter (!·.isEmptyParallel)).length, r.2)) <$>
      arrangeBlock Circuit.sample.slots Sample.sole = .ok (7, 6, ⟨2, 3, 2, 5⟩) := by decide +kernel
  rw [harrange] at hinner
  have hcounts := Except.ok.inj hinner
  simp only [Prod.mk.injEq] at hcounts
  obtain ⟨hseven, hsix, rfl⟩ := hcounts
  exact ⟨out, inner, hout, harrange, hseven, hfilter, hfilter ▸ hsix⟩

end Schedule

end IonSchedule
