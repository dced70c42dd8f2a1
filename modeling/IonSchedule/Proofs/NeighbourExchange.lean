import Mathlib.Data.List.Forall2
import IonSchedule.Proofs.Relabelling
import IonSchedule.Proofs.Landing

/-! # Exchanging independent neighbours

Two parallelizable gates without a common slot may be listed in either order. Neither changes where the other
one lands, so both orders give the same moments, except that members of one moment may change places. The
scheduler looks at the slots of a moment and at whether it is open, never at the order of its members, so
everything that is placed afterwards lands alike as well.
-/
namespace IonSchedule

/-! ## Timelines up to the order of members -/

namespace Moment

/-- The same statements in some order, with the same slots, and open alike. -/
structure Matches (m m' : Moment) : Prop where
  statements : m.statements.Perm m'.statements
  usage : m.usage = m'.usage
  isOpen : m.isOpen = m'.isOpen

variable {m m' : Moment} {ss : List Statement} {a b : Usage}

theorem Matches.refl (m : Moment) : m.Matches m := ⟨.refl _, rfl, rfl⟩

instance : Std.Refl Matches := ⟨Matches.refl⟩

theorem Matches.join (h : m.Matches m') (ss : List Statement) (a : Usage) :
    (m.join ss a).Matches (m'.join ss a) where
  statements := h.statements.append_right ss
  usage := congrArg (· ∪ a) h.usage
  isOpen := h.isOpen

theorem Matches.accepts (h : m.Matches m') (a : Usage) : m.accepts a = m'.accepts a := by
  rw [Moment.accepts, Moment.accepts, h.usage, h.isOpen]

theorem join_comm (m : Moment) (s s' : Statement) (a b : Usage) :
    ((m.join [s] a).join [s'] b).Matches ((m.join [s'] b).join [s] a) where
  statements := by
    simp only [join, List.append_assoc]
    exact (List.Perm.swap s' s []).append_left m.statements
  usage := by
    apply Std.ExtTreeSet.ext_mem
    intro x
    simp only [join, Std.ExtTreeSet.mem_union_iff, or_assoc, or_comm (a := x ∈ a)]
  isOpen := rfl

end Moment

/-- The same moment of a schedule: one statement, or a parallel block with its members in some order. -/
inductive Statement.SameMoment : Statement → Statement → Prop
  | same (s : Statement) : SameMoment s s
  | members {ss ss' : List Statement} (h : ss.Perm ss') : SameMoment (.block .parallel ss) (.block .parallel ss')

theorem Moment.Matches.toStatement? {m m' : Moment} (h : m.Matches m') :
    Option.Rel Statement.SameMoment m.toStatement? m'.toStatement? := by
  have hlength := h.statements.length_eq
  have hperm := h.statements
  unfold Moment.toStatement?
  match hm : m.statements, hm' : m'.statements with
  | [], [] => exact .none
  | [s], [s'] =>
    rw [hm, hm', List.singleton_perm_singleton] at hperm
    subst hperm
    exact .some (.same s)
  | s₁ :: s₂ :: ss, s₁' :: s₂' :: ss' =>
    rw [hm, hm'] at hperm
    exact .some (.members hperm)
  | [], _ :: _ => simp [hm, hm'] at hlength
  | [_], [] => simp [hm, hm'] at hlength
  | [_], _ :: _ :: _ => simp [hm, hm'] at hlength
  | _ :: _ :: _, [] => simp [hm, hm'] at hlength
  | _ :: _ :: _, [_] => simp [hm, hm'] at hlength

namespace Timeline

structure Matches (t t' : Timeline) : Prop where
  moments : List.Forall₂ Moment.Matches t.moments t'.moments
  lastUse : t.lastUse = t'.lastUse

/-- The same place in timelines that match. -/
def SamePlace {α : Type} (x y : Timeline × α) : Prop := x.1.Matches y.1 ∧ x.2 = y.2

variable {t t' : Timeline} {s s' : Statement} {ss : List Statement} {a b usage : Usage} {after : Option Nat}

/-- Moments that match one by one. -/
theorem matches_of_momentAt (hlength : t.moments.length = t'.moments.length)
    (hmoments : ∀ k, (t.momentAt k).Matches (t'.momentAt k)) (hlast : t.lastUse = t'.lastUse) : t.Matches t' := by
  refine ⟨List.forall₂_iff_get.2 ⟨hlength, fun k hk hk' => ?_⟩, hlast⟩
  have hk := hmoments k
  rwa [momentAt_of_lt, momentAt_of_lt] at hk

theorem forall₂_modify {R : Moment → Moment → Prop} {f f' : Moment → Moment} {ms ms' : List Moment}
    (h : List.Forall₂ R ms ms') (hf : ∀ m m', R m m' → R (f m) (f' m')) (i : Nat) :
    List.Forall₂ R (ms.modify i f) (ms'.modify i f') := by
  induction h generalizing i with
  | nil => simp
  | cons hm hrest ih =>
    cases i with
    | zero => exact .cons (hf _ _ hm) hrest
    | succ i => exact .cons hm (ih i)

theorem Matches.firstAccepting? {ms ms' : List Moment} (h : List.Forall₂ Moment.Matches ms ms') (start : Nat) :
    Timeline.firstAccepting? usage start ms = Timeline.firstAccepting? usage start ms' := by
  induction h generalizing start with
  | nil => rfl
  | cons hm _ ih => rw [Timeline.firstAccepting?, Timeline.firstAccepting?, hm.accepts, ih]

theorem Matches.findOpen? (h : t.Matches t') : t.findOpen? usage after = t'.findOpen? usage after := by
  have hearliest : t.earliest usage after = t'.earliest usage after := by rw [earliest, earliest, h.lastUse]
  unfold Timeline.findOpen?
  rw [hearliest]
  exact Matches.firstAccepting? (List.forall₂_drop _ h.moments) _

theorem Matches.merge (h : t.Matches t') (i : Nat) : SamePlace (t.merge i ss usage) (t'.merge i ss usage) := by
  refine ⟨⟨forall₂_modify h.moments (fun m m' hm => hm.join ss usage) i, ?_⟩, rfl⟩
  simp only [Timeline.merge, noteUse, h.lastUse]

theorem Matches.push (h : t.Matches t') (isOpen : Bool) :
    SamePlace (t.push ss usage isOpen) (t'.push ss usage isOpen) := by
  have hlength := h.moments.length_eq
  refine ⟨⟨List.rel_append h.moments (.cons (.refl _) .nil), ?_⟩, hlength⟩
  simp only [Timeline.push, noteUse, h.lastUse, hlength]

theorem Matches.place (h : t.Matches t') : SamePlace (t.place s usage after) (t'.place s usage after) := by
  unfold Timeline.place
  rw [h.findOpen?]
  cases t'.findOpen? usage after with
  | none => exact h.push true
  | some i => exact h.merge i

theorem Matches.isolate (h : t.Matches t') : SamePlace (t.isolate s usage) (t'.isolate s usage) := h.push false

theorem Matches.placeGroup (h : t.Matches t') :
    SamePlace (t.placeGroup ss usage after) (t'.placeGroup ss usage after) := by
  unfold Timeline.placeGroup
  rw [h.findOpen?]
  cases t'.findOpen? usage after with
  | none => exact h.isolate
  | some i => exact h.merge i

theorem Matches.statements (h : t.Matches t') : List.Forall₂ Statement.SameMoment t.statements t'.statements :=
  List.rel_filterMap (fun _ _ hm => hm.toStatement?) h.moments

theorem Matches.stats (h : t.Matches t') : t.stats = t'.stats := by
  have hsizes : t.moments.map (·.statements.length) = t'.moments.map (·.statements.length) := by
    have hms := h.moments
    generalize t.moments = ms, t'.moments = ms' at hms
    induction hms with
    | nil => rfl
    | cons hm _ ih => rw [List.map_cons, List.map_cons, hm.statements.length_eq, ih]
  rw [stats_eq, stats_eq, hsizes]

/-! ## Two gates in either order -/

theorem earliest_congr (h : ∀ x ∈ usage, t'.lastUse[x]? = t.lastUse[x]?) :
    t'.earliest usage after = t.earliest usage after := by
  apply eq_of_forall_ge_iff
  intro n
  rw [earliest_le_iff, earliest_le_iff]
  refine and_congr_right fun _ => forall₂_congr fun x hx => ?_
  rw [h x hx]

/-- A gate does not change where a gate without a common slot lands. -/
theorem landing_place (hab : a.disjoint b = true) (hb : t.earliest b after ≤ t.moments.length) (s : Statement) :
    (t.place s a after).1.landing b after = t.landing b after := by
  have hearliest : (t.place s a after).1.earliest b after = t.earliest b after := by
    apply earliest_congr
    intro x hx
    have hxa : x ∉ a := fun hxa => Usage.disjoint_iff.1 hab x hxa hx
    rw [lastUse_place, getElem?_noteUse, if_neg hxa]
  have haccepts : ∀ i, ((t.place s a after).1.momentAt i).accepts b = (t.momentAt i).accepts b := by
    intro i
    rw [momentAt_place]
    split
    · exact Moment.accepts_join hab
    · rfl
  have hle : (t.place s a after).1.earliest b after ≤ (t.place s a after).1.moments.length := by
    rw [hearliest, length_place]
    omega
  have hleast := isLeast_landing hle
  simp only [hearliest, haccepts] at hleast
  exact hleast.unique (isLeast_landing hb)

/-- Two gates without a common slot give the same moments in either order. -/
theorem place_comm {u : Universe} (ht : t.Valid u) (hafter : firstAfter after ≤ t.moments.length)
    (hab : a.disjoint b = true) (s s' : Statement) :
    ((t.place s a after).1.place s' b after).1.Matches ((t.place s' b after).1.place s a after).1 := by
  have hba : b.disjoint a = true := by
    rw [Usage.disjoint_iff] at hab ⊢
    exact fun x hxb hxa => hab x hxa hxb
  have hs' := landing_place hab (ht.earliest_le_length hafter) s
  have hs := landing_place hba (ht.earliest_le_length hafter) s'
  apply matches_of_momentAt
  · simp only [length_place, hs, hs']
    omega
  · intro k
    simp only [momentAt_place, hs, hs']
    by_cases hk : k = t.landing a after
    · by_cases hk' : k = t.landing b after
      · simp only [if_pos hk, if_pos hk']
        exact Moment.join_comm _ s s' a b
      · simp only [if_pos hk, if_neg hk']
        exact .refl _
    · simp only [if_neg hk]
      exact .refl _
  · apply Std.ExtTreeMap.ext_getElem?
    intro x
    simp only [lastUse_place, hs, hs', getElem?_noteUse]
    by_cases hxa : x ∈ a
    · have hxb : x ∉ b := Usage.disjoint_iff.1 hab x hxa
      rw [if_pos hxa, if_neg hxb, if_pos hxa]
    · rw [if_neg hxa, if_neg hxa]

end Timeline

/-! ## Runs on timelines that match -/

section Mirrors

variable {ε α α' β β' : Type} {R : α → α' → Prop} {S : β → β' → Prop}

/-- If the first computation succeeds, so does the second one, with a related result. -/
def Mirrors (R : α → α' → Prop) (x : Except ε α) (y : Except ε α') : Prop :=
  ∀ a, x = .ok a → ∃ a', y = .ok a' ∧ R a a'

theorem mirrors_pure {a : α} {a' : α'} (h : R a a') : Mirrors R (pure a : Except ε α) (pure a') := by
  intro b hb
  rw [pure_eq_ok_iff] at hb
  exact ⟨a', rfl, hb ▸ h⟩

theorem Mirrors.bind {x : Except ε α} {y : Except ε α'} {f : α → Except ε β} {f' : α' → Except ε β'}
    (h : Mirrors R x y) (hf : ∀ a a', R a a' → Mirrors S (f a) (f' a')) : Mirrors S (x >>= f) (y >>= f') := by
  intro b hb
  obtain ⟨a, ha, hb⟩ := bind_eq_ok_iff.1 hb
  obtain ⟨a', ha', hR⟩ := h a ha
  obtain ⟨b', hb', hS⟩ := hf a a' hR b hb
  exact ⟨b', bind_eq_ok_iff.2 ⟨a', ha', hb'⟩, hS⟩

/-- Two computations that begin alike. -/
theorem mirrors_bind_same {x : Except ε α} {f : α → Except ε β} {f' : α → Except ε β'}
    (hf : ∀ a, x = .ok a → Mirrors S (f a) (f' a)) : Mirrors S (x >>= f) (x >>= f') := by
  intro b hb
  obtain ⟨a, ha, hb⟩ := bind_eq_ok_iff.1 hb
  obtain ⟨b', hb', hS⟩ := hf a ha b hb
  exact ⟨b', bind_eq_ok_iff.2 ⟨a, ha, hb'⟩, hS⟩

end Mirrors

namespace Schedule

open Timeline

variable {u : Universe} {t t' : Timeline} {s : Statement} {ss : List Statement} {after : Option Nat}

structure Placed.Matches (p p' : Placed) : Prop where
  timeline : p.timeline.Matches p'.timeline
  last : p.last = p'.last
  stats : p.stats = p'.stats

theorem mirrors_landed {x y : Timeline × Nat} (h : SamePlace x y) :
    Mirrors SamePlace (pure (x.1, some x.2) : Except CircuitError (Timeline × Option Nat)) (pure (y.1, some y.2)) :=
  mirrors_pure ⟨h.1, congrArg some h.2⟩

theorem mirrors_placeLeaf (h : t.Matches t') (after : Option Nat) (s : Statement) :
    Mirrors SamePlace (placeLeaf u after t s) (placeLeaf u after t' s) := by
  cases s with
  | gate g =>
    rw [placeLeaf, placeLeaf]
    apply mirrors_bind_same
    intro used _
    by_cases hg : g.isParallelizable = true
    · simp only [hg, if_true]
      exact mirrors_landed h.place
    · simp only [hg]
      exact mirrors_landed h.isolate
  | loop count kind body =>
    rw [placeLeaf, placeLeaf]
    exact mirrors_bind_same fun used _ => mirrors_landed h.isolate
  | block kind ss =>
    rw [placeLeaf, placeLeaf]
    split
    · exact mirrors_pure ⟨h, rfl⟩
    · apply mirrors_bind_same
      intro used _
      by_cases hg : isParallelGroup kind ss = true
      · simp only [hg, if_true]
        exact mirrors_landed h.placeGroup
      · simp only [hg]
        exact mirrors_landed h.isolate

theorem mirrors_placeLeaves (h : t.Matches t') (after : Option Nat) (ss : List Statement) :
    Mirrors SamePlace (placeLeaves u ss after t) (placeLeaves u ss after t') := by
  induction ss generalizing after t t' with
  | nil =>
    rw [placeLeaves, placeLeaves]
    exact mirrors_pure ⟨h, rfl⟩
  | cons s rest ih =>
    rw [placeLeaves, placeLeaves]
    apply (mirrors_placeLeaf h after s).bind
    rintro ⟨t₁, last⟩ ⟨t₁', last'⟩ ⟨ht₁, hlast⟩
    cases hlast
    exact ih ht₁ last

theorem mirrors_placeAll {chained : Bool} (hss : ∀ s ∈ ss, ∀ after t t', t.Matches t' →
      Mirrors Placed.Matches (placeOne u s after t) (placeOne u s after t'))
    (h : t.Matches t') (after : Option Nat) :
    Mirrors Placed.Matches (placeAll u chained ss after t) (placeAll u chained ss after t') := by
  induction ss generalizing after t t' with
  | nil =>
    rw [placeAll, placeAll]
    exact mirrors_pure ⟨h, rfl, rfl⟩
  | cons s rest ih =>
    rw [List.forall_mem_cons] at hss
    rw [placeAll_cons, placeAll_cons]
    apply (hss.1 after t t' h).bind
    intro p p' hp
    rw [hp.last]
    apply (ih hss.2 hp.timeline _).bind
    intro q q' hq
    exact mirrors_pure ⟨hq.timeline, hq.last, by rw [hp.stats, hq.stats]⟩

theorem mirrors_leaf (hleaf : s.isLeaf = true) (h : t.Matches t') (after : Option Nat) :
    Mirrors Placed.Matches (placeOne u s after t) (placeOne u s after t') := by
  rw [placeOne_of_isLeaf hleaf, placeOne_of_isLeaf hleaf]
  refine mirrors_bind_same fun out _ => (mirrors_placeLeaf h after out.1).bind ?_
  intro x y hxy
  exact mirrors_pure ⟨hxy.1, hxy.2, rfl⟩

/-- What is placed on timelines that match lands alike. -/
theorem mirrors_placeOne (s : Statement) (after : Option Nat) (t t' : Timeline) (h : t.Matches t') :
    Mirrors Placed.Matches (placeOne u s after t) (placeOne u s after t') := by
  induction s using Statement.induction generalizing after t t' with
  | gate g => exact mirrors_leaf rfl h after
  | loop count kind body ih => exact mirrors_leaf rfl h after
  | block kind ss ih =>
    cases kind with
    | sequential => exact mirrors_placeAll ih h after
    | parallel => exact mirrors_leaf rfl h after
    | unscheduled =>
      rw [placeOne, placeOne]
      refine mirrors_bind_same fun out _ => (mirrors_placeLeaves h after out.1).bind ?_
      intro x y hxy
      exact mirrors_pure ⟨hxy.1, hxy.2, rfl⟩

/-! ## Exchange -/

variable {pre post : List Statement} {g h : GateCall} {a b : Usage}

theorem mirrors_exchange (ht : t.Valid u) (hg : g.isParallelizable = true) (hh : h.isParallelizable = true)
    (ha : u.gateUsage g = .ok a) (hb : u.gateUsage h = .ok b) (hab : a.disjoint b = true) :
    Mirrors Placed.Matches (placeAll u false (.gate g :: .gate h :: post) none t)
      (placeAll u false (.gate h :: .gate g :: post) none t) := by
  rw [placeAll_of_isParallelizable hg ha, placeAll_of_isParallelizable hh hb, placeAll_of_isParallelizable hh hb,
    placeAll_of_isParallelizable hg ha]
  apply mirrors_placeAll fun s _ => mirrors_placeOne s
  apply place_comm ht _ hab
  exact Nat.zero_le _

theorem mirrors_exchange_after (ht : t.Valid u) (hg : g.isParallelizable = true) (hh : h.isParallelizable = true)
    (ha : u.gateUsage g = .ok a) (hb : u.gateUsage h = .ok b) (hab : a.disjoint b = true) :
    Mirrors Placed.Matches (placeAll u false (pre ++ .gate g :: .gate h :: post) none t)
      (placeAll u false (pre ++ .gate h :: .gate g :: post) none t) := by
  induction pre generalizing t with
  | nil => exact mirrors_exchange ht hg hh ha hb hab
  | cons s pre ih =>
    rw [List.cons_append, List.cons_append, placeAll_cons, placeAll_cons]
    apply mirrors_bind_same
    intro p hp
    apply (ih ((derives_placeOne hp).keepsValid ht)).bind
    intro q q' hq
    exact mirrors_pure ⟨hq.timeline, hq.last, by rw [hq.stats]⟩

/-- If a block is scheduled, it is also scheduled with two neighbouring parallelizable gates without a common
slot exchanged. Both schedules have the same counts, and moment by moment they hold the same statements, in
parallel blocks up to their order. -/
theorem scheduleBlock_exchange {u : Universe} {pre post out : List Statement} {stats : Stats} {g h : GateCall}
    {a b : Usage} (hout : scheduleBlock u (pre ++ .gate g :: .gate h :: post) = .ok (out, stats))
    (hg : g.isParallelizable = true) (hh : h.isParallelizable = true) (ha : u.gateUsage g = .ok a)
    (hb : u.gateUsage h = .ok b) (hab : a.disjoint b = true) :
    ∃ out', scheduleBlock u (pre ++ .gate h :: .gate g :: post) = .ok (out', stats) ∧
      List.Forall₂ Statement.SameMoment out out' := by
  obtain ⟨p, hp, hclose⟩ := map_eq_ok_iff.1 hout
  obtain ⟨p', hp', hmatches⟩ := mirrors_exchange_after valid_empty hg hh ha hb hab p hp
  have hstats : p'.close.2 = p.close.2 := by
    simp only [Placed.close, hmatches.stats, hmatches.timeline.stats]
  refine ⟨p'.close.1, map_eq_ok_iff.2 ⟨p', hp', ?_⟩, ?_⟩
  · rw [← Prod.mk.eta (p := p'.close), hstats, hclose]
  · have hstatements := hmatches.timeline.statements
    rwa [show p.timeline.statements = out from congrArg Prod.fst hclose] at hstatements

end Schedule

namespace Sample

/-- Two gates that share their moment with others, before a nested block, a loop and a parallel block. -/
def neighbours (g h : GateCall) : List Statement :=
  [px (onQ 0), .block .sequential [px (onQ 3), px (onQ 3)]] ++ .gate g :: .gate h ::
    [.block .unscheduled [px (onQ 1), px (onQ 2)], .loop (.fixed 2) .sequential [px (onQ 1)],
      .block .parallel [px (onQ 2), px (onQ 0)]]

end Sample

namespace Schedule

open Sample

theorem scheduleBlock_exchange_neighbours :
    ∃ out out',
      scheduleBlock Circuit.sample.slots (neighbours (pxCall (onQ 1)) (pyCall (onEven 1))) =
        .ok (out, ⟨2, 5, 3, 11⟩) ∧
      scheduleBlock Circuit.sample.slots (neighbours (pyCall (onEven 1)) (pxCall (onQ 1))) =
        .ok (out', ⟨2, 5, 3, 11⟩) ∧
      List.Forall₂ Statement.SameMoment out out' := by
  have hstats : Prod.snd <$> scheduleBlock Circuit.sample.slots
      (neighbours (pxCall (onQ 1)) (pyCall (onEven 1))) = .ok ⟨2, 5, 3, 11⟩ := by
    decide +kernel
  obtain ⟨⟨out, stats⟩, hout, rfl⟩ := map_eq_ok_iff.1 hstats
  have hfirst : Circuit.sample.slots.gateUsage (pxCall (onQ 1)) = .ok {⟨.register "q", 1⟩} := rfl
  have hsecond : Circuit.sample.slots.gateUsage (pyCall (onEven 1)) = .ok {⟨.register "q", 2⟩} := rfl
  obtain ⟨out', hout', hsame⟩ :=
    scheduleBlock_exchange hout (by decide) (by decide) hfirst hsecond (by decide +kernel)
  exact ⟨out, out', hout, hout', hsame⟩

end Schedule

end IonSchedule
