import Mathlib.Data.Finset.Card
import IonSchedule.Proofs.Landing
import IonSchedule.Proofs.Leaves

/-! # Layers of single-qubit gates

Each gate of a block of parallelizable gates touches at most one slot. It lands in the moment whose number is
the number of gates listed before it on the same slot, so that the schedule has as many moments as there are
gates on the slot with most of them. Gates on one slot cannot share a moment, and therefore no other schedule
has fewer.
-/
namespace IonSchedule

/-! ## The slot of a call -/

section Zip

variable {α β : Type}

theorem length_filter_zip_le (p : β → Bool) (as : List α) (bs : List β) :
    ((as.zip bs).filter fun e => p e.2).length ≤ (bs.filter p).length := by
  induction as generalizing bs with
  | nil => simp
  | cons a as ih =>
    cases bs with
    | nil => simp
    | cons b bs =>
      rw [List.zip_cons_cons, List.filter_cons, List.filter_cons]
      split
      · simpa using ih bs
      · exact ih bs

end Zip

theorem GateCall.length_quantumArgs_le {g : GateCall} (hg : g.isParallelizable = true) :
    g.quantumArgs.length ≤ 1 := by
  obtain ⟨name, kind, args⟩ := g
  cases kind with
  | composite => simp [isParallelizable, quantumParameterCount?, definition?] at hg
  | native d =>
    have hcount : d.qubitCount ≤ 1 := by
      simp only [isParallelizable, quantumParameterCount?, definition?, Option.map_some, Option.any_some,
        Bool.and_eq_true, decide_eq_true_eq] at hg
      exact hg.2
    rw [quantumArgs, List.length_map]
    exact (length_filter_zip_le (·.kind.isQuantum) args d.parameters).trans hcount

namespace Universe

variable {u : Universe} {g : GateCall} {used : Usage} {x y : Slot}

theorem eq_of_mem_argumentUsage {a : Argument} (hu : u.argumentUsage g a = .ok used) (hx : x ∈ used)
    (hy : y ∈ used) : x = y := by
  have hsingle : ∀ slot : Slot, x ∈ ({slot} : Usage) → y ∈ ({slot} : Usage) → x = y := by
    intro slot hx hy
    have hx : slot = x := Slot.eq_of_order_eq (by simpa using hx)
    have hy : slot = y := Slot.eq_of_order_eq (by simpa using hy)
    exact hx.symm.trans hy
  cases a with
  | number value =>
    cases hu
    simp at hx
  | qubit q =>
    simp only [argumentUsage] at hu
    split at hu
    · cases hu
      exact hsingle _ hx hy
    · cases hu
  | ref name =>
    simp only [argumentUsage] at hu
    split at hu
    · cases hu
      exact hsingle _ hx hy
    · split at hu
      · cases hu
      · cases hu
        simp at hx

theorem touches_iff_of_ok (hu : u.gateUsage g = .ok used) : u.touches x g = true ↔ x ∈ used := by
  simp [touches_iff, hu]

/-- A parallelizable gate touches at most one slot. -/
theorem eq_of_mem_gateUsage (hg : g.isParallelizable = true) (hu : u.gateUsage g = .ok used) (hx : x ∈ used)
    (hy : y ∈ used) : x = y := by
  have hbarrier : g.isBarrier = false := by
    simp only [GateCall.isParallelizable, Bool.and_eq_true, Bool.not_eq_true'] at hg
    exact hg.1
  rw [gateUsage, hbarrier] at hu
  have hlength := GateCall.length_quantumArgs_le hg
  match hargs : g.quantumArgs with
  | [] =>
    rw [hargs] at hu
    cases hu
    simp at hx
  | [a] =>
    simp only [hargs, argumentsUsage, Bool.false_eq_true, if_false, bind_eq_ok_iff, pure_eq_ok_iff] at hu
    obtain ⟨first, hfirst, others, hothers, rfl⟩ := hu
    cases hothers
    simp only [Std.ExtTreeSet.mem_union_iff, Std.ExtTreeSet.not_mem_empty, or_false] at hx hy
    exact eq_of_mem_argumentUsage hfirst hx hy
  | a₁ :: a₂ :: rest =>
    rw [hargs] at hlength
    simp at hlength

/-- The slot that a call touches; the first one in order if there are several. -/
def slot? (u : Universe) (g : GateCall) : Option Slot :=
  match u.gateUsage g with
  | .ok used => used.toList.head?
  | .error _ => none

theorem slot?_eq_some_iff (hg : g.isParallelizable = true) : u.slot? g = some x ↔ u.touches x g = true := by
  unfold slot?
  rw [touches_iff]
  cases hu : u.gateUsage g with
  | error e => simp
  | ok used =>
    simp only [Except.ok.injEq, exists_eq_left']
    constructor
    · intro hx
      exact Std.ExtTreeSet.mem_toList.1 (List.mem_of_head? hx)
    · intro hx
      cases hslots : used.toList with
      | nil =>
        rw [← Std.ExtTreeSet.mem_toList, hslots] at hx
        cases hx
      | cons y rest =>
        have hy : y ∈ used := Std.ExtTreeSet.mem_toList.1 (by simp [hslots])
        rw [List.head?_cons, eq_of_mem_gateUsage hg hu hx hy]

/-- How many of the earlier calls are on the slot of a call. -/
def level (u : Universe) (earlier : List GateCall) (g : GateCall) : Nat :=
  ((u.slot? g).map fun x => earlier.countP (u.touches x)).getD 0

/-- The calls of the given level, in listed order. -/
def layer (u : Universe) (gs : List GateCall) (k : Nat) : List GateCall :=
  (gs.zipIdx.filter fun e => u.level (gs.take e.2) e.1 = k).map Prod.fst

variable {gs : List GateCall} {k n : Nat}

theorem level_le_iff (hg : g.isParallelizable = true) :
    u.level gs g ≤ n ↔ ∀ x, u.touches x g = true → gs.countP (u.touches x) ≤ n := by
  simp only [← slot?_eq_some_iff hg, level]
  cases u.slot? g with
  | none => simp
  | some x => simp

theorem level_of_touches (hg : g.isParallelizable = true) (hx : u.touches x g = true) :
    u.level gs g = gs.countP (u.touches x) := by
  rw [level, (slot?_eq_some_iff hg).2 hx, Option.map_some, Option.getD_some]

theorem layer_append_singleton :
    u.layer (gs ++ [g]) k = u.layer gs k ++ if u.level gs g = k then [g] else [] := by
  have hearlier : ∀ e ∈ gs.zipIdx, (gs ++ [g]).take e.2 = gs.take e.2 := by
    intro e he
    have hlt := (List.mem_zipIdx he).2.1
    rw [List.take_append_of_le_length (by omega)]
  have hfilter : gs.zipIdx.filter (fun e => u.level ((gs ++ [g]).take e.2) e.1 = k) =
      gs.zipIdx.filter fun e => u.level (gs.take e.2) e.1 = k := by
    apply List.filter_congr
    intro e he
    rw [hearlier e he]
  rw [layer, List.zipIdx_append, List.filter_append, hfilter, List.map_append]
  congr 1
  by_cases hk : u.level gs g = k
  · simp [hk]
  · simp [hk]

end Universe

/-! ## Placing gate after gate -/

namespace Timeline

variable {u : Universe} {t : Timeline} {gs : List GateCall} {g : GateCall} {used : Usage} {k : Nat}

/-- The timeline of some parallelizable gates: its moments are the layers of the gates and none of them is
closed, each slot is in use from the first moment on for as many moments as there are gates on it, and no moment
is missing in between. -/
structure IsLayered (u : Universe) (gs : List GateCall) (t : Timeline) : Prop where
  valid : t.Valid u
  isOpen : ∀ k, (t.momentAt k).isOpen = true
  statements : ∀ k, (t.momentAt k).statements = (u.layer gs k).map .gate
  used : ∀ x k, t.UsedAt x k ↔ k < gs.countP (u.touches x)
  length : ∀ k, k < t.moments.length ↔ k = 0 ∧ gs ≠ [] ∨ ∃ x, k < gs.countP (u.touches x)

theorem isLayered_empty : IsLayered u [] empty where
  valid := valid_empty
  isOpen k := by simp [momentAt, empty, Moment.blank]
  statements k := by simp [momentAt, empty, Moment.blank, Universe.layer]
  used x k := by simp [UsedAt, empty]
  length k := by simp [empty]

theorem IsLayered.earliest_eq (h : t.IsLayered u gs) (hg : g.isParallelizable = true)
    (hu : u.gateUsage g = .ok used) : t.earliest used none = u.level gs g := by
  apply eq_of_forall_ge_iff
  intro n
  rw [earliest_le_iff, Universe.level_le_iff hg]
  simp only [Universe.touches_iff_of_ok hu]
  have hlast : ∀ x, (∀ i, t.lastUse[x]? = some i → i < n) ↔ gs.countP (u.touches x) ≤ n := by
    intro x
    simp only [h.valid.lastUse, h.used]
    constructor
    · intro hi
      by_contra hlt
      have hlt' := hi (gs.countP (u.touches x) - 1) ⟨by omega, fun j hj => by omega⟩
      omega
    · rintro hle i ⟨hi, -⟩
      omega
  simp only [hlast]
  exact and_iff_right (Nat.zero_le n)

/-- A gate lands in the moment of its level. -/
theorem IsLayered.landing_eq (h : t.IsLayered u gs) (hg : g.isParallelizable = true)
    (hu : u.gateUsage g = .ok used) : t.landing used none = u.level gs g := by
  rw [← h.earliest_eq hg hu]
  apply (isLeast_landing (h.valid.earliest_le_length (Nat.zero_le _))).unique
  refine ⟨⟨Nat.le_refl _, ?_⟩, fun i hi => hi.1⟩
  -- the moment is open, and a slot of the gate that it used would be used too late
  rw [Moment.accepts, h.isOpen, Bool.true_and, Usage.disjoint_iff]
  intro x hx hxg
  exact absurd (h.valid.lt_earliest hxg (usedAt_iff.2 hx)) (Nat.lt_irrefl _)

theorem IsLayered.place (h : t.IsLayered u gs) (hg : g.isParallelizable = true) (hu : u.gateUsage g = .ok used) :
    (t.place (.gate g) used none).1.IsLayered u (gs ++ [g]) := by
  have hlanding := h.landing_eq hg hu
  have hcount : ∀ x, (gs ++ [g]).countP (u.touches x) = gs.countP (u.touches x) + if x ∈ used then 1 else 0 := by
    intro x
    simp only [List.countP_append, List.countP_singleton, Universe.touches_iff_of_ok hu]
  have hlevel : ∀ x ∈ used, u.level gs g = gs.countP (u.touches x) :=
    fun x hx => Universe.level_of_touches hg ((Universe.touches_iff_of_ok hu).2 hx)
  constructor
  · exact Schedule.valid_place h.valid hg hu
  · intro k
    rw [momentAt_place]
    split
    · exact h.isOpen k
    · exact h.isOpen k
  · intro k
    rw [momentAt_place, hlanding, Universe.layer_append_singleton, List.map_append, ← h.statements k]
    by_cases hk : k = u.level gs g
    · simp [hk, Moment.join]
    · simp [hk, Ne.symm hk]
  · intro x k
    rw [usedAt_place, h.used, hlanding, hcount]
    by_cases hx : x ∈ used
    · rw [hlevel x hx, if_pos hx]
      simp only [hx, and_true]
      omega
    · simp [hx]
  · intro k
    rw [length_place, hlanding, lt_max_iff, h.length]
    constructor
    · rintro ((⟨rfl, -⟩ | ⟨x, hx⟩) | hk)
      · exact .inl ⟨rfl, by simp⟩
      · exact .inr ⟨x, by rw [hcount]; omega⟩
      · by_cases hslot : ∃ x, x ∈ used
        · obtain ⟨x, hx⟩ := hslot
          rw [hlevel x hx] at hk
          exact .inr ⟨x, by rw [hcount, if_pos hx]; exact hk⟩
        · -- a gate without a slot has level zero
          have hzero : u.level gs g ≤ 0 := (Universe.level_le_iff hg).2 fun x hx =>
            absurd ⟨x, (Universe.touches_iff_of_ok hu).1 hx⟩ hslot
          exact .inl ⟨by omega, by simp⟩
    · rintro (⟨rfl, -⟩ | ⟨x, hx⟩)
      · exact .inr (Nat.succ_pos _)
      · rw [hcount] at hx
        by_cases hxg : x ∈ used
        · rw [if_pos hxg, ← hlevel x hxg] at hx
          exact .inr hx
        · rw [if_neg hxg] at hx
          exact .inl (.inr ⟨x, hx⟩)

/-- The moments of the schedule are the layers of the gates. -/
theorem IsLayered.getElem?_statements (h : t.IsLayered u gs) (k : Nat) :
    t.statements[k]? = Statement.together? ((u.layer gs k).map .gate) := by
  have hmoment : t.statements[k]? = (t.momentAt k).toStatement? := by
    rw [h.valid.getElem?_statements, momentAt]
    cases t.moments[k]? with
    | none => rfl
    | some m => rfl
  have hgates : ∀ calls : List GateCall, (calls.map Statement.gate).flatMap Statement.pieces = calls.map .gate := by
    intro calls
    rw [List.flatMap_map]
    exact List.flatMap_pure_eq_map _ _
  rw [hmoment, Moment.toStatement?, h.statements]
  rcases u.layer gs k with _ | ⟨g₁, _ | ⟨g₂, rest⟩⟩
  · rfl
  · rfl
  · exact congrArg (some ∘ Statement.block .parallel) (hgates (g₁ :: g₂ :: rest)).symm

/-- There are as many moments as gates on the slot with most of them, and one if no gate has a slot. -/
theorem IsLayered.isGreatest_length (h : t.IsLayered u gs) :
    IsGreatest {n | n = 1 ∧ gs ≠ [] ∨ ∃ x, gs.countP (u.touches x) = n} t.moments.length := by
  have hle : ∀ x, gs.countP (u.touches x) ≤ t.moments.length := by
    intro x
    by_contra hlt
    exact Nat.lt_irrefl _ ((h.length _).2 (.inr ⟨x, Nat.not_le.1 hlt⟩))
  refine ⟨?_, ?_⟩
  · rcases Nat.eq_zero_or_pos t.moments.length with hzero | hpos
    · refine .inr ⟨⟨.register "", 0⟩, ?_⟩
      have := hle ⟨.register "", 0⟩
      omega
    · rcases (h.length (t.moments.length - 1)).1 (by omega) with ⟨hlast, hne⟩ | ⟨x, hx⟩
      · exact .inl ⟨by omega, hne⟩
      · have := hle x
        exact .inr ⟨x, by omega⟩
  · rintro n (⟨rfl, hne⟩ | ⟨x, rfl⟩)
    · exact (h.length 0).2 (.inl ⟨rfl, hne⟩)
    · exact hle x

end Timeline

/-! ## The fewest moments -/

/-- Gates on a common slot are put in different moments. -/
def Universe.Separates (u : Universe) (gs : List GateCall) (assign : Nat → Nat) : Prop :=
  ∀ i j g h, i < j → gs[i]? = some g → gs[j]? = some h →
    ∀ x, u.touches x g = true → u.touches x h = true → assign i ≠ assign j

theorem countP_eq_card_filter {α : Type} (p : α → Bool) (as : List α) :
    as.countP p = ((Finset.range as.length).filter fun i => as[i]?.any p = true).card := by
  induction as using List.reverseRecOn with
  | nil => rfl
  | append_singleton as a ih =>
    have hbefore : (Finset.range as.length).filter (fun i => (as ++ [a])[i]?.any p = true) =
        (Finset.range as.length).filter fun i => as[i]?.any p = true := by
      apply Finset.filter_congr
      intro i hi
      rw [List.getElem?_append_left (Finset.mem_range.1 hi)]
    rw [List.countP_append, List.countP_singleton, List.length_append, List.length_singleton, Finset.range_add_one,
      Finset.filter_insert, hbefore, ih]
    by_cases ha : p a = true
    · simp [ha]
    · simp [ha]

/-- The gates on one slot need a moment each. -/
theorem Universe.Separates.countP_le {u : Universe} {gs : List GateCall} {assign : Nat → Nat}
    (h : u.Separates gs assign) (x : Slot) :
    gs.countP (u.touches x) ≤ ((Finset.range gs.length).image assign).card := by
  have hinj : Set.InjOn assign ((Finset.range gs.length).filter fun i => gs[i]?.any (u.touches x) = true) := by
    intro i hi j hj hij
    simp only [Finset.coe_filter, Finset.mem_range, Set.mem_ofPred_eq, Option.any_eq_true] at hi hj
    obtain ⟨-, g, hg, hxg⟩ := hi
    obtain ⟨-, g', hg', hxg'⟩ := hj
    rcases Nat.lt_trichotomy i j with hlt | heq | hlt
    · exact absurd hij (h i j g g' hlt hg hg' x hxg hxg')
    · exact heq
    · exact absurd hij.symm (h j i g' g hlt hg' hg x hxg' hxg)
  rw [countP_eq_card_filter, ← Finset.card_image_of_injOn hinj]
  exact Finset.card_le_card (Finset.image_subset_image (Finset.filter_subset _ _))

namespace Schedule

variable {u : Universe} {gs : List GateCall}

theorem exists_layered {earlier : List GateCall} {t : Timeline} (ht : t.IsLayered u earlier)
    (hg : ∀ g ∈ gs, g.isParallelizable = true) (hu : ∀ g ∈ gs, ∃ used, u.gateUsage g = .ok used) :
    ∃ p, placeAll u false (gs.map .gate) none t = .ok p ∧ p.timeline.IsLayered u (earlier ++ gs) := by
  induction gs generalizing earlier t with
  | nil => exact ⟨⟨t, none, 0⟩, rfl, by rwa [List.append_nil]⟩
  | cons g rest ih =>
    rw [List.forall_mem_cons] at hg hu
    obtain ⟨used, hused⟩ := hu.1
    rw [List.map_cons, placeAll_of_isParallelizable hg.1 hused]
    have hrest := ih (ht.place hg.1 hused) hg.2 hu.2
    rwa [List.append_assoc, List.singleton_append] at hrest

/-- A block of parallelizable gates whose qubits resolve is scheduled layer by layer: each moment holds the
gates of its level, in listed order. There are as many moments as gates on the slot with most of them, at least
one if there are gates at all, and gates on a common slot cannot be put in different moments with fewer. -/
theorem scheduleBlock_layers (hg : ∀ g ∈ gs, g.isParallelizable = true)
    (hu : ∀ g ∈ gs, ∃ used, u.gateUsage g = .ok used) :
    ∃ out stats, scheduleBlock u (gs.map .gate) = .ok (out, stats) ∧
      (∀ k, out[k]? = Statement.together? ((u.layer gs k).map .gate)) ∧
      IsGreatest {n | n = 1 ∧ gs ≠ [] ∨ ∃ x, gs.countP (u.touches x) = n} out.length ∧
      ∀ assign, u.Separates gs assign → out.length ≤ ((Finset.range gs.length).image assign).card := by
  obtain ⟨p, hp, hlayered⟩ := exists_layered Timeline.isLayered_empty hg hu
  rw [List.nil_append] at hlayered
  have hgreatest := hlayered.isGreatest_length
  rw [← hlayered.valid.length_statements] at hgreatest
  refine ⟨p.timeline.statements, p.stats + p.timeline.stats, map_eq_ok_iff.2 ⟨p, hp, rfl⟩,
    hlayered.getElem?_statements, hgreatest, fun assign hassign => ?_⟩
  rcases hgreatest.1 with ⟨hone, hne⟩ | ⟨x, hx⟩
  · rw [hone, Nat.succ_le_iff, Finset.card_pos, Finset.image_nonempty, Finset.nonempty_range_iff]
    simpa using hne
  · rw [← hx]
    exact hassign.countP_le x

end Schedule

namespace Sample

/-- Three gates on one ion, two of them through a map, one on another ion and one on none. -/
def layered : List GateCall :=
  [pxCall (onQ 2), pxCall (onEven 1), pxCall (onQ 1), .native ⟨"wait", []⟩ [], pxCall (onEven 1)]

end Sample

namespace Schedule

theorem scheduleBlock_layers_layered :
    ∃ out stats, scheduleBlock Circuit.sample.slots (Sample.layered.map .gate) = .ok (out, stats) ∧
      (∀ k, out[k]? = Statement.together? ((Circuit.sample.slots.layer Sample.layered k).map .gate)) ∧
      out.length = 3 ∧
      ∀ assign, Circuit.sample.slots.Separates Sample.layered assign →
        3 ≤ ((Finset.range Sample.layered.length).image assign).card := by
  have hresolves : ∀ g ∈ Sample.layered, (Circuit.sample.slots.gateUsage g).toBool = true := by decide +kernel
  obtain ⟨out, stats, hout, hlayers, -, hfewest⟩ := @scheduleBlock_layers Circuit.sample.slots Sample.layered
    (by decide +kernel) fun g hg => toBool_iff.1 (hresolves g hg)
  have hlength : (fun r => r.1.length) <$> scheduleBlock Circuit.sample.slots (Sample.layered.map .gate) =
      .ok 3 := by
    decide +kernel
  rw [hout] at hlength
  have hthree : out.length = 3 := Except.ok.inj hlength
  rw [hthree] at hfewest
  exact ⟨out, stats, hout, hlayers, hthree, hfewest⟩

end Schedule

end IonSchedule
