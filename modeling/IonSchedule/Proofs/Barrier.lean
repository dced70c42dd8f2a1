import IonSchedule.Proofs.Validation

/-! # Barriers among the moments of a block

A barrier gate gets a moment of its own at the end of the timeline and touches every slot of the universe. So
what is listed before it lies in earlier moments, and what is listed after it and touches a slot of the universe
lies in later ones. In a validated circuit whose fundamental registers are filed under their own names, every
qubit that a gate names is such a slot. Under another name it need not be one, and then a gate may pass the
barrier.
-/
namespace IonSchedule

/-- A call of a native gate that has an argument at a qubit position. -/
def GateCall.namesQubit (g : GateCall) : Bool := g.isNative && !g.quantumArgs.isEmpty

/-- A call that may join a moment and names a qubit touches a slot of the universe. -/
def Universe.Anchors (u : Universe) (g : GateCall) : Prop :=
  g.isParallelizable = true → g.namesQubit = true → ∃ x ∈ u.full, u.touches x g = true

namespace Timeline

/-- The calls in some moments. -/
def callsOf (ms : List Moment) : Multiset GateCall := Reading.calls.readAll (ms.flatMap Moment.statements)

theorem callsOf_append (ms ns : List Moment) : callsOf (ms ++ ns) = callsOf ms + callsOf ns := by
  simp [callsOf]

theorem callsOf_modify {ms : List Moment} {i : Nat} (hi : i < ms.length) (members : List Statement)
    (usage : Usage) :
    callsOf (ms.modify i (·.join members usage)) = callsOf ms + Reading.calls.readAll members := by
  induction ms generalizing i with
  | nil => simp at hi
  | cons m ms ih =>
    cases i with
    | zero =>
      simp only [callsOf, List.modify_zero_cons, List.flatMap_cons, Moment.join, Reading.readAll_append]
      exact add_right_comm _ _ _
    | succ i =>
      have hrest := ih (Nat.lt_of_succ_lt_succ hi)
      simp only [callsOf, List.modify_succ_cons, List.flatMap_cons, Reading.readAll_append] at hrest ⊢
      rw [hrest, add_assoc]

theorem callsOf_le_modify (ms : List Moment) (i : Nat) (members : List Statement) (usage : Usage) :
    callsOf ms ≤ callsOf (ms.modify i (·.join members usage)) := by
  by_cases hi : i < ms.length
  · rw [callsOf_modify hi]
    exact Multiset.le_add_right _ _
  · rw [List.modify_eq_self (Nat.le_of_not_lt hi)]

/-- The moment numbered `n` holds the barrier `g`, with the given calls before and behind it. -/
structure Fenced (u : Universe) (g : GateCall) (n : Nat) (before behind : Multiset GateCall)
    (t : Timeline) : Prop where
  fence : t.moments[n]? = some ⟨[.gate g], u.full, false⟩
  before : before ≤ callsOf (t.moments.take n)
  behind : behind ≤ callsOf (t.moments.drop (n + 1))

variable {u : Universe} {g : GateCall} {n i : Nat} {before behind : Multiset GateCall} {t : Timeline}
  {members : List Statement} {usage : Usage}

theorem Fenced.mono (h : t.Fenced u g n before behind) {fewer : Multiset GateCall} (hle : fewer ≤ behind) :
    t.Fenced u g n before fewer :=
  ⟨h.fence, h.before, hle.trans h.behind⟩

theorem Fenced.push (h : t.Fenced u g n before behind) (isOpen : Bool) :
    (t.push members usage isOpen).1.Fenced u g n before (behind + Reading.calls.readAll members) := by
  have hn : n < t.moments.length := (List.getElem?_eq_some_iff.1 h.fence).1
  constructor
  · rw [Timeline.push, List.getElem?_append_left hn]
    exact h.fence
  · rw [Timeline.push, List.take_append_of_le_length (Nat.le_of_lt hn)]
    exact h.before
  · rw [Timeline.push, List.drop_append_of_le_length hn, callsOf_append]
    exact add_le_add h.behind (by simp [callsOf])

/-- What joins a moment behind the barrier is added there. -/
theorem Fenced.merge_behind (h : t.Fenced u g n before behind) (hni : n < i) (hi : i < t.moments.length) :
    (t.merge i members usage).1.Fenced u g n before (behind + Reading.calls.readAll members) := by
  constructor
  · rw [Timeline.merge, List.getElem?_modify_ne _ _ (Nat.ne_of_gt hni)]
    exact h.fence
  · rw [Timeline.merge, List.take_modify]
    exact h.before.trans (callsOf_le_modify _ _ _ _)
  · have hlength : i - (n + 1) < (t.moments.drop (n + 1)).length := by
      rw [List.length_drop]
      omega
    simp only [Timeline.merge]
    rw [List.drop_modify_of_ge _ _ _ _ hni, callsOf_modify hlength]
    exact add_le_add h.behind le_rfl

theorem Fenced.merge_before (h : t.Fenced u g n before behind) (hin : i < n) :
    (t.merge i members usage).1.Fenced u g n before behind := by
  constructor
  · rw [Timeline.merge, List.getElem?_modify_ne _ _ (Nat.ne_of_lt hin)]
    exact h.fence
  · rw [Timeline.merge, List.take_modify]
    exact h.before.trans (callsOf_le_modify _ _ _ _)
  · simp only [Timeline.merge]
    rw [List.drop_modify_of_lt _ _ _ _ (Nat.lt_succ_of_lt hin)]
    exact h.behind

/-- In the finished timeline the barrier stands between what is before it and what is behind it. -/
theorem Fenced.exists_statements (h : t.Fenced u g n before behind) :
    ∃ early late, t.statements = early ++ .gate g :: late ∧ before ≤ Reading.calls.readAll early ∧
      behind ≤ Reading.calls.readAll late := by
  have hcalls : ∀ ms : List Moment, Reading.calls.readAll (ms.filterMap Moment.toStatement?) = callsOf ms :=
    fun ms => Reading.readAll_statements Reading.calls ⟨ms, ∅⟩
  obtain ⟨hn, hfence⟩ := List.getElem?_eq_some_iff.1 h.fence
  have hsplit : t.moments = t.moments.take n ++ ⟨[.gate g], u.full, false⟩ :: t.moments.drop (n + 1) := by
    rw [← hfence, ← List.drop_eq_getElem_cons hn, List.take_append_drop]
  refine ⟨(t.moments.take n).filterMap Moment.toStatement?,
    (t.moments.drop (n + 1)).filterMap Moment.toStatement?, ?_, ?_, ?_⟩
  · have hstatements := congrArg (List.filterMap Moment.toStatement?) hsplit
    rw [List.filterMap_append] at hstatements
    exact hstatements
  · rw [hcalls]
    exact h.before
  · rw [hcalls]
    exact h.behind

end Timeline

namespace Schedule

variable {u : Universe} {after last : Option Nat} {t t' : Timeline} {s : Statement} {ss : List Statement}
  {j : Judgement} {g : GateCall} {n : Nat} {before behind : Multiset GateCall}

/-- The calls in the statements that name a qubit. -/
def naming (ss : List Statement) : Multiset GateCall := (Reading.calls.readAll ss).filter (·.namesQubit = true)

theorem naming_cons (s : Statement) (ss : List Statement) : naming (s :: ss) = naming [s] + naming ss := by
  simp [naming, Multiset.filter_add]

theorem naming_le (ss : List Statement) : naming ss ≤ Reading.calls.readAll ss := Multiset.filter_le _ _

/-- Parallelizable gates that do not get past the barrier name no qubit. -/
theorem naming_eq_zero_of_join (hv : t.Valid u) (hf : t.Fenced u g n before behind) {members : List Statement}
    {usage : Usage} {i : Nat} (hg : isParallelGroup .parallel members = true) (hu : u.usageAll members = .ok usage)
    (hi : t.findOpen? usage after = some i) (hin : i < n)
    (hs : ∀ call ∈ Reading.calls.readAll members, u.Anchors call) :
    naming members = 0 := by
  refine Multiset.filter_eq_nil.2 fun call hcall hnames => ?_
  obtain ⟨m, hm, hread⟩ := Reading.mem_calls_readAll_iff.1 hcall
  obtain ⟨call', rfl, hpar⟩ := Statement.gate_of_mem_group hg hm
  rw [Reading.read_gate] at hread
  obtain rfl := Multiset.mem_singleton.1 hread
  obtain ⟨x, hx, htouches⟩ := hs call hcall hpar hnames
  have hused : x ∈ usage := (((Universe.usageAll_eq_ok_iff members).1 hu).mem_iff x).2 ⟨call, hcall, htouches⟩
  have hlt : n < t.earliest usage after := hv.lt_earliest hused ⟨_, hf.fence, hx⟩
  have hle : t.earliest usage after ≤ i := Timeline.earliest_le_of_findOpen? hi
  omega

theorem Enters.fenced (h : Enters u after t s t' last) (hv : t.Valid u)
    (hs : ∀ call ∈ Reading.calls.readAll [s], u.Anchors call) (hf : t.Fenced u g n before behind) :
    t'.Fenced u g n before (behind + naming [s]) := by
  cases h with
  | skip kind => simpa [naming] using hf
  | @join _ members usage i hgroup hne hu hi =>
    have hcalls : Reading.calls.readAll [s] = Reading.calls.readAll members := by
      rw [Reading.readAll_of_group? hgroup, Reading.readAll_cons, Reading.readAll_nil, add_zero]
    have hnaming : naming [s] = naming members := by rw [naming, hcalls, naming]
    rw [hnaming]
    rw [hcalls] at hs
    obtain ⟨pre, m, post, hsplit, hpre, hopen, -⟩ := hv.findOpen?_eq_some hi
    have hm : t.moments[i]? = some m := by rw [hsplit, hpre]; simp
    -- the moment of the barrier is closed
    have hne : i ≠ n := by
      rintro rfl
      rw [hf.fence] at hm
      cases hm
      cases hopen
    by_cases hin : i < n
    · rw [naming_eq_zero_of_join hv hf (Statement.isParallelGroup_of_group? hgroup) hu hi hin hs, add_zero]
      exact hf.merge_before hin
    · have hlength : i < t.moments.length := (List.getElem?_eq_some_iff.1 hm).1
      exact (hf.merge_behind (by omega) hlength).mono (add_le_add le_rfl (naming_le members))
  | start hg hu hi => exact (hf.push true).mono (add_le_add le_rfl (naming_le _))
  | alone hne hu hs => exact (hf.push false).mono (add_le_add le_rfl (naming_le _))

theorem EntersAll.fenced (h : EntersAll u after t ss t' last) (hv : t.Valid u)
    (hs : ∀ call ∈ Reading.calls.readAll ss, u.Anchors call) (hf : t.Fenced u g n before behind) :
    t'.Fenced u g n before (behind + naming ss) := by
  induction h generalizing behind with
  | nil => simpa [naming] using hf
  | cons first others ih =>
    obtain ⟨hfirst, hrest⟩ := Reading.forall_calls_cons_iff.1 hs
    rw [naming_cons, ← add_assoc]
    exact ih (first.valid hv) hrest (first.fenced hv hfirst hf)

/-- Placing statements keeps the barrier where it is and puts those that name a qubit behind it. -/
def Judgement.KeepsFence (u : Universe) (g : GateCall) (n : Nat) (before : Multiset GateCall) : Judgement → Prop
  | .placed s _ t p => ∀ behind, (∀ call ∈ Reading.calls.readAll [s], u.Anchors call) → t.Valid u →
      t.Fenced u g n before behind → p.timeline.Fenced u g n before (behind + naming [s])
  | .placedAll _ ss _ t p => ∀ behind, (∀ call ∈ Reading.calls.readAll ss, u.Anchors call) → t.Valid u →
      t.Fenced u g n before behind → p.timeline.Fenced u g n before (behind + naming ss)
  | _ => True

theorem Derives.keepsFence (h : Derives u j) : j.KeepsFence u g n before := by
  induction h with
  | @chain ss after t p placed ih =>
    intro behind hs hv hf
    have hcalls : Reading.calls.readAll [.block .sequential ss] = Reading.calls.readAll ss := by simp
    rw [naming, hcalls]
    exact ih behind (by rwa [hcalls] at hs) hv hf
  | @again ss out _ _ _ _ _ body enters ih =>
    intro behind hs hv hf
    have hcalls : Reading.calls.readAll [.block .unscheduled ss] = Reading.calls.readAll out := by
      rw [Reading.readAll_cons, Reading.readAll_nil, Reading.read_block, add_zero, body.calls_body]
    rw [naming, hcalls]
    exact enters.fenced hv (by rwa [hcalls] at hs) hf
  | @leaf s s' _ _ _ _ _ hleaf arranged enters ih =>
    intro behind hs hv hf
    have hcalls : Reading.calls.readAll [s] = Reading.calls.readAll [s'] := by
      rw [Reading.readAll_cons, Reading.readAll_cons, arranged.calls_arranged]
    rw [naming, hcalls]
    exact enters.fenced hv (by rwa [hcalls] at hs) hf
  | none =>
    intro behind hs hv hf
    simpa [naming] using hf
  | next first others ihfirst ihothers =>
    intro behind hs hv hf
    obtain ⟨hfirst, hrest⟩ := Reading.forall_calls_cons_iff.1 hs
    rw [naming_cons, ← add_assoc]
    exact ihothers _ hrest (first.keepsValid hv) (ihfirst behind hfirst hv hf)
  | _ => trivial

/-- Placing the statements of a block goes on where placing the first of them stopped. -/
theorem exists_placed_append {ts : List Statement} {p : Placed}
    (h : Derives u (.placedAll false (ss ++ ts) after t p)) :
    ∃ q r, Derives u (.placedAll false ss after t q) ∧ Derives u (.placedAll false ts after q.timeline r) ∧
      p.timeline = r.timeline := by
  induction ss generalizing t p with
  | nil => exact ⟨⟨t, after, 0⟩, p, .none, h, rfl⟩
  | cons s ss ih =>
    cases h with
    | next first others =>
      obtain ⟨q, r, hq, hr, hp⟩ := ih others
      exact ⟨_, r, .next first hq, hr, hp⟩

/-- A barrier takes a moment of its own at the end. -/
theorem isolated_of_isBarrier {p : Placed} (hg : g.isBarrier = true) (h : Derives u (.placed (.gate g) after t p)) :
    p.timeline = (t.isolate (.gate g) u.full).1 := by
  have hgroup : (Statement.gate g).group? = none := by simp [Statement.group?, GateCall.isParallelizable, hg]
  cases h with
  | leaf hleaf arranged enters =>
    cases arranged
    cases enters with
    | join hs hne hu hi => rw [hgroup] at hs; cases hs
    | start hpar hu hi => simp [GateCall.isParallelizable, hg] at hpar
    | alone hne hu hs =>
      have hfull : u.usageAll [.gate g] = .ok u.full := by
        rw [Universe.usageAll_singleton, Universe.usage, Universe.gateUsage, if_pos hg]
      rw [hfull] at hu
      cases hu
      rfl

/-- The moments of a block with a barrier in it split at the barrier. -/
theorem exists_split_at_barrier {pre post out : List Statement} {stats : Stats} (hg : g.isBarrier = true)
    (h : Derives u (.body .unscheduled (pre ++ .gate g :: post) out stats))
    (hpost : ∀ call ∈ Reading.calls.readAll post, u.Anchors call) :
    ∃ early late, out = early ++ .gate g :: late ∧ Reading.calls.readAll pre ≤ Reading.calls.readAll early ∧
      naming post ≤ Reading.calls.readAll late := by
  cases h with
  | @unscheduled _ p placed =>
    obtain ⟨q, r, hpre, hrest, hp⟩ := exists_placed_append placed
    have hvalid : q.timeline.Valid u := hpre.keepsValid Timeline.valid_empty
    have hcalls : Reading.calls.readAll q.timeline.contents = Reading.calls.readAll pre := by
      have hread := (Reading.independent_of_comm Reading.calls u).keeps hpre Timeline.valid_empty
      simpa [Timeline.contents, Timeline.empty] using hread
    cases hrest with
    | @next _ _ _ _ _ b r' barrier others =>
      have hb := isolated_of_isBarrier hg barrier
      have hfence : b.timeline.Fenced u g q.timeline.moments.length (Reading.calls.readAll pre) 0 := by
        rw [hb]
        constructor
        · simp [Timeline.isolate, Timeline.push]
        · simp [Timeline.isolate, Timeline.push, Timeline.callsOf, ← hcalls, Timeline.contents]
        · exact Multiset.zero_le _
      have hfenced := others.keepsFence 0 hpost (barrier.keepsValid hvalid) hfence
      rw [Placed.close, hp]
      rw [zero_add] at hfenced
      exact hfenced.exists_statements

end Schedule

namespace Circuit

open Schedule

variable {c : Circuit} {scope : List String} {g : GateCall} {a : Argument}

/-- The slots of an argument that names a qubit belong to the universe. -/
theorem exists_mem_argumentUsage (hnames : c.registers.OwnNames) (hnative : g.isNative = true)
    (ha : a.FitsQubit c scope g.isNative) {used : Usage}
    (hu : (c.slots.withParameters scope).argumentUsage g a = .ok used) :
    ∃ x ∈ used, x ∈ (c.slots.withParameters scope).full := by
  cases a with
  | number value =>
    rw [hnative] at ha
    cases ha
  | ref name =>
    have hname : name ∈ scope := ha hnative
    simp only [Universe.argumentUsage, hasParameter_slots_withParameters.2 hname, if_true, Except.ok.injEq] at hu
    refine ⟨⟨.parameter name, 0⟩, by simp [← hu], Universe.mem_full_withParameters.2 (Or.inr ⟨name, hname, rfl⟩)⟩
  | qubit q =>
    simp only [Universe.argumentUsage, registers_slots_withParameters] at hu
    split at hu
    · rename_i p hp
      obtain ⟨carried, size, hget, hlt⟩ := Registers.get?_of_resolveWithin hp
      have hfull : (⟨.register p.register, p.index⟩ : Slot) ∈ c.slots.full :=
        Universe.mem_full_ofRegisters.2 ⟨_, hnames.mem_fundamental hget, rfl, hlt⟩
      rw [Except.ok.injEq] at hu
      exact ⟨_, by simp [← hu], Universe.mem_full_withParameters.2 (Or.inl hfull)⟩
    · cases hu

theorem AcceptsCall.anchors (h : c.AcceptsCall scope g) (hnames : c.registers.OwnNames) {used : Usage}
    (hu : (c.slots.withParameters scope).gateUsage g = .ok used) : (c.slots.withParameters scope).Anchors g := by
  intro hpar hqubit
  simp only [GateCall.namesQubit, Bool.and_eq_true, Bool.not_eq_true', List.isEmpty_eq_false_iff] at hqubit
  obtain ⟨hnative, hargs⟩ := hqubit
  have hbarrier : g.isBarrier = false := by
    simp only [GateCall.isParallelizable, Bool.and_eq_true, Bool.not_eq_true'] at hpar
    exact hpar.1
  obtain ⟨a, rest, hcons⟩ := List.exists_cons_of_ne_nil hargs
  have ha : a.FitsQubit c scope g.isNative := h.fitsQubit (by simp [hcons])
  have hsplit := hu
  rw [Universe.gateUsage, if_neg (by simp [hbarrier]), hcons] at hsplit
  simp only [Universe.argumentsUsage, bind_eq_ok_iff, pure_eq_ok_iff] at hsplit
  obtain ⟨first, hfirst, others, -, hunion⟩ := hsplit
  obtain ⟨x, hx, hfull⟩ := exists_mem_argumentUsage hnames hnative ha hfirst
  have hused : x ∈ used := by
    rw [← hunion]
    exact Std.ExtTreeSet.mem_union_iff.2 (Or.inl hx)
  exact ⟨x, hfull, Universe.touches_iff.2 ⟨used, hu, hused⟩⟩

/-- In a validated circuit whose fundamental registers are filed under their own names, an unscheduled block
splits at each barrier among its statements: the calls listed before the barrier lie in earlier moments, and
those listed after it that name a qubit lie in later ones. -/
theorem schedule_splits_at_barrier {c c' : Circuit} {stats : Stats} (hvalid : c.validate = .ok ())
    (hnames : c.registers.OwnNames) (h : c.schedule = .ok (c', stats)) {u : Universe} {b : Block}
    (hb : c.HasBlock u b)
    (hkind : b.kind = .unscheduled) {g : GateCall} (hg : g.isBarrier = true) {pre post : List Statement}
    (hsplit : b.statements = pre ++ .gate g :: post) :
    ∃ early late counts, scheduleBlock u b.statements = .ok (early ++ .gate g :: late, counts) ∧
      Reading.calls.readAll pre ≤ Reading.calls.readAll early ∧ naming post ≤ Reading.calls.readAll late := by
  have hresolves : u.Resolves b.statements := isResolvable_of_schedule h hb hkind
  obtain ⟨scope, rfl, hcheck⟩ := exists_scope_of_hasBlock hvalid hb
  obtain ⟨⟨out, counts⟩, hout⟩ := exists_scheduleBlock hresolves
  have hpost : ∀ call ∈ Reading.calls.readAll post, (c.slots.withParameters scope).Anchors call := by
    intro call hcall
    have hmem : call ∈ Reading.calls.readAll b.statements := by simp [hsplit, hcall]
    obtain ⟨s, hs, hread⟩ := Reading.mem_calls_readAll_iff.1 hmem
    obtain ⟨used, hu⟩ := hresolves call hmem
    exact (acceptsCall_of_checkStatement (checkStatements_eq_ok_iff.1 hcheck s hs) call hread).anchors hnames hu
  have hbody : Derives (c.slots.withParameters scope) (.body .unscheduled (pre ++ .gate g :: post) out counts) :=
    derives_arrangeBody (by rw [← hsplit]; exact hout)
  obtain ⟨early, late, rfl, hearly, hlate⟩ := exists_split_at_barrier hg hbody hpost
  exact ⟨early, late, counts, hout, hearly, hlate⟩

open Sample

/-- A barrier between gates, loops and chains on a register and on a map of it. -/
def barrierSample : Circuit where
  constants := Catalog.empty
  registers := Catalog.ofList [("q", ⟨"q", .fundamental 3⟩), ("m", ⟨"m", .mapped "q" (.indices [2, 0])⟩)]
  macros := Catalog.empty
  nativeGates := GateTable.qscout
  body := .sequential
    [.block .unscheduled
      [px (onQ 0), .loop (.fixed 2) .sequential [px (onQ 1)], .gate prepareAll, px (.qubit ⟨"m", 0⟩),
        .block .sequential [px (onQ 1), px (.qubit ⟨"m", 1⟩)]]]

theorem schedule_splits_at_barrierSample :
    barrierSample.validate = .ok () ∧ barrierSample.registers.OwnNames ∧
      ∃ c' stats, barrierSample.schedule = .ok (c', stats) ∧
        ∃ pre post early late counts,
          barrierSample.body.statements = [.block .unscheduled (pre ++ .gate prepareAll :: post)] ∧
          scheduleBlock barrierSample.slots (pre ++ .gate prepareAll :: post) =
            .ok (early ++ .gate prepareAll :: late, counts) ∧
          Reading.calls.readAll pre ≤ Reading.calls.readAll early ∧ naming post ≤ Reading.calls.readAll late := by
  have hvalid : barrierSample.validate = .ok () := by decide +kernel
  have hnames : barrierSample.registers.OwnNames := by decide
  have hok : barrierSample.schedule.toBool = true := by decide +kernel
  obtain ⟨⟨c', stats⟩, h⟩ := toBool_iff.1 hok
  have hmem : ⟨.unscheduled, _⟩ ∈ barrierSample.body.blocks := List.mem_cons_of_mem _ List.mem_cons_self
  obtain ⟨early, late, counts, hout, hearly, hlate⟩ :=
    schedule_splits_at_barrier hvalid hnames h (.body hmem) rfl (g := prepareAll) rfl
      (show _ = [px (onQ 0), .loop (.fixed 2) .sequential [px (onQ 1)]] ++ _ :: _ from rfl)
  exact ⟨hvalid, hnames, c', stats, h, _, _, early, late, counts, rfl, hout, hearly, hlate⟩

/-- A register filed under another name than its own. -/
def misnamedSample : Circuit where
  constants := Catalog.empty
  registers := Catalog.ofList [("q", ⟨"r", .fundamental 2⟩)]
  macros := Catalog.empty
  nativeGates := GateTable.qscout
  body := .sequential [.block .unscheduled [px (onQ 0), .gate prepareAll, py (onQ 1)]]

/-- A gate passes a barrier whose universe counts the register under another name. -/
theorem schedule_passes_barrier :
    misnamedSample.validate = .ok () ∧
      misnamedSample.schedule = .ok
        ({ misnamedSample with
            body := .sequential [.block .parallel [px (onQ 0), py (onQ 1)], .gate prepareAll] },
          ⟨1, 2, 1, 3⟩) :=
  ⟨by decide +kernel, by with_unfolding_all rfl⟩

end Circuit

end IonSchedule
