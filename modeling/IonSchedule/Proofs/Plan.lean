import IonSchedule.Proofs.Additions
import IonSchedule.Proofs.TimelineInvariant

/-! # Labelled statements

To follow single gates through a schedule, a statement gets a label on each of its calls. The parts of a
sequential block run one after another and those of a parallel block at the same time, so one labelled call runs
before another if the two are in different parts of a sequential block. The same is said of the moments of a
timeline.
-/
namespace IonSchedule

/-- A statement whose gate calls carry labels. -/
inductive Plan (α : Type) where
  | gate (label : α) (call : GateCall)
  | block (kind : BlockKind) (parts : List (Plan α))
  | loop (count : LoopCount) (kind : BlockKind) (body : List (Plan α))

namespace Plan

variable {α : Type}

mutual

/-- The statement without the labels. -/
def erase : Plan α → Statement
  | .gate _ g => .gate g
  | .block kind parts => .block kind (eraseAll parts)
  | .loop count kind body => .loop count kind (eraseAll body)

def eraseAll : List (Plan α) → List Statement
  | [] => []
  | p :: rest => erase p :: eraseAll rest

end

mutual

/-- The labelled calls. -/
def calls : Plan α → Multiset (α × GateCall)
  | .gate a g => {(a, g)}
  | .block _ parts => callsAll parts
  | .loop _ _ body => callsAll body

def callsAll : List (Plan α) → Multiset (α × GateCall)
  | [] => 0
  | p :: rest => calls p + callsAll rest

end

/-- `x` is in an earlier part than `y`. -/
def Splits (x y : α × GateCall) (parts : List (Plan α)) : Prop :=
  ∃ pre post, parts = pre ++ post ∧ x ∈ callsAll pre ∧ y ∈ callsAll post

mutual

/-- `x` runs strictly before `y`: they are in different parts of a sequential block, `x` in the earlier one. -/
def Before (x y : α × GateCall) : Plan α → Prop
  | .gate _ _ => False
  | .block kind parts => kind = .sequential ∧ Splits x y parts ∨ AnyBefore x y parts
  | .loop _ kind body => kind = .sequential ∧ Splits x y body ∨ AnyBefore x y body

def AnyBefore (x y : α × GateCall) : List (Plan α) → Prop
  | [] => False
  | p :: rest => Before x y p ∨ AnyBefore x y rest

end

/-- `x` runs strictly before `y` among the parts of a block of the given kind. -/
def InOrder (x y : α × GateCall) (kind : BlockKind) (parts : List (Plan α)) : Prop :=
  kind = .sequential ∧ Splits x y parts ∨ AnyBefore x y parts

variable {x y : α × GateCall} {kind : BlockKind} {p : Plan α} {ps qs : List (Plan α)} {s : Statement}
  {ss : List Statement}

@[simp] theorem eraseAll_append (ps qs : List (Plan α)) : eraseAll (ps ++ qs) = eraseAll ps ++ eraseAll qs := by
  induction ps with
  | nil => rfl
  | cons p rest ih => simp [eraseAll, ih]

@[simp] theorem callsAll_append (ps qs : List (Plan α)) : callsAll (ps ++ qs) = callsAll ps + callsAll qs := by
  induction ps with
  | nil => simp [callsAll]
  | cons p rest ih => simp [callsAll, ih, add_assoc]

@[simp] theorem callsAll_singleton (p : Plan α) : callsAll [p] = calls p := by simp [callsAll]

@[simp] theorem eraseAll_singleton (p : Plan α) : eraseAll [p] = [erase p] := rfl

theorem mem_callsAll_iff : x ∈ callsAll ps ↔ ∃ p ∈ ps, x ∈ calls p := by
  induction ps with
  | nil => simp [callsAll]
  | cons p rest ih => simp [callsAll, ih]

theorem mem_eraseAll (h : p ∈ ps) : erase p ∈ eraseAll ps := by
  induction ps with
  | nil => cases h
  | cons q rest ih =>
    rcases List.mem_cons.1 h with rfl | h
    · exact List.mem_cons_self
    · exact List.mem_cons_of_mem _ (ih h)

theorem anyBefore_iff : AnyBefore x y ps ↔ ∃ p ∈ ps, Before x y p := by
  induction ps with
  | nil => simp [AnyBefore]
  | cons p rest ih => simp [AnyBefore, ih]

theorem anyBefore_append : AnyBefore x y (ps ++ qs) ↔ AnyBefore x y ps ∨ AnyBefore x y qs := by
  simp only [anyBefore_iff, List.mem_append, or_and_right, exists_or]

theorem anyBefore_singleton : AnyBefore x y [p] ↔ Before x y p := by simp [AnyBefore]

theorem erase_eq_gate {g : GateCall} (h : erase p = .gate g) : ∃ a, p = .gate a g := by
  cases p with
  | gate a call => exact ⟨a, by simpa [erase] using h⟩
  | block kind parts => simp [erase] at h
  | loop count kind body => simp [erase] at h

theorem erase_eq_block (h : erase p = .block kind ss) : ∃ ps, p = .block kind ps ∧ eraseAll ps = ss := by
  cases p with
  | gate a call => simp [erase] at h
  | block k parts =>
    simp only [erase, Statement.block.injEq] at h
    exact ⟨parts, by rw [h.1], h.2⟩
  | loop count kind body => simp [erase] at h

theorem erase_eq_loop {count : LoopCount} (h : erase p = .loop count kind ss) :
    ∃ ps, p = .loop count kind ps ∧ eraseAll ps = ss := by
  cases p with
  | gate a call => simp [erase] at h
  | block k parts => simp [erase] at h
  | loop n k body =>
    simp only [erase, Statement.loop.injEq] at h
    exact ⟨body, by rw [h.1, h.2.1], h.2.2⟩

theorem eraseAll_eq_nil (h : eraseAll ps = []) : ps = [] := by
  cases ps with
  | nil => rfl
  | cons p rest => simp [eraseAll] at h

theorem eraseAll_eq_cons (h : eraseAll ps = s :: ss) :
    ∃ p rest, ps = p :: rest ∧ erase p = s ∧ eraseAll rest = ss := by
  cases ps with
  | nil => simp [eraseAll] at h
  | cons p rest => exact ⟨p, rest, rfl, by simpa [eraseAll] using h⟩

theorem inOrder_append : InOrder x y kind (ps ++ qs) ↔
    InOrder x y kind ps ∨ InOrder x y kind qs ∨ kind = .sequential ∧ x ∈ callsAll ps ∧ y ∈ callsAll qs := by
  constructor
  · rintro (⟨hkind, pre, post, hsplit, hx, hy⟩ | hany)
    · rcases List.append_eq_append_iff.1 hsplit with ⟨mid, rfl, rfl⟩ | ⟨mid, rfl, rfl⟩
      · rw [callsAll_append, Multiset.mem_add] at hx
        rcases hx with hx | hx
        · exact .inr (.inr ⟨hkind, hx, by simp [hy]⟩)
        · exact .inr (.inl (.inl ⟨hkind, mid, post, rfl, hx, hy⟩))
      · rw [callsAll_append, Multiset.mem_add] at hy
        rcases hy with hy | hy
        · exact .inl (.inl ⟨hkind, pre, mid, rfl, hx, hy⟩)
        · exact .inr (.inr ⟨hkind, by simp [hx], hy⟩)
    · rcases anyBefore_append.1 hany with hany | hany
      · exact .inl (.inr hany)
      · exact .inr (.inl (.inr hany))
  · rintro ((⟨hkind, pre, post, rfl, hx, hy⟩ | hany) | (⟨hkind, pre, post, rfl, hx, hy⟩ | hany) | ⟨hkind, hx, hy⟩)
    · exact .inl ⟨hkind, pre, post ++ qs, by simp, hx, by simp [hy]⟩
    · exact .inr (anyBefore_append.2 (.inl hany))
    · exact .inl ⟨hkind, ps ++ pre, post, by simp, by simp [hx], hy⟩
    · exact .inr (anyBefore_append.2 (.inr hany))
    · exact .inl ⟨hkind, ps, qs, rfl, hx, hy⟩

theorem not_inOrder_nil : ¬ InOrder x y kind [] := by
  rintro (⟨-, pre, post, hsplit, hx, -⟩ | hany)
  · rw [(List.append_eq_nil_iff.1 hsplit.symm).1] at hx
    simp [callsAll] at hx
  · exact hany

theorem inOrder_singleton : InOrder x y kind [p] ↔ Before x y p := by
  constructor
  · rintro (⟨-, pre, post, hsplit, hx, hy⟩ | hany)
    · -- one of the two halves is empty
      rcases List.append_eq_singleton_iff.1 hsplit.symm with ⟨rfl, -⟩ | ⟨-, rfl⟩
      · simp [callsAll] at hx
      · simp [callsAll] at hy
    · exact anyBefore_singleton.1 hany
  · exact fun h => .inr (anyBefore_singleton.2 h)

theorem inOrder_cons : InOrder x y kind (p :: ps) ↔
    Before x y p ∨ InOrder x y kind ps ∨ kind = .sequential ∧ x ∈ calls p ∧ y ∈ callsAll ps := by
  rw [← List.singleton_append, inOrder_append, inOrder_singleton, callsAll_singleton]

/-- The gates of one parallel block run at the same time. -/
theorem not_before_of_gates (h : erase p = .block .parallel ss) (hss : ∀ s ∈ ss, ∃ g, s = .gate g) :
    ¬ Before x y p := by
  obtain ⟨ps, rfl, rfl⟩ := erase_eq_block h
  rintro (⟨hkind, -⟩ | hany)
  · cases hkind
  · obtain ⟨q, hq, hbefore⟩ := anyBefore_iff.1 hany
    obtain ⟨g, hg⟩ := hss (erase q) (mem_eraseAll hq)
    obtain ⟨a, rfl⟩ := erase_eq_gate hg
    exact hbefore

/-- Some labelled parts become the given statements in a block of another kind. -/
def Becomes (kind kind' : BlockKind) (ps : List (Plan α)) (out : List Statement) : Prop :=
  ∃ ps', eraseAll ps' = out ∧ callsAll ps' = callsAll ps ∧ ∀ x y, InOrder x y kind ps → InOrder x y kind' ps'

/-- The parts of a block may stand in its place. -/
theorem Becomes.of_block {out : List Statement} (h : Becomes kind .sequential ps out) :
    Becomes .sequential .sequential [.block kind ps] out := by
  obtain ⟨ps', hps', hcalls, horder⟩ := h
  refine ⟨ps', hps', by rw [hcalls, callsAll_singleton, calls], fun x y hxy => horder x y ?_⟩
  exact inOrder_singleton.1 hxy

/-- The labelled statements of a timeline, moment by moment. -/
def Carries (T : List (List (Plan α))) (t : Timeline) : Prop := T.map eraseAll = t.moments.map Moment.statements

theorem Carries.length_eq {T : List (List (Plan α))} {t : Timeline} (h : Carries T t) :
    T.length = t.moments.length := by
  simpa using congrArg List.length h

/-- Labelled statements bear the calls inside them, and any call may share a moment. -/
def load : Load (Plan α) (α × GateCall) where
  marks := callsAll
  marks_append := callsAll_append
  inside := AnyBefore
  inside_append _ _ _ _ := anyBefore_append
  isSolitary _ := False

/-- The labelled parts of a moment as one. -/
def ofMoment? : List (Plan α) → Option (Plan α)
  | [] => none
  | [p] => some p
  | parts => some (.block .parallel parts)

theorem eraseAll_ofMoments {T : List (List (Plan α))} {t : Timeline} (h : Carries T t) :
    eraseAll (T.filterMap ofMoment?) = t.statements := by
  unfold Carries at h
  unfold Timeline.statements
  generalize t.moments = moments at h
  induction T generalizing moments with
  | nil =>
    rw [List.map_nil, eq_comm, List.map_eq_nil_iff] at h
    rw [h]
    rfl
  | cons ps rest ih =>
    rw [List.map_cons, eq_comm, List.map_eq_cons_iff] at h
    obtain ⟨m, moments, rfl, hm, hrest⟩ := h
    replace ih := ih moments hrest.symm
    match ps with
    | [] =>
      rw [List.filterMap_cons_none rfl, ih]
      simp [Moment.toStatement?, hm, eraseAll]
    | [p] => simp [ofMoment?, Moment.toStatement?, hm, eraseAll, ih]
    | p :: q :: ps => simp [ofMoment?, Moment.toStatement?, hm, eraseAll, erase, ih]

theorem callsAll_ofMoments (T : List (List (Plan α))) : callsAll (T.filterMap ofMoment?) = callsAll T.flatten := by
  induction T with
  | nil => rfl
  | cons ps rest ih =>
    match ps with
    | [] => rw [List.filterMap_cons_none rfl, ih, List.flatten_cons, List.nil_append]
    | [p] => simp [ofMoment?, callsAll, ih]
    | p :: q :: ps => simp [ofMoment?, callsAll, calls, ih, add_assoc]

theorem anyBefore_ofMoments {T : List (List (Plan α))} (h : AnyBefore x y T.flatten) :
    AnyBefore x y (T.filterMap ofMoment?) := by
  obtain ⟨p, hp, hbefore⟩ := anyBefore_iff.1 h
  obtain ⟨ps, hps, hp⟩ := List.mem_flatten.1 hp
  match ps with
  | [] => simp at hp
  | [q] =>
    rw [List.mem_singleton] at hp
    subst hp
    exact anyBefore_iff.2 ⟨p, List.mem_filterMap.2 ⟨[p], hps, rfl⟩, hbefore⟩
  | q :: r :: ps =>
    refine anyBefore_iff.2 ⟨_, List.mem_filterMap.2 ⟨_, hps, rfl⟩, .inr ?_⟩
    exact anyBefore_iff.2 ⟨p, hp, hbefore⟩

/-- The moments of a timeline, one after another, keep the order in it. -/
theorem inOrder_ofMoments {T : List (List (Plan α))} (h : load.Earlier T x y) :
    InOrder x y .sequential (T.filterMap ofMoment?) := by
  rcases h with ⟨i, j, hij, hx, hy⟩ | hany
  · have hpre : x ∈ callsAll (T.take j).flatten :=
      Load.mem_marks_flatten_iff.2 ⟨i, by rwa [Load.marksAt, List.getElem?_take_of_lt hij]⟩
    have hpost : y ∈ callsAll (T.drop j).flatten :=
      Load.mem_marks_flatten_iff.2 ⟨0, by rwa [Load.marksAt, List.getElem?_drop, Nat.add_zero]⟩
    refine .inl ⟨rfl, (T.take j).filterMap ofMoment?, (T.drop j).filterMap ofMoment?, ?_, ?_, ?_⟩
    · rw [← List.filterMap_append, List.take_append_drop]
    · rwa [callsAll_ofMoments]
    · rwa [callsAll_ofMoments]
  · exact .inr (anyBefore_ofMoments hany)

end Plan

end IonSchedule
