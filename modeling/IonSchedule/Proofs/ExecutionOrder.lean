import IonSchedule.Proofs.Plan
import IonSchedule.Proofs.Resolution
import IonSchedule.Proofs.ScheduledCircuit

/-! # The order in which gates run

Main statement: every labelling of a block carries over to its schedule, with the same labelled calls, and what
runs before something else still does. A statement that is placed in a timeline lands behind those it is chained
to, and nothing that is placed later moves what is there.
-/
namespace IonSchedule

open Load Plan Timeline

namespace Schedule

variable {α : Type} {u : Universe} {after last : Option Nat} {t t' : Timeline} {s s' : Statement}
  {ss : List Statement} {j : Judgement}

/-- The labelled gates with which a statement joins a moment. -/
theorem exists_plans_of_group? {members : List Statement} (h : s.group? = some members) {p : Plan α}
    (hp : p.erase = s) :
    ∃ ps, eraseAll ps = members ∧ callsAll ps = p.calls ∧ ∀ x y, Before x y p → AnyBefore x y ps := by
  cases s with
  | gate g =>
    simp only [Statement.group?, Option.ite_none_right_eq_some, Option.some.injEq] at h
    obtain ⟨-, rfl⟩ := h
    exact ⟨[p], by rw [eraseAll_singleton, hp], callsAll_singleton p, fun x y => anyBefore_singleton.2⟩
  | block kind ss =>
    simp only [Statement.group?, Option.ite_none_right_eq_some, Option.some.injEq, isParallelGroup,
      Bool.and_eq_true, decide_eq_true_eq] at h
    obtain ⟨⟨rfl, -⟩, rfl⟩ := h
    obtain ⟨ps, rfl, hps⟩ := erase_eq_block hp
    refine ⟨ps, hps, rfl, ?_⟩
    rintro x y (⟨hkind, -⟩ | hany)
    · simp at hkind
    · exact hany
  | loop count kind body => simp [Statement.group?] at h

theorem exists_push {T : List (List (Plan α))} (hT : Carries T t) {p : Plan α} (hp : p.erase = s) {start : Nat}
    (hstart : start ≤ T.length) (usage : Usage) (isOpen : Bool) :
    ∃ T', Carries T' (t.push [s] usage isOpen).1 ∧
      load.Lands T start T' (t.moments.length + 1) true p.calls (Before · · p) := by
  have hlands : load.Lands T start (T ++ [[p]]) (T.length + 1) true (callsAll [p]) (AnyBefore · · [p]) :=
    Lands.push hstart [p]
  rw [callsAll_singleton, hT.length_eq] at hlands
  refine ⟨T ++ [[p]], ?_, hlands.imp fun x y => anyBefore_singleton.2⟩
  unfold Carries at hT ⊢
  simp [Timeline.push, hT, hp]

theorem exists_merge {T : List (List (Plan α))} (hT : Carries T t) {ps : List (Plan α)} {members : List Statement}
    (hps : eraseAll ps = members) {usage : Usage} {i start : Nat} (hi : t.findOpen? usage after = some i)
    (hstart : start ≤ i) :
    ∃ T', Carries T' (t.merge i members usage).1 ∧
      load.Lands T start T' (i + 1) true (callsAll ps) (AnyBefore · · ps) := by
  obtain ⟨pre, m, post, hsplit, rfl, -⟩ := exists_split_of_findOpen? hi
  unfold Carries at hT
  rw [hsplit, List.map_append, List.map_cons, List.map_eq_append_iff] at hT
  obtain ⟨before, rest, rfl, hbefore, hrest⟩ := hT
  obtain ⟨qs, behind, rfl, hqs, hbehind⟩ := List.map_eq_cons_iff.1 hrest
  have hlength : before.length = pre.length := by simpa using congrArg List.length hbefore
  have hlands := Lands.merge (L := load) (hlength ▸ hstart) behind qs ps fun _ _ => id
  refine ⟨before ++ (qs ++ ps) :: behind, ?_, hlength ▸ hlands⟩
  unfold Carries
  rw [merge_moments hsplit]
  simp [hbefore, hqs, hbehind, hps, Moment.join]

/-- A leaf lands in a moment of its own or in an open one after `after`. -/
theorem Enters.lands (h : Enters u after t s t' last) {p : Plan α} (hp : p.erase = s) {T : List (List (Plan α))}
    (hT : Carries T t) (hafter : firstAfter after ≤ T.length) :
    ∃ T', Carries T' t' ∧
      load.Lands T (firstAfter after) T' (firstAfter last) true p.calls (Before · · p) := by
  cases h with
  | skip kind =>
    obtain ⟨ps, rfl, hps⟩ := erase_eq_block hp
    obtain rfl := eraseAll_eq_nil hps
    exact ⟨T, hT, (Lands.refl hafter).imp fun x y => not_inOrder_nil⟩
  | @join s members usage i hs hne hu hi =>
    obtain ⟨ps, hps, hcalls, hbefore⟩ := exists_plans_of_group? hs hp
    have hstart : firstAfter after ≤ i := (firstAfter_le_earliest t usage after).trans (earliest_le_of_findOpen? hi)
    obtain ⟨T', hT', hlands⟩ := exists_merge hT hps hi hstart
    exact ⟨T', hT', hcalls ▸ hlands.imp hbefore⟩
  | start hg hu hi => exact exists_push hT hp hafter _ _
  | alone hne hu hs => exact exists_push hT hp hafter _ _

theorem EntersAll.lands (h : EntersAll u after t ss t' last) {ps : List (Plan α)} (hps : eraseAll ps = ss)
    {T : List (List (Plan α))} (hT : Carries T t) (hafter : firstAfter after ≤ T.length) :
    ∃ T', Carries T' t' ∧
      load.Lands T (firstAfter after) T' (firstAfter last) true (callsAll ps) (InOrder · · .sequential ps) := by
  induction h generalizing ps T with
  | nil =>
    obtain rfl := eraseAll_eq_nil hps
    exact ⟨T, hT, (Lands.refl hafter).imp fun x y => not_inOrder_nil⟩
  | cons first others ih =>
    obtain ⟨p, rest, rfl, hp, hrest⟩ := eraseAll_eq_cons hps
    obtain ⟨T₁, hT₁, hfirst⟩ := first.lands hp hT hafter
    obtain ⟨T₂, hT₂, hothers⟩ := ih hrest hT₁ hfirst.within
    refine ⟨T₂, hT₂, (hfirst.trans true hothers).imp fun x y hxy => ?_⟩
    exact (inOrder_cons.1 hxy).imp_right (Or.imp_right fun h => ⟨h.2.1, h.2.2, .inl rfl⟩)

/-- The statements placed one after another run in order, the others only as each of them says. -/
def placedKind (chained : Bool) : BlockKind := if chained then .sequential else .unscheduled

/-- A labelling of what goes in carries over to what comes out. -/
def Judgement.Carries (α : Type) : Judgement → Prop
  | .arranged s s' _ => ∀ p : Plan α, p.erase = s →
      ∃ p' : Plan α, p'.erase = s' ∧ p'.calls = p.calls ∧ ∀ x y, Before x y p → Before x y p'
  | .members ss out _ => ∀ ps : List (Plan α), eraseAll ps = ss → Becomes .parallel .parallel ps out
  | .sequence _ ss out _ => ∀ ps : List (Plan α), eraseAll ps = ss → Becomes .sequential .sequential ps out
  | .piece _ s out _ => ∀ p : Plan α, p.erase = s → Becomes .sequential .sequential [p] out
  | .body kind ss out _ => ∀ ps : List (Plan α), eraseAll ps = ss → Becomes kind kind.scheduled ps out
  | .placed s after t q => ∀ (p : Plan α) (T : List (List (Plan α))), p.erase = s → Plan.Carries T t →
      firstAfter after ≤ T.length → ∃ T', Plan.Carries T' q.timeline ∧
        load.Lands T (firstAfter after) T' (firstAfter q.last) true p.calls (Before · · p)
  | .placedAll chained ss after t q => ∀ (ps : List (Plan α)) (T : List (List (Plan α))), eraseAll ps = ss →
      Plan.Carries T t → firstAfter after ≤ T.length → ∃ T', Plan.Carries T' q.timeline ∧
        load.Lands T (firstAfter after) T' (firstAfter q.last) chained (callsAll ps)
          (InOrder · · (placedKind chained) ps)

/-- By induction on the derivation, one case for each rule. -/
theorem Derives.carries (h : Derives u j) : j.Carries α := by
  induction h with
  | gate => exact fun p hp => ⟨p, hp, rfl, fun x y hxy => hxy⟩
  | block body ih =>
    intro p hp
    obtain ⟨ps, rfl, hps⟩ := erase_eq_block hp
    obtain ⟨ps', hps', hcalls, horder⟩ := ih ps hps
    exact ⟨.block _ ps', by rw [erase, hps'], hcalls, horder⟩
  | loop body ih =>
    intro p hp
    obtain ⟨ps, rfl, hps⟩ := erase_eq_loop hp
    obtain ⟨ps', hps', hcalls, horder⟩ := ih ps hps
    exact ⟨.loop _ _ ps', by rw [erase, hps'], hcalls, horder⟩
  | noMember =>
    intro ps hps
    obtain rfl := eraseAll_eq_nil hps
    exact ⟨[], rfl, rfl, fun x y hxy => hxy⟩
  | member first others ihFirst ihOthers =>
    intro ps hps
    obtain ⟨p, rest, rfl, hp, hrest⟩ := eraseAll_eq_cons hps
    obtain ⟨p', hp', hcalls, hbefore⟩ := ihFirst p hp
    obtain ⟨rest', hrest', hcalls', horder⟩ := ihOthers rest hrest
    refine ⟨p' :: rest', by rw [eraseAll, hp', hrest'], by rw [callsAll, callsAll, hcalls, hcalls'],
      fun x y hxy => ?_⟩
    rw [inOrder_cons, hcalls, hcalls']
    exact (inOrder_cons.1 hxy).imp (hbefore x y) (Or.imp_left (horder x y))
  | noPiece =>
    intro ps hps
    obtain rfl := eraseAll_eq_nil hps
    exact ⟨[], rfl, rfl, fun x y hxy => hxy⟩
  | pieces head tail ihHead ihTail =>
    intro ps hps
    obtain ⟨p, rest, rfl, hp, hrest⟩ := eraseAll_eq_cons hps
    obtain ⟨first, hfirst, hcalls, horder⟩ := ihHead p hp
    obtain ⟨others, hothers, hcalls', horder'⟩ := ihTail rest hrest
    rw [callsAll_singleton] at hcalls
    refine ⟨first ++ others, by rw [eraseAll_append, hfirst, hothers], ?_, fun x y hxy => ?_⟩
    · rw [callsAll_append, hcalls, hcalls', callsAll]
    · rw [inOrder_append, hcalls, hcalls']
      exact (inOrder_cons.1 hxy).imp (fun h => horder x y (inOrder_singleton.2 h)) (Or.imp_left (horder' x y))
  | moments body ih =>
    intro p hp
    obtain ⟨ps, rfl, hps⟩ := erase_eq_block hp
    exact (ih ps hps).of_block
  | spliced body ih =>
    intro p hp
    obtain ⟨ps, rfl, hps⟩ := erase_eq_block hp
    exact (ih ps hps).of_block
  | nested body ih =>
    intro p hp
    obtain ⟨ps, rfl, hps⟩ := erase_eq_block hp
    obtain ⟨ps', hps', hcalls, horder⟩ := ih ps hps
    refine ⟨[.block .sequential ps'], by rw [eraseAll_singleton, erase, hps'], ?_, fun x y hxy => ?_⟩
    · rw [callsAll_singleton, callsAll_singleton, calls, calls, hcalls]
    · exact inOrder_singleton.2 (horder x y (inOrder_singleton.1 hxy))
  | kept leaf arranged ih =>
    intro p hp
    obtain ⟨p', hp', hcalls, hbefore⟩ := ih p hp
    refine ⟨[p'], by rw [eraseAll_singleton, hp'], by rw [callsAll_singleton, callsAll_singleton, hcalls],
      fun x y hxy => ?_⟩
    exact inOrder_singleton.2 (hbefore x y (inOrder_singleton.1 hxy))
  | sequential sequence ih => exact ih
  | parallel members ih => exact ih
  | unscheduled placed ih =>
    intro ps hps
    -- the timeline starts empty, so all that is in it was placed
    obtain ⟨T, hT, hlands⟩ := ih ps [] hps rfl (Nat.le_refl 0)
    refine ⟨T.filterMap ofMoment?, eraseAll_ofMoments hT, ?_,
      fun x y hxy => inOrder_ofMoments (hlands.orders x y hxy)⟩
    rw [callsAll_ofMoments]
    exact hlands.marks.trans (zero_add _)
  | chain placed ih =>
    intro p T hp hT hafter
    obtain ⟨ps, rfl, hps⟩ := erase_eq_block hp
    exact ih ps T hps hT hafter
  | again body enters ih =>
    intro p T hp hT hafter
    obtain ⟨ps, rfl, hps⟩ := erase_eq_block hp
    obtain ⟨ps', hps', hcalls, horder⟩ := ih ps hps
    obtain ⟨T', hT', hlands⟩ := enters.lands hps' hT hafter
    rw [hcalls] at hlands
    exact ⟨T', hT', hlands.imp horder⟩
  | leaf leaf arranged enters ih =>
    intro p T hp hT hafter
    obtain ⟨p', hp', hcalls, hbefore⟩ := ih p hp
    obtain ⟨T', hT', hlands⟩ := enters.lands hp' hT hafter
    rw [hcalls] at hlands
    exact ⟨T', hT', hlands.imp hbefore⟩
  | none =>
    intro ps T hps hT hafter
    obtain rfl := eraseAll_eq_nil hps
    exact ⟨T, hT, (Lands.refl hafter).imp fun x y => not_inOrder_nil⟩
  | @next chained s ss after t q r first others ihFirst ihOthers =>
    intro ps T hps hT hafter
    obtain ⟨p, rest, rfl, hp, hrest⟩ := eraseAll_eq_cons hps
    obtain ⟨T₁, hT₁, hfirst⟩ := ihFirst p T hp hT hafter
    -- when chained, the others go behind the moment in which the first one landed
    have hstart : firstAfter (if chained then q.last else after) ≤ T₁.length := by
      cases chained with
      | true => exact hfirst.within
      | false => exact hafter.trans hfirst.grows
    obtain ⟨T₂, hT₂, hothers⟩ := ihOthers rest T₁ hrest hT₁ hstart
    rw [apply_ite firstAfter] at hothers
    refine ⟨T₂, hT₂, (hfirst.trans chained hothers).imp fun x y hxy => ?_⟩
    have hkind : placedKind chained = .sequential → chained = true := by cases chained <;> simp [placedKind]
    exact (inOrder_cons.1 hxy).imp_right (Or.imp_right fun h => ⟨h.2.1, h.2.2, .inl (hkind h.1)⟩)

/-- Every labelling of a block carries over to its schedule. -/
theorem ArrangesBlock.becomes {topLevel : Bool} {b b' : Block} (h : ArrangesBlock u topLevel b b')
    {ps : List (Plan α)} (hps : eraseAll ps = b.statements) : Becomes b.kind b'.kind ps b'.statements := by
  cases h with
  | body statements => exact statements.carries ps hps
  | top statements => exact statements.carries ps hps
  | topMoments statements => exact statements.carries ps hps

end Schedule

/-- The body of the circuit or of one of its macros. -/
def Circuit.bodyAt? (c : Circuit) : Location → Option Block
  | .body => some c.body
  | .macroBody name => (c.macros.get? name).map Macro.body

/-- Every labelling of a body carries over to the schedule. -/
theorem Circuit.exists_becomes_of_schedule {α : Type} {c c' : Circuit} {stats : Stats}
    (h : c.schedule = .ok (c', stats)) {location : Location} {root : Block} (hroot : c.bodyAt? location = some root)
    {ps : List (Plan α)} (hps : eraseAll ps = root.statements) :
    ∃ root', c'.bodyAt? location = some root' ∧ Becomes root.kind root'.kind ps root'.statements := by
  have ha := Circuit.arranges_of_schedule h
  cases location with
  | body =>
    rw [bodyAt?, Option.some.injEq] at hroot
    subst hroot
    exact ⟨c'.body, rfl, ha.body.becomes hps⟩
  | macroBody name =>
    obtain ⟨m, hm, rfl⟩ := Option.map_eq_some_iff.1 hroot
    obtain ⟨⟨name', m'⟩, hm', rfl, -, -, hbody⟩ :=
      exists_left_of_forall₂ ha.macros.flip (Table.get?_eq_some_iff.1 hm)
    exact ⟨m'.body, by rw [bodyAt?, Table.get?_eq_some_iff.2 hm', Option.map_some], hbody.becomes hps⟩

end IonSchedule
