import Mathlib.Data.List.Forall2
import IonSchedule.Proofs.Additions
import IonSchedule.Proofs.Blocks
import IonSchedule.Proofs.Leaves

/-! # Authored grouping

What an unscheduled block says about the grouping of its leaves holds in its schedule. Main statement: the
moments of the schedule are made of groups of leaves such that a leaf that is a parallel block stays in one
moment, leaves under different parts of a sequential block are in different moments in the order of the parts,
and a leaf that is not parallelizable is alone in a moment behind all leaves listed before it.

A timeline is followed as the list of its groups. Each leaf that enters either joins a group or becomes the last
one, and groups of a nested unscheduled block enter as a whole and in order, so no leaf is moved again and no
group is split.
-/
namespace IonSchedule

/-- A leaf with its address and with what it is rewritten to. -/
structure Placement (u : Universe) where
  address : Address
  leaf : Statement
  form : Statement
  isLeaf : leaf.isLeaf = true
  nonempty : leaf ≠ .block .parallel []
  arranged : ∃ stats, Schedule.arrange u leaf = .ok (form, stats)

namespace Schedule

variable {u : Universe} {s s' : Statement} {ss out : List Statement} {stats : Stats}

theorem gate?_arrange (h : arrange u s = .ok (s', stats)) : s'.gate? = s.gate? := by
  cases s with
  | gate g =>
    simp only [arrange, pure_eq_ok_iff, Prod.mk.injEq] at h
    rw [← h.1]
  | block kind ss =>
    simp only [arrange_block, bind_eq_ok_iff, pure_eq_ok_iff, Prod.mk.injEq] at h
    obtain ⟨out, -, rfl, -⟩ := h
    rfl
  | loop count kind body =>
    simp only [arrange_loop, bind_eq_ok_iff, pure_eq_ok_iff, Prod.mk.injEq] at h
    obtain ⟨out, -, rfl, -⟩ := h
    rfl

theorem map_gate?_arrangeEach (h : arrangeEach u ss = .ok (out, stats)) :
    out.map Statement.gate? = ss.map Statement.gate? := by
  induction ss generalizing out stats with
  | nil =>
    simp only [arrangeEach, pure_eq_ok_iff, Prod.mk.injEq] at h
    rw [← h.1]
  | cons s rest ih =>
    simp only [arrangeEach, bind_eq_ok_iff, pure_eq_ok_iff, Prod.mk.injEq] at h
    obtain ⟨⟨s', stats⟩, hs', ⟨others, more⟩, hothers, rfl, -⟩ := h
    rw [List.map_cons, List.map_cons, gate?_arrange hs', ih hothers]

end Schedule

namespace Placement

open Schedule Statement

variable {u : Universe} {e e' : Placement u}

/-- The leaf as its block lists it. -/
def key (e : Placement u) : Address × Statement := (e.address, e.leaf)

/-- A gate is kept, a parallel block has its members rewritten, and a loop stays a loop. -/
theorem form_cases (e : Placement u) :
    (∃ g, e.leaf = .gate g ∧ e.form = .gate g) ∨
    (∃ members out stats, e.leaf = .block .parallel members ∧ arrangeEach u members = .ok (out, stats) ∧
      e.form = .block .parallel out) ∨
    ∃ count kind body kind' out, e.leaf = .loop count kind body ∧ e.form = .loop count kind' out := by
  obtain ⟨stats, hform⟩ := e.arranged
  cases hleaf : e.leaf with
  | gate g =>
    simp only [hleaf, arrange, pure_eq_ok_iff, Prod.mk.injEq] at hform
    exact .inl ⟨g, rfl, hform.1.symm⟩
  | block kind members =>
    obtain rfl : kind = .parallel := by simpa [hleaf, Statement.isLeaf] using e.isLeaf
    simp only [hleaf, arrange_block, bind_eq_ok_iff, pure_eq_ok_iff, Prod.mk.injEq] at hform
    obtain ⟨⟨out, stats⟩, hout, hform, -⟩ := hform
    exact .inr (.inl ⟨members, out, stats, rfl, hout, hform.symm⟩)
  | loop count kind body =>
    simp only [hleaf, arrange_loop, bind_eq_ok_iff, pure_eq_ok_iff, Prod.mk.injEq] at hform
    obtain ⟨out, -, hform, -⟩ := hform
    exact .inr (.inr ⟨count, kind, body, _, _, rfl, hform.symm⟩)

theorem exists_form_of_parallel {members : List Statement} (h : e.leaf = .block .parallel members) :
    ∃ out stats, arrangeEach u members = .ok (out, stats) ∧ e.form = .block .parallel out := by
  rcases e.form_cases with ⟨g, hleaf, -⟩ | ⟨ms, out, stats, hleaf, hout, hform⟩ |
    ⟨count, kind, body, _, _, hleaf, -⟩
  · cases h.symm.trans hleaf
  · cases h.symm.trans hleaf
    exact ⟨out, stats, hout, hform⟩
  · cases h.symm.trans hleaf

theorem isParallelizable_form (e : Placement u) : e.form.isParallelizable = e.leaf.isParallelizable := by
  rcases e.form_cases with ⟨g, hleaf, hform⟩ | ⟨members, out, stats, hleaf, hout, hform⟩ |
    ⟨count, kind, body, _, _, hleaf, hform⟩
  · rw [hleaf, hform]
  · have hgates : ∀ ss : List Statement, (ss.all fun s => s.gate?.any GateCall.isParallelizable) =
        (ss.map gate?).all fun g => g.any GateCall.isParallelizable := by simp [Function.comp_def]
    rw [hleaf, hform, Statement.isParallelizable, Statement.isParallelizable, isParallelGroup, isParallelGroup,
      hgates, hgates, map_gate?_arrangeEach hout]
  · rw [hleaf, hform]
    rfl

theorem pieces_form_ne_nil (e : Placement u) : e.form.pieces ≠ [] := by
  rcases e.form_cases with ⟨g, -, hform⟩ | ⟨members, out, stats, hleaf, hout, hform⟩ |
    ⟨count, kind, body, _, _, -, hform⟩
  · rw [hform]
    exact List.cons_ne_nil _ _
  · have hlength := congrArg List.length (map_gate?_arrangeEach hout)
    have hmembers : members ≠ [] := by
      rintro rfl
      exact e.nonempty hleaf
    rw [hform, pieces]
    rintro rfl
    simp [eq_comm, hmembers] at hlength
  · rw [hform]
    exact List.cons_ne_nil _ _

/-- The statement that a group of leaves is in a schedule. -/
def gather? (group : List (Placement u)) : Option Statement := together? (group.map form)

/-- A leaf that is not parallelizable makes up its group alone. -/
def Solitary (group : List (Placement u)) : Prop := ∀ e ∈ group, e.leaf.isParallelizable = false → group = [e]

theorem ne_of_gather? {group : List (Placement u)} {s : Statement} (h : gather? group = some s) (kind : BlockKind) :
    s ≠ .block kind [] := by
  rintro rfl
  have hpieces := flatMap_pieces_of_together? h
  rw [pieces, List.flatMap_eq_nil_iff] at hpieces
  match group with
  | [] => cases h
  | e :: rest => exact e.pieces_form_ne_nil (hpieces _ List.mem_cons_self)

/-- If a group may join a moment, each of its leaves may. -/
theorem Solitary.isParallelizable {group : List (Placement u)} (hgroup : Solitary group) {s : Statement}
    (h : gather? group = some s) (hs : s.isParallelizable = true) :
    ∀ e ∈ group, e.leaf.isParallelizable = true := by
  intro e he
  by_contra hne
  rw [Bool.not_eq_true] at hne
  rw [hgroup e he hne] at h
  cases h
  rw [isParallelizable_form, hne] at hs
  cases hs

end Placement

open Placement in
/-- A moment is made of a group of leaves. A closed one holds the group as one statement; an open one was
started by a gate and holds the pieces of parallelizable leaves. -/
inductive Moment.Gathers {u : Universe} : Moment → List (Placement u) → Prop
  | closed {group : List (Placement u)} {s : Statement} {usage : Usage} (hs : gather? group = some s)
      (hgroup : Solitary group) : Gathers ⟨[s], usage, false⟩ group
  | opened {e : Placement u} {group : List (Placement u)} {g : GateCall} {usage : Usage} (hg : e.form = .gate g)
      (hgroup : ∀ e' ∈ e :: group, e'.leaf.isParallelizable = true) :
      Gathers ⟨((e :: group).map Placement.form).flatMap Statement.pieces, usage, true⟩ (e :: group)

namespace Moment.Gathers

open Placement

variable {u : Universe} {m : Moment} {group : List (Placement u)}

theorem solitary (h : m.Gathers group) : Solitary group := by
  cases h with
  | closed hs hgroup => exact hgroup
  | opened hg hgroup =>
    intro e he hne
    rw [hgroup e he] at hne
    cases hne

theorem toStatement?_eq (h : m.Gathers group) : m.toStatement? = gather? group := by
  cases h with
  | closed hs hgroup => exact hs.symm
  | @opened e group g usage hg hgroup =>
    cases group with
    | nil => simp [toStatement?, gather?, Statement.together?, hg, Statement.pieces]
    | cons e' rest =>
      -- the first two leaves leave at least two pieces
      obtain ⟨piece, others, hpieces⟩ := List.exists_cons_of_ne_nil e'.pieces_form_ne_nil
      have hgate : (Statement.gate g).pieces = [.gate g] := rfl
      simp [toStatement?, gather?, Statement.together?, hg, hgate, hpieces]

theorem exists_gather? (h : m.Gathers group) : ∃ s, gather? group = some s := by
  cases h with
  | closed hs hgroup => exact ⟨_, hs⟩
  | @opened e group g usage hg hgroup =>
    cases group with
    | nil => exact ⟨_, rfl⟩
    | cons e' rest => exact ⟨_, rfl⟩

theorem join (h : m.Gathers group) (hopen : m.isOpen = true) {more : List (Placement u)}
    (hmore : ∀ e ∈ more, e.leaf.isParallelizable = true) (usage : Usage) :
    (m.join ((more.map Placement.form).flatMap Statement.pieces) usage).Gathers (group ++ more) := by
  cases h with
  | closed hs hgroup => cases hopen
  | @opened e group g used hg hgroup =>
    have hall : ∀ e' ∈ e :: (group ++ more), e'.leaf.isParallelizable = true := by
      intro e' he'
      rw [← List.cons_append, List.mem_append] at he'
      exact he'.elim (hgroup e') (hmore e')
    have hjoined : Moment.Gathers ⟨_, used ∪ usage, true⟩ (e :: (group ++ more)) := .opened hg hall
    rw [← List.cons_append, List.map_append, List.flatMap_append] at hjoined
    exact hjoined

end Moment.Gathers

namespace Placement

open Statement

variable {u : Universe}

/-- The groups of a timeline, moment by moment. -/
def Carries (T : List (List (Placement u))) (t : Timeline) : Prop := List.Forall₂ Moment.Gathers t.moments T

def groupAt (T : List (List (Placement u))) (i : Nat) : List (Placement u) := T[i]?.getD []

/-- Leaves bear themselves, and one that is not parallelizable never joins others. -/
def load : Load (Placement u) (Placement u) where
  marks group := (group : Multiset (Placement u))
  marks_append group more := (Multiset.coe_add group more).symm
  inside _ _ _ := False
  inside_append _ _ _ _ := or_self_iff.symm
  isSolitary e := e.leaf.isParallelizable = false

variable {T : List (List (Placement u))} {e e' : Placement u} {i : Nat}

theorem mem_flatten_iff : e ∈ T.flatten ↔ ∃ i, e ∈ groupAt T i := Load.mem_marks_flatten_iff (L := load)

theorem earlier_iff : load.Earlier T e e' ↔ ∃ i j, i < j ∧ e ∈ groupAt T i ∧ e' ∈ groupAt T j :=
  Iff.of_eq (or_false _)

/-- A leaf is in one group only. -/
theorem eq_of_mem_groupAt (hT : T.flatten.Nodup) {j : Nat} (hi : e ∈ groupAt T i) (hj : e ∈ groupAt T j) :
    i = j := by
  induction T generalizing i j with
  | nil => simp [groupAt] at hi
  | cons group T ih =>
    rw [List.flatten_cons, List.nodup_append] at hT
    have hdisjoint : ∀ k, e ∈ group → e ∉ groupAt T k :=
      fun k he he' => hT.2.2 e he e (mem_flatten_iff.2 ⟨k, he'⟩) rfl
    cases i with
    | zero =>
      cases j with
      | zero => rfl
      | succ j => exact absurd (by simpa [groupAt] using hj) (hdisjoint j (by simpa [groupAt] using hi))
    | succ i =>
      cases j with
      | zero => exact absurd (by simpa [groupAt] using hi) (hdisjoint i (by simpa [groupAt] using hj))
      | succ j =>
        have hij : i = j := ih hT.2.1 (by simpa [groupAt] using hi) (by simpa [groupAt] using hj)
        rw [hij]

end Placement

namespace Schedule

open Load Placement Timeline

variable {u : Universe} {after last : Option Nat} {t t' : Timeline} {s : Statement} {ss out : List Statement}
  {T : List (List (Placement u))}

theorem exists_split_of_carries {pre post : List Moment} {m : Moment}
    (h : List.Forall₂ Moment.Gathers (pre ++ m :: post) T) :
    ∃ before group behind, T = before ++ group :: behind ∧ List.Forall₂ Moment.Gathers pre before ∧
      m.Gathers group ∧ List.Forall₂ Moment.Gathers post behind := by
  induction pre generalizing T with
  | nil =>
    obtain ⟨group, behind, hm, hpost, rfl⟩ := List.forall₂_cons_left_iff.1 h
    exact ⟨[], group, behind, rfl, .nil, hm, hpost⟩
  | cons n pre ih =>
    obtain ⟨first, rest, hn, hrest, rfl⟩ := List.forall₂_cons_left_iff.1 h
    obtain ⟨before, group, behind, rfl, hbefore, hm, hpost⟩ := ih hrest
    exact ⟨first :: before, group, behind, rfl, .cons hn hbefore, hm, hpost⟩

/-- A group enters as one statement: it joins a group or becomes the last one. -/
theorem Enters.lands_group (h : Enters u after t s t' last) {group : List (Placement u)}
    (hs : gather? group = some s)
    (hgroup : Solitary group) (hT : Carries T t) (hafter : firstAfter after ≤ T.length) :
    ∃ T', Carries T' t' ∧ load.Lands T (firstAfter after) T' (firstAfter last) true group (fun _ _ => False) := by
  have hlength : t.moments.length = T.length := hT.length_eq
  have hpush : ∀ m : Moment, m.Gathers group →
      Carries (T ++ [group]) ⟨t.moments ++ [m], t.noteUse m.usage t.moments.length⟩ :=
    fun m hm => List.rel_append hT (.cons hm .nil)
  have hlands : load.Lands T (firstAfter after) (T ++ [group]) (firstAfter (some t.moments.length)) true group
      fun _ _ => False :=
    hlength ▸ Lands.push hafter group
  cases h with
  | skip kind => exact absurd rfl (ne_of_gather? hs kind)
  | @join _ members usage i hmembers hne hu hi =>
    have hparallelizable : s.isParallelizable = true := by
      by_contra hnot
      rw [Bool.not_eq_true, ← Statement.group?_eq_none_iff, hmembers] at hnot
      cases hnot
    have hall := hgroup.isParallelizable hs hparallelizable
    have hpieces : (group.map Placement.form).flatMap Statement.pieces = members := by
      rw [Statement.flatMap_pieces_of_together? hs, Statement.pieces_of_group? hmembers]
    have hstart : firstAfter after ≤ i := (firstAfter_le_earliest t usage after).trans (earliest_le_of_findOpen? hi)
    obtain ⟨pre, m, post, hsplit, rfl, hm⟩ := exists_split_of_findOpen? hi
    simp only [Moment.accepts, Bool.and_eq_true] at hm
    unfold Carries at hT
    rw [hsplit] at hT
    obtain ⟨before, old, behind, rfl, hbefore, hold, hbehind⟩ := exists_split_of_carries hT
    have hat : pre.length = before.length := hbefore.length_eq
    refine ⟨before ++ (old ++ group) :: behind, ?_, ?_⟩
    · unfold Carries
      rw [merge_moments hsplit, ← hpieces]
      exact List.rel_append hbefore (.cons (hold.join hm.1 hall usage) hbehind)
    · rw [hat] at hstart ⊢
      refine Lands.merge hstart behind old group fun e he hsolitary => ?_
      cases (hall e he).symm.trans hsolitary
  | @start g usage hg hu hi =>
    -- only a single gate is a gate in a schedule
    have hforms : group.map Placement.form = [.gate g] := Statement.eq_singleton_of_together?_gate hs
    obtain ⟨e, rfl, hgate⟩ := List.map_eq_singleton_iff.1 hforms
    have hm : Moment.Gathers ⟨([e].map Placement.form).flatMap Statement.pieces, usage, true⟩ [e] :=
      .opened hgate (hgroup.isParallelizable hs hg)
    rw [hforms] at hm
    exact ⟨T ++ [[e]], hpush _ hm, hlands⟩
  | @alone _ usage hne hu hgroup? => exact ⟨T ++ [group], hpush ⟨[s], usage, false⟩ (.closed hs hgroup), hlands⟩

theorem earlier_cons_iff {group : List (Placement u)} {e e' : Placement u} :
    load.Earlier (group :: T) e e' ↔ e ∈ group ∧ e' ∈ T.flatten ∨ load.Earlier T e e' := by
  rw [earlier_iff, earlier_iff]
  constructor
  · rintro ⟨i, j, hij, he, he'⟩
    obtain ⟨j, rfl⟩ : ∃ k, j = k + 1 := ⟨j - 1, by omega⟩
    cases i with
    | zero => exact .inl ⟨he, mem_flatten_iff.2 ⟨j, he'⟩⟩
    | succ i => exact .inr ⟨i, j, by omega, he, he'⟩
  · rintro (⟨he, he'⟩ | ⟨i, j, hij, he, he'⟩)
    · obtain ⟨j, he'⟩ := mem_flatten_iff.1 he'
      exact ⟨0, j + 1, by omega, he, he'⟩
    · exact ⟨i + 1, j + 1, by omega, he, he'⟩

/-- Groups that enter one after another stay in this order. -/
theorem EntersAll.lands_groups (h : EntersAll u after t ss t' last) {groups : List (List (Placement u))}
    (hss : List.Forall₂ (fun s group => gather? group = some s ∧ Solitary group) ss groups) (hT : Carries T t)
    (hafter : firstAfter after ≤ T.length) :
    ∃ T', Carries T' t' ∧
      load.Lands T (firstAfter after) T' (firstAfter last) true groups.flatten (load.Earlier groups) := by
  induction h generalizing groups T with
  | nil =>
    obtain rfl := List.forall₂_nil_left_iff.1 hss
    refine ⟨T, hT, (Lands.refl hafter).imp ?_⟩
    intro e e' hee'
    obtain ⟨i, j, -, he, -⟩ := earlier_iff.1 hee'
    simp [groupAt] at he
  | cons first others ih =>
    obtain ⟨group, groups, ⟨hgather, hgroup⟩, hrest, rfl⟩ := List.forall₂_cons_left_iff.1 hss
    obtain ⟨T₁, hT₁, hfirst⟩ := first.lands_group hgather hgroup hT hafter
    obtain ⟨T₂, hT₂, hothers⟩ := ih hrest hT₁ hfirst.within
    refine ⟨T₂, hT₂, (hfirst.trans true hothers).imp fun e e' hee' => ?_⟩
    rcases earlier_cons_iff.1 hee' with ⟨he, he'⟩ | hee'
    · exact .inr (.inr ⟨he, he', .inl rfl⟩)
    · exact .inr (.inl hee')

end Schedule

namespace Placement

/-- `e` has to come before `e'`: their addresses part at a sequential block, or `e` is listed before `e'` and
`e'` is not parallelizable. -/
def Precedes {u : Universe} (e e' : Placement u) : Prop :=
  Address.PartsAt .sequential e.address e'.address ∨
    e'.leaf.isParallelizable = false ∧ ∃ kind, Address.PartsAt kind e.address e'.address

/-- Leaves are added to the groups of a timeline in the order in which they have to come. -/
def LandsAs {u : Universe} (leaves : List (Address × Statement)) (T : List (List (Placement u))) (start : Nat)
    (t' : Timeline) (stop : Nat) (bounded : Bool) : Prop :=
  ∃ (new : List (Placement u)) (T' : List (List (Placement u))), new.map key = leaves ∧ Carries T' t' ∧
    load.Lands T start T' stop bounded new fun e e' => e ∈ new ∧ e' ∈ new ∧ e.Precedes e'

end Placement

namespace Schedule

open Load Placement Timeline

variable {u : Universe} {after last : Option Nat} {t t' : Timeline} {s : Statement} {ss out : List Statement}
  {stats : Stats} {T : List (List (Placement u))} {a : Address} {p : Placed}

/-- A leaf enters as a group of its own. -/
theorem landsAs_leaf (hleaf : s.isLeaf = true) (hT : Carries T t) (hafter : firstAfter after ≤ T.length)
    (h : (do
      let (s', stats) ← arrange u s
      let (t', last) ← placeLeaf u after t s'
      return (⟨t', last, stats⟩ : Placed)) = Except.ok p) (hne : s ≠ .block .parallel []) :
    LandsAs [(a, s)] T (firstAfter after) p.timeline (firstAfter p.last) true := by
  simp only [bind_eq_ok_iff, pure_eq_ok_iff] at h
  obtain ⟨⟨s', stats⟩, hs', ⟨t', last⟩, hplace, rfl⟩ := h
  let e : Placement u := ⟨a, s, s', hleaf, hne, stats, hs'⟩
  have hsolitary : Solitary [e] := by
    intro e' he' _
    rw [List.mem_singleton.1 he']
  have hgather : gather? [e] = some s' := rfl
  obtain ⟨T', hT', hlands⟩ := (enters_of_placeLeaf hplace).lands_group hgather hsolitary hT hafter
  refine ⟨[e], T', rfl, hT', hlands.imp ?_⟩
  rintro x y ⟨hx, hy, hxy⟩
  rw [List.mem_singleton.1 hx, List.mem_singleton.1 hy] at hxy
  rcases hxy with hxy | ⟨-, kind, hxy⟩
  · exact Address.not_partsAt_self hxy
  · exact Address.not_partsAt_self hxy

/-- Wherever the statement is placed, its leaves land in order. -/
def LandsInOrder (u : Universe) (s : Statement) : Prop :=
  ∀ (a : Address) (after : Option Nat) (t : Timeline) (T : List (List (Placement u))) (p : Placed),
    placeOne u s after t = .ok p → Carries T t → firstAfter after ≤ T.length →
      LandsAs (s.leavesAt a) T (firstAfter after) p.timeline (firstAfter p.last) true

/-- The statements of a block enter one by one. Leaves under different ones part at the block, so only a
sequential block has an order for them, and it is the one for which statements are chained. -/
theorem landsAs_placeAll {chained : Bool} {kind : BlockKind} {n : Nat} (hkind : kind = .sequential → chained = true)
    (hss : ∀ s ∈ ss, LandsInOrder u s) (h : placeAll u chained ss after t = .ok p) (hT : Carries T t)
    (hafter : firstAfter after ≤ T.length) :
    LandsAs (Statement.leavesFrom a kind n ss) T (firstAfter after) p.timeline (firstAfter p.last) chained := by
  induction ss generalizing after t T n p with
  | nil =>
    simp only [placeAll, pure_eq_ok_iff] at h
    subst h
    exact ⟨[], T, by rw [Statement.leavesFrom, List.map_nil], hT,
      (Lands.refl hafter).imp fun e e' hee' => by cases hee'.1⟩
  | cons s rest ih =>
    rw [List.forall_mem_cons] at hss
    simp only [placeAll_cons, bind_eq_ok_iff, pure_eq_ok_iff] at h
    obtain ⟨first, hfirst, others, hothers, rfl⟩ := h
    obtain ⟨new₁, T₁, hnew₁, hT₁, hlands₁⟩ := hss.1 (a ++ [(kind, n)]) _ _ _ _ hfirst hT hafter
    have hmid : firstAfter (if chained then first.last else after) ≤ T₁.length := by
      split
      · exact hlands₁.within
      · exact hafter.trans hlands₁.grows
    obtain ⟨new₂, T₂, hnew₂, hT₂, hlands₂⟩ := ih (n := n + 1) hss.2 hothers hT₁ hmid
    rw [apply_ite firstAfter] at hlands₂
    refine ⟨new₁ ++ new₂, T₂, by rw [List.map_append, hnew₁, hnew₂, Statement.leavesFrom], hT₂, ?_⟩
    refine (hlands₁.trans chained hlands₂).imp ?_
    have haddress₁ : ∀ e ∈ new₁, ∃ p, e.address = a ++ (kind, n) :: p := by
      intro e he
      obtain ⟨p, hp⟩ := Statement.address_of_mem_leavesAt _ s (hnew₁ ▸ List.mem_map_of_mem he)
      exact ⟨p, by rw [← List.singleton_append, ← List.append_assoc]; exact hp⟩
    have haddress₂ : ∀ e ∈ new₂, ∃ i p, n + 1 ≤ i ∧ e.address = a ++ (kind, i) :: p :=
      fun e he => Statement.address_of_mem_leavesFrom a kind (n + 1) rest (hnew₂ ▸ List.mem_map_of_mem he)
    rintro e e' ⟨he, he', hee'⟩
    rcases List.mem_append.1 he with he | he
    · rcases List.mem_append.1 he' with he' | he'
      · exact .inl ⟨he, he', hee'⟩
      · obtain ⟨p, hp⟩ := haddress₁ e he
        obtain ⟨i, q, hi, hq⟩ := haddress₂ e' he'
        refine .inr (.inr ⟨he, he', ?_⟩)
        rcases hee' with hparts | ⟨hne, -⟩
        · exact .inl (hkind (hparts.of_split hp hq (by omega)).1.symm)
        · exact .inr hne
    · rcases List.mem_append.1 he' with he' | he'
      · -- the second is listed first
        obtain ⟨i, p, hi, hp⟩ := haddress₂ e he
        obtain ⟨q, hq⟩ := haddress₁ e' he'
        have hparts : ∃ other, Address.PartsAt other e.address e'.address :=
          hee'.elim (fun h => ⟨_, h⟩) fun h => h.2
        obtain ⟨other, hparts⟩ := hparts
        have hlt := (hparts.of_split hp hq (by omega)).2
        omega
      · exact .inr (.inl ⟨he, he', hee'⟩)

theorem forall₂_statements (hT : Carries T t) :
    List.Forall₂ (fun s group => gather? group = some s ∧ Solitary group) t.statements T := by
  unfold Carries at hT
  unfold Timeline.statements
  generalize t.moments = moments at hT
  induction hT with
  | nil => exact .nil
  | cons hm _ ih =>
    obtain ⟨s, hs⟩ := hm.exists_gather?
    rw [List.filterMap_cons_some (hm.toStatement?_eq.trans hs)]
    exact .cons ⟨hs, hm.solitary⟩ ih

/-- The moments of a block are groups of its leaves, in the order in which the leaves have to come. -/
theorem exists_groups_of_scheduleBlock (hss : ∀ s ∈ ss, LandsInOrder u s)
    (h : scheduleBlock u ss = .ok (out, stats)) (a : Address) :
    ∃ (new : List (Placement u)) (groups : List (List (Placement u))),
      new.map key = Statement.leavesFrom a .unscheduled 0 ss ∧
      List.Forall₂ (fun s group => gather? group = some s ∧ Solitary group) out groups ∧ groups.flatten.Perm new ∧
      ∀ e e', e ∈ new ∧ e' ∈ new ∧ e.Precedes e' → load.Earlier groups e e' := by
  obtain ⟨p, hp, hclose⟩ := map_eq_ok_iff.1 h
  obtain rfl : p.timeline.statements = out := congrArg Prod.fst hclose
  have hleaves : LandsAs (Statement.leavesFrom a .unscheduled 0 ss) [] 0 p.timeline (firstAfter p.last) false :=
    landsAs_placeAll (by simp) hss hp .nil (Nat.le_refl 0)
  obtain ⟨new, groups, hnew, hgroups, hlands⟩ := hleaves
  have hperm : groups.flatten.Perm new := Multiset.coe_eq_coe.1 (hlands.marks.trans (zero_add _))
  exact ⟨new, groups, hnew, forall₂_statements hgroups, hperm, hlands.orders⟩

theorem landsInOrder (u : Universe) (s : Statement) : LandsInOrder u s := by
  induction s using Statement.induction with
  | gate g =>
    intro a after t T p h hT hafter
    rw [Statement.leavesAt]
    exact landsAs_leaf rfl hT hafter h (by simp)
  | loop count kind body ih =>
    intro a after t T p h hT hafter
    rw [Statement.leavesAt]
    exact landsAs_leaf rfl hT hafter h (by simp)
  | block kind ss ih =>
    intro a after t T p h hT hafter
    cases kind with
    | sequential =>
      rw [Statement.leavesAt]
      exact landsAs_placeAll (fun _ => rfl) ih h hT hafter
    | parallel =>
      rw [Statement.leavesAt]
      split
      · rename_i hempty
        obtain rfl := List.isEmpty_iff.1 hempty
        obtain rfl : (⟨t, after, 0⟩ : Placed) = p := by
          simpa [placeOne, arrange_block, arrangeBody, arrangeEach, placeLeaf, bind, Except.bind, pure, Except.pure,
            BlockKind.scheduled] using h
        exact ⟨[], T, rfl, hT, (Lands.refl hafter).imp fun e e' hee' => by cases hee'.1⟩
      · rename_i hne
        exact landsAs_leaf rfl hT hafter h (by simpa using hne)
    | unscheduled =>
      rw [Statement.leavesAt]
      simp only [placeOne, bind_eq_ok_iff, pure_eq_ok_iff] at h
      obtain ⟨⟨inner, stats⟩, hinner, ⟨t', last⟩, hplace, rfl⟩ := h
      obtain ⟨new, groups, hnew, hgroups, hperm, horders⟩ := exists_groups_of_scheduleBlock ih hinner a
      -- the groups of the inner block enter as they are
      obtain ⟨T', hT', hlands⟩ := (entersAll_of_placeLeaves hplace).lands_groups hgroups hT hafter
      rw [Multiset.coe_eq_coe.2 hperm] at hlands
      exact ⟨new, T', hnew, hT', hlands.imp horders⟩

end Schedule

namespace Placement

open Schedule Statement

/-- The groups of leaves that the moments `out` of a block with the statements `ss` are made of. -/
structure IsGrouping (u : Universe) (ss out : List Statement) (T : List (List (Placement u))) : Prop where
  /-- Every leaf of the block is in one group. -/
  leaves : (T.flatten.map key).Perm (leavesFrom [] .unscheduled 0 ss)
  distinct : (T.flatten.map address).Nodup
  moments : List.Forall₂ (fun s group => gather? group = some s) out T
  /-- All members of a parallel block are in one moment. -/
  members : ∀ i, ∀ e ∈ groupAt T i, ∀ members, e.leaf = .block .parallel members →
    ∃ members' stats pre post, arrangeEach u members = .ok (members', stats) ∧
      out[i]? = some (.block .parallel (pre ++ members' ++ post))
  /-- Leaves under an earlier part of a sequential block are in earlier moments. -/
  sequences : ∀ i j, ∀ e ∈ groupAt T i, ∀ e' ∈ groupAt T j,
    Address.PartsAt .sequential e.address e'.address → i < j
  /-- A leaf that is not parallelizable is alone in its moment. -/
  alone : ∀ i, ∀ e ∈ groupAt T i, e.leaf.isParallelizable = false → groupAt T i = [e] ∧ out[i]? = some e.form
  /-- It is in a later moment than all leaves listed before it. -/
  behind : ∀ i j, ∀ e ∈ groupAt T i, ∀ e' ∈ groupAt T j, e'.leaf.isParallelizable = false →
    ∀ kind, Address.PartsAt kind e.address e'.address → i < j

variable {u : Universe} {ss out : List Statement} {T : List (List (Placement u))} {i : Nat} {e : Placement u}

theorem exists_moment {R : Statement → List (Placement u) → Prop} (h : List.Forall₂ R out T)
    (he : e ∈ groupAt T i) : ∃ s, out[i]? = some s ∧ R s (groupAt T i) := by
  induction h generalizing i with
  | nil => simp [groupAt] at he
  | @cons s group out T hs _ ih =>
    cases i with
    | zero => exact ⟨s, rfl, hs⟩
    | succ i =>
      obtain ⟨s', hs', hR⟩ := ih (by simpa [groupAt] using he)
      exact ⟨s', by simpa using hs', by simpa [groupAt] using hR⟩

/-- The members of a parallel block stand side by side in its moment. -/
theorem exists_members_of_gather? {group : List (Placement u)} {s : Statement} {members : List Statement}
    (he : e ∈ group) (hform : e.form = .block .parallel members) (h : gather? group = some s) :
    ∃ pre post, s = .block .parallel (pre ++ members ++ post) := by
  obtain ⟨pre, post, rfl⟩ := List.append_of_mem he
  by_cases hsingle : pre = [] ∧ post = []
  · obtain ⟨rfl, rfl⟩ := hsingle
    cases h
    exact ⟨[], [], by simpa using hform⟩
  · have hs : s = .block .parallel (((pre ++ e :: post).map form).flatMap pieces) := by
      unfold gather? at h
      unfold together? at h
      split at h
      · cases h
      · rename_i x hmap
        have hlength := congrArg List.length hmap
        simp only [List.length_map, List.length_append, List.length_cons, List.length_nil] at hlength
        exact absurd ⟨List.eq_nil_of_length_eq_zero (by omega), List.eq_nil_of_length_eq_zero (by omega)⟩ hsingle
      · exact (Option.some.inj h).symm
    refine ⟨(pre.map form).flatMap pieces, (post.map form).flatMap pieces, ?_⟩
    simp [hs, hform, pieces]

/-- The moments of an unscheduled block respect how its leaves are grouped. -/
theorem scheduleBlock_keeps_grouping {u : Universe} {ss out : List Statement} {stats : Stats}
    (h : scheduleBlock u ss = .ok (out, stats)) : ∃ T, IsGrouping u ss out T := by
  obtain ⟨new, T, hnew, hmoments, hperm, horders⟩ :=
    exists_groups_of_scheduleBlock (fun s _ => landsInOrder u s) h []
  have hkeys : (T.flatten.map key).Perm (leavesFrom [] .unscheduled 0 ss) := hnew ▸ hperm.map key
  have hdistinct : (T.flatten.map address).Nodup := by
    have haddresses := (hkeys.map Prod.fst).nodup_iff.2 (nodup_leavesFrom [] .unscheduled 0 ss)
    simpa [key, Function.comp_def] using haddresses
  have hprecedes : ∀ i j, ∀ e ∈ groupAt T i, ∀ e' ∈ groupAt T j, e.Precedes e' → i < j := by
    intro i j e he e' he' hee'
    have hmem : ∀ {k : Nat} {x : Placement u}, x ∈ groupAt T k → x ∈ new :=
      fun hx => hperm.mem_iff.1 (mem_flatten_iff.2 ⟨_, hx⟩)
    obtain ⟨i', j', hlt, hi', hj'⟩ := earlier_iff.1 (horders e e' ⟨hmem he, hmem he', hee'⟩)
    rwa [eq_of_mem_groupAt hdistinct.of_map he hi', eq_of_mem_groupAt hdistinct.of_map he' hj']
  refine ⟨T, hkeys, hdistinct, hmoments.imp fun s group hs => hs.1, ?_, ?_, ?_, ?_⟩
  · intro i e he members hleaf
    obtain ⟨s, hs, hgather, -⟩ := exists_moment hmoments he
    obtain ⟨members', stats, harrange, hform⟩ := exists_form_of_parallel hleaf
    obtain ⟨pre, post, rfl⟩ := exists_members_of_gather? he hform hgather
    exact ⟨members', stats, pre, post, harrange, hs⟩
  · exact fun i j e he e' he' hparts => hprecedes i j e he e' he' (.inl hparts)
  · intro i e he hne
    obtain ⟨s, hs, hgather, hsolitary⟩ := exists_moment hmoments he
    have hgroup := hsolitary e he hne
    rw [hgroup] at hgather
    cases hgather
    exact ⟨hgroup, hs⟩
  · exact fun i j e he e' he' hne kind hparts => hprecedes i j e he e' he' (.inr ⟨hne, kind, hparts⟩)

open Sample in
/-- A parallel block, a sequence with an unscheduled block in it, a loop and a gate on two qubits. -/
def groupedSample : List Statement :=
  [px (onQ 0), .block .parallel [px (onQ 1), px (onQ 2)], .block .parallel [],
    .block .sequential
      [px (onQ 3), .block .unscheduled [px (onQ 0), px (onQ 3), px (onQ 1)],
        .block .parallel [px (onQ 0), .block .unscheduled [px (onQ 2)]]],
    .loop (.fixed 2) .sequential [], sxx (onQ 0) (onQ 1), px (onQ 2)]

theorem scheduleBlock_groupedSample :
    ∃ out stats, scheduleBlock Circuit.sample.slots groupedSample = .ok (out, stats) ∧
      ∃ T, IsGrouping Circuit.sample.slots groupedSample out T := by
  have hok : (scheduleBlock Circuit.sample.slots groupedSample).toBool = true := by decide +kernel
  obtain ⟨⟨out, stats⟩, h⟩ := toBool_iff.1 hok
  exact ⟨out, stats, h, scheduleBlock_keeps_grouping h⟩

end Placement

end IonSchedule
