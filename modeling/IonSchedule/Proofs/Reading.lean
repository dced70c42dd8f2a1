import Mathlib.Algebra.Group.Commute.Defs
import Mathlib.Algebra.Order.Group.Multiset
import IonSchedule.Usage

/-! # Readings

A reading takes statements to the elements of an additive monoid: it says what a gate call is and what a loop
makes of its body, and a block of any kind is the sum of its statements in listed order. What a circuit does to
one slot, and which calls it makes how often, are readings. A reading is independent when statements without a
common slot commute under it, and this is all that scheduling asks of a reading that it is to preserve.

The calls that statements make are read as a multiset; they determine which slots the statements touch.
-/
namespace IonSchedule

section Success

variable {ε δ α β : Type}

theorem bind_eq_ok_iff {x : Except ε α} {f : α → Except ε β} {b : β} :
    x >>= f = .ok b ↔ ∃ a, x = .ok a ∧ f a = .ok b := by
  cases x with
  | error e => simp [bind, Except.bind]
  | ok a => simp [bind, Except.bind]

theorem check_eq_ok_iff {x : Except ε Unit} {f : Unit → Except ε β} {b : β} :
    x >>= f = .ok b ↔ x = .ok () ∧ f () = .ok b := by
  cases x with
  | error e => simp [bind, Except.bind]
  | ok a => simp [bind, Except.bind]

theorem map_eq_ok_iff {x : Except ε α} {f : α → β} {b : β} : f <$> x = .ok b ↔ ∃ a, x = .ok a ∧ f a = b := by
  cases x with
  | error e => simp [Functor.map, Except.map]
  | ok a => simp [Functor.map, Except.map]

theorem mapError_eq_ok_iff {x : Except ε α} {f : ε → δ} {a : α} : x.mapError f = .ok a ↔ x = .ok a := by
  cases x with
  | error e => simp [Except.mapError]
  | ok a => simp [Except.mapError]

theorem pure_eq_ok_iff {a b : α} : (pure a : Except ε α) = .ok b ↔ a = b := by
  simp [pure, Except.pure]

theorem toBool_iff {x : Except ε α} : x.toBool = true ↔ ∃ a, x = .ok a := by
  cases x with
  | error e => simp [Except.toBool]
  | ok a => simp [Except.toBool]

end Success

structure Reading (M : Type) where
  gate : GateCall → M
  loop : LoopCount → M → M

namespace Reading

section Sum

variable {M : Type} [AddMonoid M]

mutual

def read (r : Reading M) : Statement → M
  | .gate g => r.gate g
  | .block _ statements => r.readAll statements
  | .loop count _ body => r.loop count (r.readAll body)

/-- The sum of the statements in listed order. -/
def readAll (r : Reading M) : List Statement → M
  | [] => 0
  | s :: rest => r.read s + r.readAll rest

end

variable (r : Reading M)

@[simp] theorem read_gate (g : GateCall) : r.read (.gate g) = r.gate g := by rw [read]

@[simp] theorem read_block (kind : BlockKind) (ss : List Statement) : r.read (.block kind ss) = r.readAll ss := by
  rw [read]

@[simp] theorem read_loop (count : LoopCount) (kind : BlockKind) (body : List Statement) :
    r.read (.loop count kind body) = r.loop count (r.readAll body) := by
  rw [read]

@[simp] theorem readAll_nil : r.readAll [] = 0 := by rw [readAll]

@[simp] theorem readAll_cons (s : Statement) (ss : List Statement) :
    r.readAll (s :: ss) = r.read s + r.readAll ss := by
  rw [readAll]

@[simp] theorem readAll_append (ss ts : List Statement) :
    r.readAll (ss ++ ts) = r.readAll ss + r.readAll ts := by
  induction ss with
  | nil => simp
  | cons s ss ih => simp [ih, add_assoc]

/-- Statements without a common slot commute. -/
def Independent (u : Universe) : Prop :=
  ∀ ss ts a b, u.usageAll ss = .ok a → u.usageAll ts = .ok b → a.disjoint b = true →
    AddCommute (r.readAll ss) (r.readAll ts)

end Sum

theorem independent_of_comm {M : Type} [AddCommMonoid M] (r : Reading M) (u : Universe) : r.Independent u :=
  fun _ _ _ _ _ _ _ => AddCommute.all _ _

theorem forall_readAll_iff {α : Type} {r : Reading (Multiset α)} {P : α → Prop} {ss : List Statement} :
    (∀ x ∈ r.readAll ss, P x) ↔ ∀ s ∈ ss, ∀ x ∈ r.read s, P x := by
  induction ss with
  | nil => simp
  | cons s rest ih => simp only [readAll_cons, Multiset.mem_add, or_imp, forall_and, ih, List.forall_mem_cons]

/-- The gate calls at any depth; the body of a loop counts once. -/
def calls : Reading (Multiset GateCall) where
  gate g := {g}
  loop _ body := body

@[simp] theorem calls_gate (g : GateCall) : calls.gate g = {g} := rfl

@[simp] theorem calls_loop (count : LoopCount) (body : Multiset GateCall) : calls.loop count body = body := rfl

theorem mem_calls_readAll_iff {g : GateCall} {ss : List Statement} :
    g ∈ calls.readAll ss ↔ ∃ s ∈ ss, g ∈ calls.read s := by
  induction ss with
  | nil => simp
  | cons s rest ih => simp only [readAll_cons, Multiset.mem_add, ih, List.mem_cons, exists_eq_or_imp]

theorem forall_calls_cons_iff {P : GateCall → Prop} {s : Statement} {ss : List Statement} :
    (∀ g ∈ calls.readAll (s :: ss), P g) ↔ (∀ g ∈ calls.readAll [s], P g) ∧ ∀ g ∈ calls.readAll ss, P g := by
  simp only [readAll_cons, readAll_nil, add_zero, Multiset.mem_add, or_imp, forall_and]

section Calls

variable {M : Type} [AddMonoid M] {r r' : Reading M}

mutual

/-- A reading depends only on how it reads the calls that occur. -/
theorem read_congr (hloop : r.loop = r'.loop) : (s : Statement) → (∀ g ∈ calls.read s, r.gate g = r'.gate g) →
    r.read s = r'.read s
  | .gate g, h => by
    rw [read_gate, read_gate]
    exact h g (by simp)
  | .block _ ss, h => by
    rw [read_block] at h
    rw [read_block, read_block, readAll_congr hloop ss h]
  | .loop _ _ body, h => by
    rw [read_loop] at h
    rw [read_loop, read_loop, readAll_congr hloop body h, hloop]

theorem readAll_congr (hloop : r.loop = r'.loop) : (ss : List Statement) →
    (∀ g ∈ calls.readAll ss, r.gate g = r'.gate g) → r.readAll ss = r'.readAll ss
  | [], _ => by rw [readAll_nil, readAll_nil]
  | s :: rest, h => by
    simp only [readAll_cons, Multiset.mem_add] at h
    rw [readAll_cons, readAll_cons, read_congr hloop s fun g hg => h g (Or.inl hg),
      readAll_congr hloop rest fun g hg => h g (Or.inr hg)]

end

mutual

theorem read_eq_zero (hloop : ∀ count, r.loop count 0 = 0) : (s : Statement) → (∀ g ∈ calls.read s, r.gate g = 0) →
    r.read s = 0
  | .gate g, h => by
    rw [read_gate]
    exact h g (by simp)
  | .block _ ss, h => by
    rw [read_block] at h ⊢
    exact readAll_eq_zero hloop ss h
  | .loop _ _ body, h => by
    rw [read_loop] at h ⊢
    rw [readAll_eq_zero hloop body h, hloop]

theorem readAll_eq_zero (hloop : ∀ count, r.loop count 0 = 0) : (ss : List Statement) →
    (∀ g ∈ calls.readAll ss, r.gate g = 0) → r.readAll ss = 0
  | [], _ => readAll_nil _
  | s :: rest, h => by
    simp only [readAll_cons, Multiset.mem_add] at h
    rw [readAll_cons, read_eq_zero hloop s fun g hg => h g (Or.inl hg),
      readAll_eq_zero hloop rest fun g hg => h g (Or.inr hg), add_zero]

end

end Calls

end Reading

namespace Usage

theorem disjoint_iff {a b : Usage} : a.disjoint b = true ↔ ∀ x ∈ a, x ∉ b := by
  simp only [disjoint, Std.ExtTreeSet.isEmpty_iff, Std.ExtTreeSet.eq_empty_iff_forall_not_mem,
    Std.ExtTreeSet.mem_inter_iff, not_and]

theorem disjoint_union_left {a b c : Usage} :
    (a ∪ b).disjoint c = true ↔ a.disjoint c = true ∧ b.disjoint c = true := by
  simp only [disjoint_iff, Std.ExtTreeSet.mem_union_iff, or_imp, forall_and]

end Usage

namespace Universe

/-- Whether a call touches a slot; a call whose qubits do not resolve touches none. -/
def touches (u : Universe) (x : Slot) (g : GateCall) : Bool :=
  match u.gateUsage g with
  | .ok used => used.contains x
  | .error _ => false

theorem touches_iff {u : Universe} {x : Slot} {g : GateCall} :
    u.touches x g = true ↔ ∃ used, u.gateUsage g = .ok used ∧ x ∈ used := by
  unfold touches
  cases u.gateUsage g with
  | error e => simp
  | ok used => simp

/-- The qubits of every call resolve, and `used` holds the slots that they touch. -/
structure Uses (u : Universe) (calls : Multiset GateCall) (used : Usage) : Prop where
  resolved : ∀ g ∈ calls, ∃ slots, u.gateUsage g = .ok slots
  mem_iff : ∀ x, x ∈ used ↔ ∃ g ∈ calls, u.touches x g = true

variable {u : Universe}

theorem uses_singleton {g : GateCall} {used : Usage} : u.Uses {g} used ↔ u.gateUsage g = .ok used := by
  constructor
  · intro h
    obtain ⟨slots, hg⟩ := h.resolved g (by simp)
    have hs : slots = used := by
      apply Std.ExtTreeSet.ext_mem
      intro x
      simp [h.mem_iff, touches_iff, hg]
    rw [hg, hs]
  · intro h
    exact ⟨by simp [h], by simp [touches_iff, h]⟩

theorem uses_zero {used : Usage} : u.Uses 0 used ↔ used = ∅ := by
  constructor
  · intro h
    apply Std.ExtTreeSet.eq_empty_iff_forall_not_mem.2
    intro x
    simp [h.mem_iff]
  · rintro rfl
    exact ⟨by simp, by simp⟩

theorem Uses.add {cs ds : Multiset GateCall} {a b : Usage} (ha : u.Uses cs a) (hb : u.Uses ds b) :
    u.Uses (cs + ds) (a ∪ b) := by
  constructor
  · intro g hg
    rcases Multiset.mem_add.1 hg with hg | hg
    · exact ha.resolved g hg
    · exact hb.resolved g hg
  · intro x
    simp only [Std.ExtTreeSet.mem_union_iff, ha.mem_iff, hb.mem_iff, Multiset.mem_add, or_and_right, exists_or]

theorem Uses.unique {cs : Multiset GateCall} {a b : Usage} (ha : u.Uses cs a) (hb : u.Uses cs b) : a = b := by
  apply Std.ExtTreeSet.ext_mem
  intro x
  rw [ha.mem_iff, hb.mem_iff]

theorem exists_uses {cs : Multiset GateCall} (h : ∀ g ∈ cs, ∃ slots, u.gateUsage g = .ok slots) :
    ∃ used, u.Uses cs used := by
  induction cs using Multiset.induction with
  | empty => exact ⟨∅, uses_zero.2 rfl⟩
  | cons g cs ih =>
    obtain ⟨slots, hg⟩ := h g (Multiset.mem_cons_self g cs)
    obtain ⟨used, hu⟩ := ih fun g' hg' => h g' (Multiset.mem_cons_of_mem hg')
    rw [← Multiset.singleton_add]
    exact ⟨slots ∪ used, (uses_singleton.2 hg).add hu⟩

theorem uses_add {cs ds : Multiset GateCall} {used : Usage} :
    u.Uses (cs + ds) used ↔ ∃ a, u.Uses cs a ∧ ∃ b, u.Uses ds b ∧ a ∪ b = used := by
  constructor
  · intro h
    obtain ⟨a, ha⟩ := exists_uses fun g hg => h.resolved g (Multiset.mem_add.2 (Or.inl hg))
    obtain ⟨b, hb⟩ := exists_uses fun g hg => h.resolved g (Multiset.mem_add.2 (Or.inr hg))
    exact ⟨a, ha, b, hb, (ha.add hb).unique h⟩
  · rintro ⟨a, ha, b, hb, rfl⟩
    exact ha.add hb

mutual

/-- The slots that a statement touches are those that its calls touch. -/
theorem usage_eq_ok_iff {used : Usage} : (s : Statement) →
    (u.usage s = .ok used ↔ u.Uses (Reading.calls.read s) used)
  | .gate g => by
    rw [usage, Reading.read_gate]
    exact uses_singleton.symm
  | .block _ ss => by
    rw [usage, Reading.read_block]
    exact usageAll_eq_ok_iff ss
  | .loop _ _ body => by
    rw [usage, Reading.read_loop]
    exact usageAll_eq_ok_iff body

theorem usageAll_eq_ok_iff {used : Usage} : (ss : List Statement) →
    (u.usageAll ss = .ok used ↔ u.Uses (Reading.calls.readAll ss) used)
  | [] => by
    rw [usageAll, Reading.readAll_nil, uses_zero, Except.ok.injEq, eq_comm]
  | s :: rest => by
    rw [usageAll, Reading.readAll_cons, uses_add]
    simp only [bind_eq_ok_iff, pure_eq_ok_iff, usage_eq_ok_iff s, usageAll_eq_ok_iff rest]

end

theorem usageAll_singleton {s : Statement} {used : Usage} : u.usageAll [s] = .ok used ↔ u.usage s = .ok used := by
  rw [usageAll_eq_ok_iff, usage_eq_ok_iff]
  simp

theorem usageAll_append {ss ts : List Statement} {a b : Usage} (ha : u.usageAll ss = .ok a)
    (hb : u.usageAll ts = .ok b) : u.usageAll (ss ++ ts) = .ok (a ∪ b) := by
  rw [usageAll_eq_ok_iff] at ha hb ⊢
  rw [Reading.readAll_append]
  exact ha.add hb

end Universe

end IonSchedule
