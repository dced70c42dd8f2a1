import Mathlib.Data.List.Nodup
import IonSchedule.Proofs.Derivation

/-! # Leaves and their addresses

The leaves of a block are the gates, loops and non-empty parallel blocks that are reached from it through
sequential and unscheduled blocks. An address says how: which part is taken of which kind of block, from the
outside in. Leaves have different addresses, and of two leaves the one that is listed first takes an earlier
part where their addresses part.
-/
namespace IonSchedule

/-- The way to a statement inside a block: the kind of each block on the way with the number of the part taken. -/
abbrev Address := List (BlockKind × Nat)

/-- The addresses part at a block of the given kind, and the first of them takes an earlier part of it. -/
def Address.PartsAt (kind : BlockKind) (a b : Address) : Prop :=
  ∃ way i j p q, i < j ∧ a = way ++ (kind, i) :: p ∧ b = way ++ (kind, j) :: q

namespace Address

variable {kind other : BlockKind} {a b way p q : Address} {i j : Nat}

/-- Two addresses part at one place only. -/
theorem PartsAt.of_split (h : PartsAt other a b) (ha : a = way ++ (kind, i) :: p) (hb : b = way ++ (kind, j) :: q)
    (hij : i ≠ j) : other = kind ∧ i < j := by
  obtain ⟨way', i', j', p', q', hlt, ha', hb'⟩ := h
  induction way generalizing way' a b with
  | nil =>
    cases way' with
    | nil =>
      simp only [ha, hb, List.nil_append, List.cons.injEq, Prod.mk.injEq] at ha' hb'
      obtain ⟨⟨rfl, rfl⟩, -⟩ := ha'
      obtain ⟨⟨-, rfl⟩, -⟩ := hb'
      exact ⟨rfl, hlt⟩
    | cons step way' =>
      simp only [ha, hb, List.nil_append, List.cons_append, List.cons.injEq] at ha' hb'
      have hstep := ha'.1.trans hb'.1.symm
      simp only [Prod.mk.injEq] at hstep
      exact absurd hstep.2 hij
  | cons step way ih =>
    cases way' with
    | nil =>
      simp only [ha, hb, List.nil_append, List.cons_append, List.cons.injEq] at ha' hb'
      have hstep := ha'.1.symm.trans hb'.1
      simp only [Prod.mk.injEq] at hstep
      omega
    | cons step' way' =>
      simp only [ha, hb, List.cons_append, List.cons.injEq] at ha' hb'
      exact ih rfl rfl way' ha'.2 hb'.2

theorem not_partsAt_self : ¬ PartsAt kind a a := by
  rintro ⟨way, i, j, p, q, hlt, ha, hb⟩
  have hrest := List.append_cancel_left (ha.symm.trans hb)
  simp only [List.cons.injEq, Prod.mk.injEq] at hrest
  omega

end Address

namespace Statement

mutual

/-- The leaves of a statement with their addresses, the statement itself being at the given one. -/
def leavesAt : Address → Statement → List (Address × Statement)
  | a, .gate g => [(a, .gate g)]
  | a, .block .parallel members => if members.isEmpty then [] else [(a, .block .parallel members)]
  | a, .block .sequential statements => leavesFrom a .sequential 0 statements
  | a, .block .unscheduled statements => leavesFrom a .unscheduled 0 statements
  | a, .loop count kind body => [(a, .loop count kind body)]

/-- The leaves of some parts of a block at the given address, numbered from `n` on. -/
def leavesFrom : Address → BlockKind → Nat → List Statement → List (Address × Statement)
  | _, _, _, [] => []
  | a, kind, n, s :: rest => leavesAt (a ++ [(kind, n)]) s ++ leavesFrom a kind (n + 1) rest

end

variable {e : Address × Statement}

mutual

/-- A leaf is inside the statement. -/
theorem address_of_mem_leavesAt : (a : Address) → (s : Statement) → e ∈ leavesAt a s → ∃ p, e.1 = a ++ p
  | a, .gate g, h => by
    rw [leavesAt, List.mem_singleton] at h
    exact ⟨[], by rw [h, List.append_nil]⟩
  | a, .block .parallel members, h => by
    rw [leavesAt] at h
    split at h
    · cases h
    · rw [List.mem_singleton] at h
      exact ⟨[], by rw [h, List.append_nil]⟩
  | a, .block .sequential ss, h => by
    rw [leavesAt] at h
    obtain ⟨i, p, -, he⟩ := address_of_mem_leavesFrom a .sequential 0 ss h
    exact ⟨_, he⟩
  | a, .block .unscheduled ss, h => by
    rw [leavesAt] at h
    obtain ⟨i, p, -, he⟩ := address_of_mem_leavesFrom a .unscheduled 0 ss h
    exact ⟨_, he⟩
  | a, .loop count kind body, h => by
    rw [leavesAt, List.mem_singleton] at h
    exact ⟨[], by rw [h, List.append_nil]⟩

theorem address_of_mem_leavesFrom : (a : Address) → (kind : BlockKind) → (n : Nat) → (ss : List Statement) →
    e ∈ leavesFrom a kind n ss → ∃ i p, n ≤ i ∧ e.1 = a ++ (kind, i) :: p
  | a, kind, n, [], h => by
    rw [leavesFrom] at h
    cases h
  | a, kind, n, s :: rest, h => by
    rw [leavesFrom, List.mem_append] at h
    rcases h with h | h
    · obtain ⟨p, hp⟩ := address_of_mem_leavesAt (a ++ [(kind, n)]) s h
      exact ⟨n, p, Nat.le_refl n, by rw [hp, List.append_assoc, List.singleton_append]⟩
    · obtain ⟨i, p, hi, hp⟩ := address_of_mem_leavesFrom a kind (n + 1) rest h
      exact ⟨i, p, by omega, hp⟩

end

mutual

/-- No two leaves have the same address. -/
theorem nodup_leavesAt : (a : Address) → (s : Statement) → ((leavesAt a s).map Prod.fst).Nodup
  | a, .gate g => by
    rw [leavesAt]
    exact List.nodup_singleton _
  | a, .block .parallel members => by
    rw [leavesAt]
    split
    · exact List.nodup_nil
    · exact List.nodup_singleton _
  | a, .block .sequential ss => by
    rw [leavesAt]
    exact nodup_leavesFrom a .sequential 0 ss
  | a, .block .unscheduled ss => by
    rw [leavesAt]
    exact nodup_leavesFrom a .unscheduled 0 ss
  | a, .loop count kind body => by
    rw [leavesAt]
    exact List.nodup_singleton _

theorem nodup_leavesFrom : (a : Address) → (kind : BlockKind) → (n : Nat) → (ss : List Statement) →
    ((leavesFrom a kind n ss).map Prod.fst).Nodup
  | a, kind, n, [] => by
    rw [leavesFrom]
    exact List.nodup_nil
  | a, kind, n, s :: rest => by
    rw [leavesFrom, List.map_append]
    refine (nodup_leavesAt (a ++ [(kind, n)]) s).append (nodup_leavesFrom a kind (n + 1) rest) ?_
    intro address hfirst hrest
    obtain ⟨e, he, rfl⟩ := List.mem_map.1 hfirst
    obtain ⟨e', he', hsame⟩ := List.mem_map.1 hrest
    obtain ⟨p, hp⟩ := address_of_mem_leavesAt _ s he
    obtain ⟨i, q, hi, hq⟩ := address_of_mem_leavesFrom a kind (n + 1) rest he'
    -- the two take different parts of the block at `a`
    rw [hp, hq, List.append_assoc] at hsame
    have hstep := List.append_cancel_left hsame
    simp only [List.singleton_append, List.cons.injEq, Prod.mk.injEq] at hstep
    omega

end

/-- What a statement adds to a moment that it shares: the members of a block, or the statement as it is. -/
def pieces : Statement → List Statement
  | .block _ statements => statements
  | s => [s]

/-- Statements that share a moment, as one: a single one as it is, and several as one parallel block. -/
def together? : List Statement → Option Statement
  | [] => none
  | [s] => some s
  | ss => some (.block .parallel (ss.flatMap pieces))

variable {s : Statement} {ss members : List Statement}

theorem pieces_of_group? (h : s.group? = some members) : s.pieces = members := by
  cases s with
  | gate g =>
    simp only [group?, Option.ite_none_right_eq_some, Option.some.injEq] at h
    exact h.2
  | block kind statements =>
    simp only [group?, Option.ite_none_right_eq_some, Option.some.injEq] at h
    exact h.2
  | loop count kind body => simp [group?] at h

theorem group?_eq_none_iff : s.group? = none ↔ s.isParallelizable = false := by
  cases s with
  | gate g => simp [group?, isParallelizable]
  | block kind statements => simp [group?, isParallelizable]
  | loop count kind body => simp [group?, isParallelizable]

theorem flatMap_pieces_of_together? (h : together? ss = some s) : ss.flatMap pieces = s.pieces := by
  match ss with
  | [] => cases h
  | [x] =>
    cases h
    exact List.append_nil _
  | x :: y :: rest =>
    cases h
    rfl

theorem eq_singleton_of_together?_gate {g : GateCall} (h : together? ss = some (.gate g)) : ss = [.gate g] := by
  match ss with
  | [] => cases h
  | [x] =>
    cases h
    rfl
  | x :: y :: rest => cases h

end Statement

end IonSchedule
