import Mathlib.Algebra.Order.Group.Multiset

/-! # Additions to a table of lists

What enters a timeline is added to its moments: it joins a moment or makes up a new last one, and what is there
already stays where it is. This is said here of any table of lists whose entries bear marks. Labelled statements
bear the calls inside them, and leaves bear themselves.

Additions compose: of two in a row, the second may be chained to the first and then goes behind it.
-/
namespace IonSchedule

/-- How the entries of a list bear marks. -/
structure Load (β γ : Type) where
  marks : List β → Multiset γ
  marks_append : ∀ bs cs, marks (bs ++ cs) = marks bs + marks cs
  /-- One mark comes before another within an entry. -/
  inside : γ → γ → List β → Prop
  inside_append : ∀ x y bs cs, inside x y (bs ++ cs) ↔ inside x y bs ∨ inside x y cs
  /-- A mark that never joins others. -/
  isSolitary : γ → Prop

namespace Load

variable {β γ : Type} (L : Load β γ)

/-- The marks in one list of a table. -/
def marksAt (T : List (List β)) (i : Nat) : Multiset γ := L.marks (T[i]?.getD [])

/-- `x` is in an earlier list than `y`, or comes before it within an entry. -/
def Earlier (T : List (List β)) (x y : γ) : Prop :=
  (∃ i j, i < j ∧ x ∈ L.marksAt T i ∧ y ∈ L.marksAt T j) ∨ L.inside x y T.flatten

/-- The marks `new` are added to the lists numbered from `start` on, and when `bounded` below `stop`, in such a
way that what is related by `order` comes one after the other. What was there stays where it is, and a new mark
that never joins others comes behind all of it. -/
structure Lands (T : List (List β)) (start : Nat) (T' : List (List β)) (stop : Nat) (bounded : Bool)
    (new : Multiset γ) (order : γ → γ → Prop) : Prop where
  marks : L.marks T'.flatten = L.marks T.flatten + new
  stays : ∀ i, ∀ x ∈ L.marksAt T i, x ∈ L.marksAt T' i
  keeps : ∀ x y, L.inside x y T.flatten → L.inside x y T'.flatten
  lands : ∀ x ∈ new, ∃ i, start ≤ i ∧ (bounded = true → i < stop) ∧ x ∈ L.marksAt T' i
  last : ∀ x ∈ L.marks T.flatten, ∀ y ∈ new, L.isSolitary y → L.Earlier T' x y
  orders : ∀ x y, order x y → L.Earlier T' x y
  advances : start ≤ stop
  within : stop ≤ T'.length
  grows : T.length ≤ T'.length

variable {L} {T T₁ T₂ : List (List β)} {x y : γ} {i : Nat}

theorem marks_nil : L.marks [] = 0 := by
  have h := L.marks_append [] []
  rw [List.append_nil] at h
  exact left_eq_add.1 h

theorem lt_length_of_mem_marksAt (h : x ∈ L.marksAt T i) : i < T.length := by
  by_contra hi
  simp [marksAt, List.getElem?_eq_none (Nat.le_of_not_lt hi), marks_nil] at h

theorem mem_marks_flatten_iff : x ∈ L.marks T.flatten ↔ ∃ i, x ∈ L.marksAt T i := by
  induction T with
  | nil => simp [marks_nil, marksAt]
  | cons bs rest ih =>
    rw [List.flatten_cons, L.marks_append, Multiset.mem_add, ih]
    constructor
    · rintro (hx | ⟨i, hx⟩)
      · exact ⟨0, hx⟩
      · exact ⟨i + 1, hx⟩
    · rintro ⟨i, hx⟩
      cases i with
      | zero => exact .inl hx
      | succ i => exact .inr ⟨i, hx⟩

namespace Lands

variable {start mid stop : Nat} {bounded : Bool} {new new₁ new₂ : Multiset γ} {order order₁ order₂ : γ → γ → Prop}

theorem imp (h : L.Lands T start T₁ stop bounded new order) (himp : ∀ x y, order₁ x y → order x y) :
    L.Lands T start T₁ stop bounded new order₁ :=
  { h with orders := fun x y hxy => h.orders x y (himp x y hxy) }

theorem refl (hstart : start ≤ T.length) : L.Lands T start T start bounded 0 (fun _ _ => False) where
  marks := by simp
  stays _ _ hx := hx
  keeps _ _ h := h
  lands x hx := by simp at hx
  last x _ y hy := by simp at hy
  orders _ _ h := h.elim
  advances := Nat.le_refl _
  within := hstart
  grows := Nat.le_refl _

theorem earlier (h : L.Lands T start T₁ stop bounded new order) (hxy : L.Earlier T x y) : L.Earlier T₁ x y := by
  rcases hxy with ⟨i, j, hij, hx, hy⟩ | hinside
  · exact .inl ⟨i, j, hij, h.stays i x hx, h.stays j y hy⟩
  · exact .inr (h.keeps x y hinside)

/-- One addition after another. When chained, the second goes behind the first. -/
theorem trans (h₁ : L.Lands T start T₁ mid true new₁ order₁) (chained : Bool)
    (h₂ : L.Lands T₁ (if chained then mid else start) T₂ stop chained new₂ order₂) :
    L.Lands T start T₂ stop chained (new₁ + new₂) (fun x y => order₁ x y ∨ order₂ x y ∨
      (x ∈ new₁ ∧ y ∈ new₂ ∧ (chained = true ∨ L.isSolitary y))) := by
  have hstart : start ≤ if chained then mid else start := by
    have := h₁.advances
    split <;> omega
  constructor
  · rw [h₂.marks, h₁.marks, add_assoc]
  · exact fun i x hx => h₂.stays i x (h₁.stays i x hx)
  · exact fun x y hxy => h₂.keeps x y (h₁.keeps x y hxy)
  · intro x hx
    rcases Multiset.mem_add.1 hx with hx | hx
    · obtain ⟨i, hi, hmid, hx⟩ := h₁.lands x hx
      refine ⟨i, hi, ?_, h₂.stays i x hx⟩
      rintro rfl
      exact Nat.lt_of_lt_of_le (hmid rfl) h₂.advances
    · obtain ⟨i, hi, hstop, hx⟩ := h₂.lands x hx
      exact ⟨i, Nat.le_trans hstart hi, hstop, hx⟩
  · intro x hx y hy hsolitary
    rcases Multiset.mem_add.1 hy with hy | hy
    · exact h₂.earlier (h₁.last x hx y hy hsolitary)
    · exact h₂.last x (h₁.marks ▸ Multiset.mem_add.2 (.inl hx)) y hy hsolitary
  · rintro x y (hxy | hxy | ⟨hx, hy, rfl | hsolitary⟩)
    · exact h₂.earlier (h₁.orders x y hxy)
    · exact h₂.orders x y hxy
    · obtain ⟨i, -, hi, hx⟩ := h₁.lands x hx
      obtain ⟨j, hj, -, hy⟩ := h₂.lands y hy
      exact .inl ⟨i, j, Nat.lt_of_lt_of_le (hi rfl) hj, h₂.stays i x hx, hy⟩
    · exact h₂.last x (h₁.marks ▸ Multiset.mem_add.2 (.inr hx)) y hy hsolitary
  · exact Nat.le_trans hstart h₂.advances
  · exact h₂.within
  · exact Nat.le_trans h₁.grows h₂.grows

/-- A new list at the end. -/
theorem push (hstart : start ≤ T.length) (bs : List β) :
    L.Lands T start (T ++ [bs]) (T.length + 1) true (L.marks bs) (L.inside · · bs) := by
  have hstays : ∀ i, ∀ x ∈ L.marksAt T i, x ∈ L.marksAt (T ++ [bs]) i := by
    intro i x hx
    rwa [marksAt, List.getElem?_append_left (lt_length_of_mem_marksAt hx)]
  have hlands : ∀ x ∈ L.marks bs, x ∈ L.marksAt (T ++ [bs]) T.length := by simp [marksAt]
  have hflatten : (T ++ [bs]).flatten = T.flatten ++ bs := by simp
  constructor
  · rw [hflatten, L.marks_append]
  · exact hstays
  · intro x y hxy
    rw [hflatten, L.inside_append]
    exact .inl hxy
  · exact fun x hx => ⟨T.length, hstart, fun _ => Nat.lt_succ_self _, hlands x hx⟩
  · intro x hx y hy _
    obtain ⟨i, hx⟩ := mem_marks_flatten_iff.1 hx
    exact .inl ⟨i, T.length, lt_length_of_mem_marksAt hx, hstays i x hx, hlands y hy⟩
  · intro x y hxy
    rw [Earlier, hflatten, L.inside_append]
    exact .inr (.inr hxy)
  · exact Nat.le_succ_of_le hstart
  · simp
  · simp

/-- More in an existing list. -/
theorem merge {pre : List (List β)} (hstart : start ≤ pre.length) (post : List (List β)) (cs bs : List β)
    (hbs : ∀ x ∈ L.marks bs, ¬ L.isSolitary x) :
    L.Lands (pre ++ cs :: post) start (pre ++ (cs ++ bs) :: post) (pre.length + 1) true (L.marks bs)
      (L.inside · · bs) where
  marks := by
    simp only [List.flatten_append, List.flatten_cons, L.marks_append]
    rw [add_right_comm (L.marks cs), ← add_assoc]
  stays i x hx := by
    rcases Nat.lt_trichotomy i pre.length with hi | rfl | hi
    · rw [marksAt, List.getElem?_append_left hi] at hx ⊢
      exact hx
    · simp only [marksAt, List.getElem?_append_right (Nat.le_refl _), Nat.sub_self, List.getElem?_cons_zero,
        Option.getD_some, L.marks_append, Multiset.mem_add] at hx ⊢
      exact .inl hx
    · obtain ⟨k, rfl⟩ := Nat.exists_eq_add_of_lt hi
      rw [marksAt, List.getElem?_append_right (by omega)] at hx ⊢
      rwa [show pre.length + k + 1 - pre.length = k + 1 by omega, List.getElem?_cons_succ] at hx ⊢
  keeps x y hxy := by
    simp only [List.flatten_append, List.flatten_cons, L.inside_append] at hxy ⊢
    tauto
  lands x hx := ⟨pre.length, hstart, fun _ => Nat.lt_succ_self _, by simp [marksAt, L.marks_append, hx]⟩
  last x _ y hy hsolitary := absurd hsolitary (hbs y hy)
  orders x y hxy := by
    refine .inr ?_
    simp only [List.flatten_append, List.flatten_cons, L.inside_append]
    exact .inr (.inl (.inr hxy))
  advances := Nat.le_succ_of_le hstart
  within := by
    simp only [List.length_append, List.length_cons]
    omega
  grows := by simp

end Lands

end Load

end IonSchedule
