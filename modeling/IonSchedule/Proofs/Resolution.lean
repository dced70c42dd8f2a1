import Mathlib.Data.List.Nodup
import IonSchedule.Proofs.Reading

/-! # Named qubits and slots

A qubit whose index is below the size of its register need not resolve: in a table that was read, an index list
may show positions that its source lacks. Where no list does, every qubit within the size of its register
resolves.

The universe of a table counts the slots of a fundamental register under the name that the register carries, and
a named qubit resolves to the name under which the register is filed. Where the two names agree, every qubit
resolves to a slot of the universe.
-/
namespace IonSchedule

theorem Table.get?_eq_some_iff {α : Type} {t : Table α} {key : String} {a : α} :
    t.get? key = some a ↔ (key, a) ∈ t.items := by
  unfold Table.get?
  constructor
  · intro h
    obtain ⟨⟨key', a'⟩, hfind, rfl⟩ := Option.map_eq_some_iff.1 h
    have hkey : key' = key := Catalog.name_of_find? hfind
    exact hkey ▸ List.mem_of_find?_eq_some hfind
  · intro h
    have hsome : (t.find? key).isSome = true := by
      rw [Catalog.find?_isSome, Catalog.contains_iff]
      exact List.mem_map_of_mem h
    obtain ⟨entry, hfind⟩ := Option.isSome_iff_exists.1 hsome
    -- names are distinct, so the entry that is found is the given one
    have hentry : entry = (key, a) :=
      List.inj_on_of_nodup_map t.distinct (List.mem_of_find?_eq_some hfind) h (Catalog.name_of_find? hfind)
    rw [hfind, hentry]
    rfl

theorem Selection.lt_of_outOfRange? {places : List Nat} {source : Nat}
    (h : (indices places).outOfRange? source = none) : ∀ p ∈ places, p < source := by
  simpa [outOfRange?] using h

theorem Selection.sourceIndex_lt {selection : Selection} {source : Nat} (h : selection.outOfRange? source = none)
    (i : Fin (selection.size source)) : selection.sourceIndex i < source := by
  obtain ⟨i, hi⟩ := i
  cases selection with
  | whole => exact hi
  | slice start stop step =>
    simp only [size] at hi
    split at hi
    · omega
    · have hmul : (i + 1) * step ≤ min stop source - start + step - 1 :=
        (Nat.le_div_iff_mul_le (by omega)).1 hi
      simp only [sourceIndex]
      rw [Nat.succ_mul] at hmul
      omega
  | indices positions => exact lt_of_outOfRange? h _ (List.get_mem positions ⟨i, hi⟩)

namespace Registers

/-- Whether a register shows only positions that its source has. -/
def shows (t : Registers) (r : Register) : Bool :=
  match r.kind with
  | .fundamental _ => true
  | .mapped source selection =>
    match t.sizeOf source with
    | .ok size => (selection.outOfRange? size).isNone
    | .error _ => true

/-- Every index list stays within the source of its register. -/
def InRange (t : Registers) : Prop := ∀ r ∈ t.values, t.shows r = true

/-- Every fundamental register is filed under the name that it carries. -/
def OwnNames (t : Registers) : Prop := ∀ e ∈ t.items, e.2.isFundamental = true → e.2.name = e.1

instance (t : Registers) : Decidable t.InRange := inferInstanceAs (Decidable (∀ _ ∈ _, _))

instance (t : Registers) : Decidable t.OwnNames := inferInstanceAs (Decidable (∀ _ ∈ _, _ → _))

variable {t : Registers} {name source origin : String} {selection : Selection} {steps more n i size : Nat}

theorem InRange.outOfRange? (ht : t.InRange) {carried : String}
    (hname : t.get? name = some ⟨carried, .mapped source selection⟩) (hsize : t.sizeOf source = .ok size) :
    selection.outOfRange? size = none := by
  have hmem : (⟨carried, .mapped source selection⟩ : Register) ∈ t.values :=
    List.mem_map_of_mem (Table.get?_eq_some_iff.1 hname)
  have hshows := ht _ hmem
  simp only [shows, hsize] at hshows
  simpa using hshows

/-- A size that is found within some steps is found within more. -/
theorem sizeWithin_mono (h : t.sizeWithin steps name = .ok n) (hle : steps ≤ more) :
    t.sizeWithin more name = .ok n := by
  induction steps generalizing name n more with
  | zero => simp [sizeWithin] at h
  | succ steps ih =>
    obtain ⟨more, rfl⟩ : ∃ k, more = k + 1 := ⟨more - 1, by omega⟩
    simp only [sizeWithin] at h ⊢
    split at h
    · cases h
    · exact h
    · obtain ⟨m, hsource, rfl⟩ := map_eq_ok_iff.1 h
      rw [ih hsource (by omega)]
      rfl

/-- Sizes and resolution follow the same sources, so a slot within the size of its register is found. -/
theorem InRange.exists_resolveWithin (ht : t.InRange) (hsteps : steps ≤ t.size + 1)
    (hsize : t.sizeWithin steps name = .ok n) (hi : i < n) : ∃ p, t.resolveWithin origin steps name i = .ok p := by
  induction steps generalizing name n i with
  | zero => simp [sizeWithin] at hsize
  | succ steps ih =>
    simp only [sizeWithin] at hsize
    simp only [resolveWithin]
    split at hsize
    · cases hsize
    · rename_i hfundamental
      cases hsize
      exact ⟨⟨name, i⟩, by simp [hi]⟩
    · rename_i carried source selection hmapped
      obtain ⟨m, hsource, rfl⟩ := map_eq_ok_iff.1 hsize
      have hsizeOf : t.sizeOf source = .ok m := sizeWithin_mono hsource (by omega)
      have hlt : selection.sourceIndex ⟨i, hi⟩ < m :=
        Selection.sourceIndex_lt (ht.outOfRange? hmapped hsizeOf) ⟨i, hi⟩
      obtain ⟨p, hp⟩ := ih (by omega) hsource hlt
      exact ⟨p, by simpa [hsizeOf, hi] using hp⟩

theorem InRange.exists_resolve (ht : t.InRange) {q : Qubit} (h : t.qubit q.register q.index = .ok q) :
    ∃ p, t.resolve q = .ok p := by
  simp only [qubit, bind_eq_ok_iff] at h
  obtain ⟨size, hsize, h⟩ := h
  by_cases hi : q.index < size
  · exact ht.exists_resolveWithin (Nat.le_refl _) hsize hi
  · simp [hi] at h

/-- What a slot resolves to is a place in a fundamental register. -/
theorem get?_of_resolveWithin {p : PhysicalQubit} (h : t.resolveWithin origin steps name i = .ok p) :
    ∃ carried size, t.get? p.register = some ⟨carried, .fundamental size⟩ ∧ p.index < size := by
  induction steps generalizing name i with
  | zero => simp [resolveWithin] at h
  | succ steps ih =>
    simp only [resolveWithin] at h
    split at h
    · cases h
    · rename_i carried size hfundamental
      split at h
      · cases h
        exact ⟨carried, size, hfundamental, by assumption⟩
      · cases h
    · split at h
      · cases h
      · split at h
        · exact ih h
        · cases h

theorem OwnNames.mem_fundamental (ht : t.OwnNames) {carried : String}
    (h : t.get? name = some ⟨carried, .fundamental size⟩) : (name, size) ∈ t.fundamental := by
  have hmem := Table.get?_eq_some_iff.1 h
  have hcarried : carried = name := ht _ hmem rfl
  refine List.mem_filterMap.2 ⟨⟨carried, .fundamental size⟩, List.mem_map_of_mem hmem, ?_⟩
  simp [hcarried]

end Registers

theorem Usage.mem_ofList {slots : List Slot} {x : Slot} : x ∈ Usage.ofList slots ↔ x ∈ slots := by
  suffices h : ∀ u : Usage, x ∈ slots.foldl (fun u s => u.insert s) u ↔ x ∈ u ∨ x ∈ slots by
    simpa [Usage.ofList] using h ∅
  induction slots with
  | nil => simp
  | cons s rest ih =>
    intro u
    simp only [List.foldl_cons, ih, Std.ExtTreeSet.mem_insert, Std.LawfulEqCmp.compare_eq_iff_eq, List.mem_cons]
    rw [or_assoc, or_left_comm, eq_comm]

namespace Universe

variable {u : Universe} {x : Slot} {name : String}

theorem mem_full_addGroup {group : SlotGroup} {size : Nat} :
    x ∈ (u.addGroup group size).full ↔ x ∈ u.full ∨ x.group = group ∧ x.index < size := by
  simp only [addGroup, Std.ExtTreeSet.mem_union_iff, Usage.mem_ofList, List.mem_map, List.mem_range]
  refine or_congr_right ⟨?_, ?_⟩
  · rintro ⟨i, hi, rfl⟩
    exact ⟨rfl, hi⟩
  · rintro ⟨rfl, hi⟩
    exact ⟨x.index, hi, rfl⟩

theorem any_setSize {group other : SlotGroup} {size : Nat} {groups : List (SlotGroup × Nat)} :
    ((setSize group size groups).any fun entry => entry.1 = other) =
      (groups.any (fun entry => entry.1 = other) || decide (group = other)) := by
  induction groups with
  | nil => simp [setSize]
  | cons entry rest ih =>
    obtain ⟨g, n⟩ := entry
    by_cases hg : g = group
    · subst hg
      by_cases hother : g = other <;> simp [setSize, hother]
    · simp only [setSize, hg, if_false, List.any_cons, ih, Bool.or_assoc]

/-- Every slot of a universe of registers belongs to a fundamental register. -/
theorem mem_full_ofRegisters {t : Registers} :
    x ∈ (ofRegisters t).full ↔ ∃ e ∈ t.fundamental, x.group = .register e.1 ∧ x.index < e.2 := by
  suffices h : ∀ (entries : List (String × Nat)) (u : Universe),
      x ∈ (entries.foldl (fun u e => u.addGroup (.register e.1) e.2) u).full ↔
        x ∈ u.full ∨ ∃ e ∈ entries, x.group = .register e.1 ∧ x.index < e.2 by
    refine (h t.fundamental ⟨t, [], ∅⟩).trans ?_
    simp
  intro entries
  induction entries with
  | nil => simp
  | cons e rest ih =>
    intro u
    simp only [List.foldl_cons, ih, mem_full_addGroup, List.mem_cons, exists_eq_or_imp, or_assoc]

theorem registers_ofRegisters (t : Registers) : (ofRegisters t).registers = t := by
  suffices h : ∀ (entries : List (String × Nat)) (u : Universe),
      (entries.foldl (fun u e => u.addGroup (.register e.1) e.2) u).registers = u.registers from
    h t.fundamental ⟨t, [], ∅⟩
  intro entries
  induction entries with
  | nil => exact fun _ => rfl
  | cons e rest ih => exact fun u => ih _

theorem hasParameter_ofRegisters (t : Registers) : (ofRegisters t).hasParameter name = false := by
  suffices h : ∀ (entries : List (String × Nat)) (u : Universe), u.hasParameter name = false →
      (entries.foldl (fun u e => u.addGroup (.register e.1) e.2) u).hasParameter name = false from
    h t.fundamental ⟨t, [], ∅⟩ rfl
  intro entries
  induction entries with
  | nil => exact fun _ hu => hu
  | cons e rest ih =>
    intro u hu
    refine ih _ ?_
    simpa [hasParameter, addGroup, any_setSize] using hu

variable {parameters : List String}

theorem mem_full_withParameters :
    x ∈ (u.withParameters parameters).full ↔ x ∈ u.full ∨ ∃ name ∈ parameters, x = ⟨.parameter name, 0⟩ := by
  unfold withParameters
  induction parameters generalizing u with
  | nil => simp
  | cons p rest ih =>
    have hslot : x.group = .parameter p ∧ x.index < 1 ↔ x = ⟨.parameter p, 0⟩ := by
      cases x
      simp
    rw [List.foldl_cons, ih, mem_full_addGroup, hslot]
    simp only [List.mem_cons, exists_eq_or_imp, or_assoc]

theorem registers_withParameters : (u.withParameters parameters).registers = u.registers := by
  unfold withParameters
  induction parameters generalizing u with
  | nil => rfl
  | cons p rest ih => exact ih

theorem hasParameter_withParameters :
    (u.withParameters parameters).hasParameter name = true ↔ u.hasParameter name = true ∨ name ∈ parameters := by
  unfold withParameters
  induction parameters generalizing u with
  | nil => simp
  | cons p rest ih =>
    have hadd : (u.addGroup (.parameter p) 1).hasParameter name = true ↔ u.hasParameter name = true ∨ name = p := by
      simp only [hasParameter, addGroup, any_setSize, Bool.or_eq_true, decide_eq_true_eq, SlotGroup.parameter.injEq]
      rw [eq_comm (a := p)]
    rw [List.foldl_cons, ih, hadd, List.mem_cons, or_assoc]

end Universe

end IonSchedule
