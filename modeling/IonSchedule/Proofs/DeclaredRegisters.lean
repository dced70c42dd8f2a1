import IonSchedule.Proofs.Declarations
import IonSchedule.Proofs.SourceChains

/-! # Registers that are declared step by step

A register stands for a list of places in fundamental registers: a fundamental register for its own places in
order, and a mapped register for what its selection takes from the list of its source. In a table that was
declared step by step, every register has such a list, its size is the length of the list, its slots resolve to
the entries of the list, and a slot beyond the end is refused. On the way, no number is computed that the
register it counts in does not have.
-/
namespace IonSchedule

namespace Selection

variable {α : Type} {selection : Selection} {slots : List α} {start stop step source i : Nat}

/-- The positions `start, start + step, …` below `stop`; none if `step` is zero. -/
def strided (start stop step : Nat) : List Nat :=
  if step = 0 then [] else (List.range stop).filter fun p => start ≤ p ∧ step ∣ p - start

/-- The entries of a list that are shown. -/
def select : Selection → List α → List α
  | .whole, slots => slots
  | .slice start stop step, slots => (strided start (min stop slots.length) step).filterMap (slots[·]?)
  | .indices positions, slots => positions.filterMap (slots[·]?)

theorem mem_strided_iff {p : Nat} (hstep : 0 < step) :
    p ∈ strided start stop step ↔ p < stop ∧ ∃ i, p = start + i * step := by
  simp only [strided, Nat.ne_of_gt hstep, if_false, List.mem_filter, List.mem_range, decide_eq_true_eq]
  refine and_congr_right fun _ => ⟨?_, ?_⟩
  · rintro ⟨hle, i, hi⟩
    exact ⟨i, by rw [Nat.mul_comm]; omega⟩
  · rintro ⟨i, rfl⟩
    exact ⟨Nat.le_add_right _ _, i, by rw [Nat.mul_comm]; omega⟩

/-- A number of steps stays below the stop exactly if it is below the size. -/
theorem lt_size_slice_iff (hstep : 0 < step) :
    i < (slice start stop step).size source ↔ start + i * step < min stop source := by
  simp only [size, Nat.ne_of_gt hstep, false_or]
  split
  · omega
  · rw [Nat.lt_iff_add_one_le, Nat.le_div_iff_mul_le hstep, Nat.succ_mul]
    omega

theorem strided_eq_map_range (hstep : 0 < step) (source : Nat) :
    strided start (min stop source) step =
      (List.range ((slice start stop step).size source)).map fun i => start + i * step := by
  have hleft : (strided start (min stop source) step).Pairwise (· < ·) := by
    rw [strided, if_neg (Nat.ne_of_gt hstep)]
    exact List.pairwise_lt_range.filter _
  have hright : ((List.range ((slice start stop step).size source)).map fun i => start + i * step).Pairwise
      (· < ·) :=
    List.pairwise_lt_range.map _ fun a b hab => Nat.add_lt_add_left (Nat.mul_lt_mul_of_pos_right hab hstep) start
  -- both lists increase, so it is enough that they have the same entries
  refine List.Perm.eq_of_pairwise (fun a b _ _ hab hba => absurd hab (Nat.lt_asymm hba)) hleft hright ?_
  refine (List.perm_ext_iff_of_nodup (hleft.imp Nat.ne_of_lt) (hright.imp Nat.ne_of_lt)).2 fun p => ?_
  rw [mem_strided_iff hstep, List.mem_map]
  constructor
  · rintro ⟨hp, i, rfl⟩
    exact ⟨i, List.mem_range.2 ((lt_size_slice_iff hstep).2 hp), rfl⟩
  · rintro ⟨i, hi, rfl⟩
    exact ⟨(lt_size_slice_iff hstep).1 (List.mem_range.1 hi), i, rfl⟩

/-- Positions within the slots all have an entry, so that the entries are as many and in the same order. -/
theorem map_some_filterMap {places : List Nat} (h : ∀ p ∈ places, p < slots.length) :
    (places.filterMap (slots[·]?)).map some = places.map (slots[·]?) := by
  induction places with
  | nil => rfl
  | cons p rest ih =>
    obtain ⟨entry, hp⟩ : ∃ entry, slots[p]? = some entry := ⟨_, List.getElem?_eq_getElem (h p List.mem_cons_self)⟩
    rw [List.filterMap_cons_some hp, List.map_cons, List.map_cons, hp,
      ih fun q hq => h q (List.mem_cons_of_mem p hq)]

theorem length_filterMap {places : List Nat} (h : ∀ p ∈ places, p < slots.length) :
    (places.filterMap (slots[·]?)).length = places.length := by
  simpa using congrArg List.length (map_some_filterMap h)

theorem getElem?_filterMap {places : List Nat} (h : ∀ p ∈ places, p < slots.length) {p : Nat}
    (hp : places[i]? = some p) :
    (places.filterMap (slots[·]?))[i]? = slots[p]? := by
  have hi := congrArg (·[i]?) (map_some_filterMap h)
  simp only [List.getElem?_map, hp, Option.map_some, Option.map_eq_some_iff] at hi
  obtain ⟨entry, hentry, heq⟩ := hi
  rw [hentry, heq]

theorem lt_of_mem_strided (hstep : 0 < step) : ∀ p ∈ strided start (min stop source) step, p < source := by
  intro p hp
  have hlt := ((mem_strided_iff hstep).1 hp).1
  omega

/-- The size of a selection counts what is shown of a list. -/
theorem length_select (h : selection.outOfRange? slots.length = none) :
    (selection.select slots).length = selection.size slots.length := by
  cases selection with
  | whole => rfl
  | slice start stop step =>
    rcases Nat.eq_zero_or_pos step with rfl | hstep
    · simp [select, strided, size]
    · rw [select, length_filterMap (lt_of_mem_strided hstep), strided_eq_map_range hstep, List.length_map,
        List.length_range]
  | indices places => exact length_filterMap (lt_of_outOfRange? h)

/-- What is shown at a slot is the entry at its place in the source. -/
theorem getElem?_select (h : selection.outOfRange? slots.length = none) (i : Fin (selection.size slots.length)) :
    (selection.select slots)[(i : Nat)]? = slots[selection.sourceIndex i]? := by
  obtain ⟨i, hi⟩ := i
  cases selection with
  | whole => rfl
  | slice start stop step =>
    have hstep : 0 < step := by
      refine Nat.pos_of_ne_zero fun hzero => ?_
      simp [size, hzero] at hi
    refine getElem?_filterMap (lt_of_mem_strided hstep) ?_
    rw [strided_eq_map_range hstep, List.getElem?_map, List.getElem?_range hi]
    rfl
  | indices places => exact getElem?_filterMap (lt_of_outOfRange? h) (List.getElem?_eq_getElem hi)

/-- No number on the way to the place of a slot reaches the size of the source. -/
theorem workings_lt (h : selection.outOfRange? source = none) (i : Fin (selection.size source)) :
    ∀ x ∈ selection.workings i, x < source := by
  have hlt := sourceIndex_lt h i
  cases selection with
  | whole => exact List.forall_mem_singleton.2 hlt
  | slice start stop step =>
    simp only [workings, List.mem_cons, List.not_mem_nil, or_false, forall_eq_or_imp, forall_eq]
    exact ⟨Nat.lt_of_le_of_lt (Nat.le_add_left _ _) hlt, hlt⟩
  | indices places =>
    intro x hx
    exact lt_of_outOfRange? h x (List.mem_of_getElem? (Option.mem_toList.1 hx))

end Selection

namespace Registers

variable {t t' : Registers} {name : String} {slots : List PhysicalQubit}

/-- The places that a register stands for, in the order of its slots. -/
inductive Denotes (t : Registers) : String → List PhysicalQubit → Prop
  | fundamental {name carried : String} {size : Nat} (found : t.get? name = some ⟨carried, .fundamental size⟩) :
      Denotes t name ((List.range size).map fun i => ⟨name, i⟩)
  | mapped {name carried source : String} {selection : Selection} {slots : List PhysicalQubit}
      (found : t.get? name = some ⟨carried, .mapped source selection⟩) (shown : Denotes t source slots) :
      Denotes t name (selection.select slots)

theorem IsGrounded.exists_denotes (h : t.IsGrounded name) : ∃ slots, t.Denotes name slots := by
  obtain ⟨last, carried, size, hleads, hlast⟩ := h
  induction hleads using Relation.ReflTransGen.head_induction_on with
  | refl => exact ⟨_, .fundamental hlast⟩
  | head hsource _ ih =>
    obtain ⟨slots, hslots⟩ := ih
    obtain ⟨carried', selection, hget⟩ := source?_eq_some_iff.1 hsource
    exact ⟨selection.select slots, .mapped hget hslots⟩

theorem Denotes.sizeOf (h : t.Denotes name slots) (ht : t.InRange) : t.sizeOf name = .ok slots.length := by
  induction h with
  | fundamental found => simp only [Registers.sizeOf, sizeWithin, found, List.length_map, List.length_range]
  | mapped found shown ih => rw [sizeOf_of_mapped found ih, Selection.length_select (ht.outOfRange? found ih)]

theorem Denotes.resolve (h : t.Denotes name slots) (ht : t.InRange) {i : Nat} {p : PhysicalQubit}
    (hp : slots[i]? = some p) : t.resolve ⟨name, i⟩ = .ok p := by
  induction h generalizing i with
  | @fundamental name carried size found =>
    obtain ⟨hi, rfl⟩ := List.getElem?_eq_some_iff.1 hp
    rw [List.length_map, List.length_range] at hi
    rw [resolve_of_fundamental found, if_pos hi, List.getElem_map, List.getElem_range]
  | @mapped name carried source selection slots found shown ih =>
    have hsource := shown.sizeOf ht
    have hrange := ht.outOfRange? found hsource
    have hi : i < selection.size slots.length := by
      rw [← Selection.length_select hrange]
      exact (List.getElem?_eq_some_iff.1 hp).1
    rw [resolve_of_mapped found hsource, dif_pos hi]
    exact ih ((Selection.getElem?_select hrange ⟨i, hi⟩).symm.trans hp)

theorem Denotes.resolve_of_le (h : t.Denotes name slots) (ht : t.InRange) {i : Nat} (hi : slots.length ≤ i) :
    t.resolve ⟨name, i⟩ = .error (.qubitOutOfRange name i slots.length) := by
  cases h with
  | fundamental found =>
    rw [List.length_map, List.length_range] at hi ⊢
    rw [resolve_of_fundamental found, if_neg (Nat.not_lt.2 hi)]
  | mapped found shown =>
    have hsource := shown.sizeOf ht
    rw [Selection.length_select (ht.outOfRange? found hsource)] at hi ⊢
    rw [resolve_of_mapped found hsource, dif_neg (Nat.not_lt.2 hi)]

theorem qubit_of_lt {size i : Nat} (hsize : t.sizeOf name = .ok size) (hi : i < size) :
    t.qubit name i = .ok ⟨name, i⟩ := by
  rw [qubit, hsize]
  exact if_pos hi

theorem qubit_of_le {size i : Nat} (hsize : t.sizeOf name = .ok size) (hi : size ≤ i) :
    t.qubit name i = .error (.qubitOutOfRange name i size) := by
  rw [qubit, hsize]
  exact if_neg (Nat.not_lt.2 hi)

/-- The register has the slot. -/
def HasSlot (t : Registers) (q : Qubit) : Prop := ∃ size, t.sizeOf q.register = .ok size ∧ q.index < size

/-- A slot that a register has shows a slot that its source has. -/
theorem InRange.hasSlot_of_follows (ht : t.InRange) {q r : Qubit} (h : t.Follows q r) (hq : t.HasSlot q) :
    t.HasSlot r := by
  cases h with
  | @shown carried source selection i mapped place =>
    obtain ⟨size, hsize, hlt⟩ := hq
    obtain ⟨n, hn, rfl⟩ := exists_sizeOf_source mapped hsize
    rw [selection.place?_eq_sourceIndex ⟨q.index, hlt⟩] at place
    cases place
    exact ⟨n, hn, Selection.sourceIndex_lt (ht.outOfRange? mapped hn) _⟩

theorem InRange.hasSlot_of_reaches (ht : t.InRange) {q r : Qubit} (h : Relation.ReflTransGen t.Follows q r)
    (hq : t.HasSlot q) : t.HasSlot r := by
  induction h with
  | refl => exact hq
  | tail _ hstep ih => exact ht.hasSlot_of_follows hstep ih

/-- All numbers that are computed for a slot of a mapped register are below the size of its source. -/
theorem InRange.exists_workings_lt (ht : t.InRange) {q : Qubit} (hq : t.HasSlot q) {carried source : String}
    {selection : Selection} (h : t.get? q.register = some ⟨carried, .mapped source selection⟩) :
    ∃ n, t.sizeOf source = .ok n ∧ ∀ x ∈ selection.workings q.index, x < n := by
  obtain ⟨size, hsize, hlt⟩ := hq
  obtain ⟨n, hn, rfl⟩ := exists_sizeOf_source h hsize
  exact ⟨n, hn, Selection.workings_lt (ht.outOfRange? h hn) ⟨q.index, hlt⟩⟩

/-! ## Declarations -/

inductive Declaration where
  | fundamental (name : String) (size : Nat)
  | mapped (name source : String) (selection : Selection)

def tryDeclare (t : Registers) : Declaration → Except CircuitError Registers
  | .fundamental name size => t.declareFundamental name size
  | .mapped name source selection => t.declareMapped name source selection

/-- The table after some declarations, of which those that fail change nothing. -/
def declareAll (t : Registers) : List Declaration → Registers
  | [] => t
  | d :: rest => (match t.tryDeclare d with
    | .ok t => t
    | .error _ => t).declareAll rest

theorem IsSourced.tryDeclare (ht : t.IsSourced) {d : Declaration} (h : t.tryDeclare d = .ok t') : t'.IsSourced := by
  cases d with
  | fundamental name size => exact ht.declare h (by simp)
  | mapped name source selection =>
    obtain ⟨size, hsize, hrange, hdeclare⟩ := declareMapped_eq_ok_iff.1 h
    exact ht.declareMapped hsize hrange hdeclare

theorem IsSourced.declareAll (ht : t.IsSourced) (declarations : List Declaration) :
    (t.declareAll declarations).IsSourced := by
  induction declarations generalizing t with
  | nil => exact ht
  | cons d rest ih =>
    rw [Registers.declareAll]
    apply ih
    split
    · rename_i hd
      exact ht.tryDeclare hd
    · exact ht

theorem IsSourced.isGrounded (ht : t.IsSourced) (h : name ∈ t.names) : t.IsGrounded name := by
  obtain ⟨⟨key, carried, kind⟩, hentry, rfl⟩ := List.mem_map.1 h
  have hget := Table.get?_eq_some_iff.2 hentry
  cases kind with
  | fundamental size => exact ⟨key, carried, size, .refl, hget⟩
  | mapped source selection =>
    obtain ⟨size, hsize, -⟩ := ht _ (List.mem_map_of_mem hentry) source selection rfl
    exact (exists_sizeOf_iff.1 ⟨size, hsize⟩).of_source? (source?_eq_some_iff.2 ⟨carried, selection, hget⟩)

/-- However a table was declared, each of its registers stands for a list of places. The size of the register is
the length of the list, a slot resolves to the entry of the list, and a slot beyond the end is refused by name.
From a slot that the register has, resolution computes only numbers that are below the size of the register that
they count in. -/
theorem declared_register_resolves {t : Registers} {declarations : List Declaration}
    (ht : declareAll .empty declarations = t) {name : String} (hname : name ∈ t.names) :
    (∃ slots, t.Denotes name slots) ∧
    ∀ slots, t.Denotes name slots →
      t.sizeOf name = .ok slots.length ∧
      (∀ i p, slots[i]? = some p → t.resolve ⟨name, i⟩ = .ok p ∧ t.qubit name i = .ok ⟨name, i⟩) ∧
      (∀ i, slots.length ≤ i →
        t.resolve ⟨name, i⟩ = .error (.qubitOutOfRange name i slots.length) ∧
        t.qubit name i = .error (.qubitOutOfRange name i slots.length)) ∧
      ∀ i < slots.length, ∀ q, Relation.ReflTransGen t.Follows ⟨name, i⟩ q →
        ∀ carried source selection, t.get? q.register = some ⟨carried, .mapped source selection⟩ →
          ∃ n, t.sizeOf source = .ok n ∧ ∀ x ∈ selection.workings q.index, x < n := by
  have hsourced : t.IsSourced := ht ▸ isSourced_empty.declareAll declarations
  have hrange := hsourced.inRange
  refine ⟨(hsourced.isGrounded hname).exists_denotes, fun slots hslots => ?_⟩
  have hsize := hslots.sizeOf hrange
  refine ⟨hsize, fun i p hp => ⟨hslots.resolve hrange hp, ?_⟩, fun i hi => ⟨hslots.resolve_of_le hrange hi, ?_⟩, ?_⟩
  · exact qubit_of_lt hsize (List.getElem?_eq_some_iff.1 hp).1
  · exact qubit_of_le hsize hi
  · intro i hi q hreaches carried source selection hget
    exact hrange.exists_workings_lt (hrange.hasSlot_of_reaches hreaches ⟨_, hsize, hi⟩) hget

/-- Two of these declarations fail: a name is taken, and a list asks for more slots than there are. -/
def sampleDeclarations : List Declaration :=
  [.fundamental "q" 7, .mapped "odd" "q" (.slice 1 9 2), .fundamental "odd" 3, .mapped "far" "odd" (.indices [3]),
    .mapped "pick" "odd" (.indices [2, 0])]

theorem declared_register_resolves_sample :
    ∃ t : Registers, declareAll .empty sampleDeclarations = t ∧ t.names = ["q", "odd", "pick"] ∧
      t.sizeOf "pick" = .ok 2 ∧ t.resolve ⟨"pick", 0⟩ = .ok ⟨"q", 5⟩ := by
  refine ⟨_, rfl, by decide +kernel, ?_⟩
  have hslots : (declareAll .empty sampleDeclarations).Denotes "pick" [⟨"q", 5⟩, ⟨"q", 1⟩] := by
    have hq : (declareAll .empty sampleDeclarations).get? "q" = some ⟨"q", .fundamental 7⟩ := by decide +kernel
    have hodd : (declareAll .empty sampleDeclarations).get? "odd" = some ⟨"odd", .mapped "q" (.slice 1 9 2)⟩ := by
      decide +kernel
    have hpick : (declareAll .empty sampleDeclarations).get? "pick" =
        some ⟨"pick", .mapped "odd" (.indices [2, 0])⟩ := by
      decide +kernel
    exact .mapped hpick (.mapped hodd (.fundamental hq))
  have hresolves := (declared_register_resolves rfl (by decide +kernel)).2 _ hslots
  exact ⟨hresolves.1, (hresolves.2.1 0 _ rfl).1⟩

end Registers

end IonSchedule
