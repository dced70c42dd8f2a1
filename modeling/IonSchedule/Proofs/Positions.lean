import IonSchedule.Proofs.Plan

/-! # Positions of statements

What is inside a statement has a position: the number of a part, then of a part of that part, and so on.
Positions tell equal calls apart, and of two gates whose positions part at a sequential block, the one in the
earlier part runs first. A statement under construction grows at its end only, so what it holds keeps its
position.
-/
namespace IonSchedule

namespace Statement

/-- The statements directly inside a statement. -/
def parts : Statement → List Statement
  | .gate _ => []
  | .block _ statements => statements
  | .loop _ _ body => body

/-- The statement without what is inside it. -/
def hollow : Statement → Statement
  | .gate g => .gate g
  | .block kind _ => .block kind []
  | .loop count kind _ => .loop count kind []

/-- The parts run one after another. -/
def runsInOrder : Statement → Bool
  | .gate _ => false
  | .block kind _ => kind = .sequential
  | .loop _ kind _ => kind = .sequential

/-- What is at a position inside a statement. -/
def at? : Statement → List Nat → Option Statement
  | s, [] => some s
  | s, i :: path => s.parts[i]?.bind (at? · path)

variable {s s' s'' t : Statement} {ss ss' : List Statement} {path : List Nat}

theorem at?_cons_eq_some_iff {i : Nat} :
    s.at? (i :: path) = some t ↔ ∃ a, s.parts[i]? = some a ∧ a.at? path = some t := by
  rw [at?, Option.bind_eq_some_iff]

theorem at?_append_eq_some_iff {rest : List Nat} :
    s.at? (path ++ rest) = some t ↔ ∃ a, s.at? path = some a ∧ a.at? rest = some t := by
  induction path generalizing s with
  | nil => simp [at?]
  | cons i path ih =>
    simp only [List.cons_append, at?_cons_eq_some_iff, ih]
    constructor
    · rintro ⟨a, ha, b, hb, ht⟩
      exact ⟨b, ⟨a, ha, hb⟩, ht⟩
    · rintro ⟨b, ⟨a, ha, hb⟩, ht⟩
      exact ⟨a, ha, b, hb, ht⟩

theorem runsInOrder_hollow (s : Statement) : s.hollow.runsInOrder = s.runsInOrder := by cases s <;> rfl

theorem eq_gate_of_hollow {g : GateCall} (h : s.hollow = .gate g) : s = .gate g := by
  cases s with
  | gate g' => exact h
  | block kind ss => simp [hollow] at h
  | loop count kind body => simp [hollow] at h

/-- What the first statement holds at a position, the second one holds there too, perhaps with more inside. -/
def Within (s s' : Statement) : Prop :=
  ∀ path t, s.at? path = some t → ∃ t', s'.at? path = some t' ∧ t'.hollow = t.hollow

theorem Within.refl (s : Statement) : s.Within s := fun _ t ht => ⟨t, ht, rfl⟩

theorem Within.trans (h : s.Within s') (h' : s'.Within s'') : s.Within s'' := by
  intro path t ht
  obtain ⟨t', ht', hhollow⟩ := h path t ht
  obtain ⟨t'', ht'', hhollow'⟩ := h' path t' ht'
  exact ⟨t'', ht'', hhollow'.trans hhollow⟩

theorem Within.at?_gate (h : s.Within s') {g : GateCall} (hg : s.at? path = some (.gate g)) :
    s'.at? path = some (.gate g) := by
  obtain ⟨t', ht', hhollow⟩ := h path _ hg
  rw [ht', eq_gate_of_hollow hhollow]

theorem Within.exists_runsInOrder (h : s.Within s') (ht : s.at? path = some t) (hseq : t.runsInOrder = true) :
    ∃ t', s'.at? path = some t' ∧ t'.runsInOrder = true := by
  obtain ⟨t', ht', hhollow⟩ := h path t ht
  refine ⟨t', ht', ?_⟩
  rw [← runsInOrder_hollow, hhollow, runsInOrder_hollow, hseq]

/-- The same for the parts of two statements. -/
def WithinAll (ss ss' : List Statement) : Prop :=
  ∀ (i : Nat) (a : Statement), ss[i]? = some a → ∃ a', ss'[i]? = some a' ∧ a.Within a'

theorem WithinAll.within (h : WithinAll s.parts s'.parts) (hhollow : s'.hollow = s.hollow) : s.Within s' := by
  intro path t ht
  cases path with
  | nil =>
    rw [at?, Option.some.injEq] at ht
    subst ht
    exact ⟨s', rfl, hhollow⟩
  | cons i path =>
    obtain ⟨a, ha, ht⟩ := at?_cons_eq_some_iff.1 ht
    obtain ⟨a', ha', hwithin⟩ := h i a ha
    obtain ⟨t', ht', hh⟩ := hwithin path t ht
    exact ⟨t', at?_cons_eq_some_iff.2 ⟨a', ha', ht'⟩, hh⟩

theorem WithinAll.nil (ss : List Statement) : WithinAll [] ss := by
  intro i a ha
  simp at ha

theorem WithinAll.cons (h : s.Within s') (hrest : WithinAll ss ss') : WithinAll (s :: ss) (s' :: ss') := by
  intro i a ha
  cases i with
  | zero =>
    rw [List.getElem?_cons_zero, Option.some.injEq] at ha
    subst ha
    exact ⟨s', rfl, h⟩
  | succ i => exact hrest i a ha

theorem WithinAll.append_left (pre : List Statement) (h : WithinAll ss ss') :
    WithinAll (pre ++ ss) (pre ++ ss') := by
  induction pre with
  | nil => exact h
  | cons s pre ih => exact .cons (.refl s) ih

end Statement

open Statement

namespace Plan

mutual

/-- Labels each call with its position, behind the given one. -/
def locate : List Nat → Statement → Plan (List Nat)
  | path, .gate g => .gate path g
  | path, .block kind statements => .block kind (locateAll path 0 statements)
  | path, .loop count kind body => .loop count kind (locateAll path 0 body)

/-- Labels the calls of parts numbered from the given number on. -/
def locateAll : List Nat → Nat → List Statement → List (Plan (List Nat))
  | _, _, [] => []
  | path, n, s :: rest => locate (path ++ [n]) s :: locateAll path (n + 1) rest

end

mutual

theorem erase_locate : (path : List Nat) → (s : Statement) → erase (locate path s) = s
  | _, .gate g => by rw [locate, erase]
  | path, .block kind ss => by rw [locate, erase, eraseAll_locateAll path 0 ss]
  | path, .loop count kind body => by rw [locate, erase, eraseAll_locateAll path 0 body]

theorem eraseAll_locateAll :
    (path : List Nat) → (n : Nat) → (ss : List Statement) → eraseAll (locateAll path n ss) = ss
  | _, _, [] => by rw [locateAll, eraseAll]
  | path, n, s :: rest => by rw [locateAll, eraseAll, erase_locate, eraseAll_locateAll path (n + 1) rest]

end

variable {path : List Nat} {x y : List Nat × GateCall} {s t : Statement} {ss : List Statement}

theorem getElem?_locateAll (path : List Nat) (n k : Nat) (ss : List Statement) :
    (locateAll path n ss)[k]? = ss[k]?.map (locate (path ++ [n + k])) := by
  induction ss generalizing n k with
  | nil => simp [locateAll]
  | cons s rest ih =>
    cases k with
    | zero => simp [locateAll]
    | succ k => simp [locateAll, ih, Nat.add_comm, Nat.add_left_comm]

theorem locate_mem_locateAll (path : List Nat) {i : Nat} (h : ss[i]? = some s) :
    locate (path ++ [i]) s ∈ locateAll path 0 ss := by
  refine List.mem_of_getElem? (i := i) ?_
  rw [getElem?_locateAll, h, Nat.zero_add, Option.map_some]

theorem mem_calls_locate_of_parts (h : x ∈ callsAll (locateAll path 0 s.parts)) : x ∈ calls (locate path s) := by
  cases s with
  | gate g => simp [parts, locateAll, callsAll] at h
  | block kind ss => exact h
  | loop count kind body => exact h

theorem mem_calls_locate {inner : List Nat} {g : GateCall} (h : s.at? inner = some (.gate g)) :
    (path ++ inner, g) ∈ calls (locate path s) := by
  induction inner generalizing s path with
  | nil =>
    rw [at?, Option.some.injEq] at h
    simp [h, locate, calls]
  | cons i rest ih =>
    obtain ⟨a, ha, hg⟩ := at?_cons_eq_some_iff.1 h
    have hmem : (path ++ [i] ++ rest, g) ∈ calls (locate (path ++ [i]) a) := ih hg
    rw [List.append_assoc, List.singleton_append] at hmem
    exact mem_calls_locate_of_parts (mem_callsAll_iff.2 ⟨_, locate_mem_locateAll path ha, hmem⟩)

theorem before_locate_of_parts (h : AnyBefore x y (locateAll path 0 s.parts)) : Before x y (locate path s) := by
  cases s with
  | gate g => exact h
  | block kind ss => exact .inr h
  | loop count kind body => exact .inr h

theorem before_locate_of_splits (hseq : s.runsInOrder = true) (h : Splits x y (locateAll path 0 s.parts)) :
    Before x y (locate path s) := by
  cases s with
  | gate g => simp [runsInOrder] at hseq
  | block kind ss => exact .inl ⟨by simpa [runsInOrder] using hseq, h⟩
  | loop count kind body => exact .inl ⟨by simpa [runsInOrder] using hseq, h⟩

/-- Two gates whose positions part at a sequential block run in the order of the parts. -/
theorem before_locate (path : List Nat) {base p q : List Nat} {m n : Nat} {g h : GateCall}
    (hbase : s.at? base = some t) (hseq : t.runsInOrder = true) (hg : s.at? (base ++ m :: p) = some (.gate g))
    (hh : s.at? (base ++ n :: q) = some (.gate h)) (hmn : m < n) :
    Before (path ++ (base ++ m :: p), g) (path ++ (base ++ n :: q), h) (locate path s) := by
  induction base generalizing s path with
  | nil =>
    rw [at?, Option.some.injEq] at hbase
    subst hbase
    obtain ⟨a, ha, hg⟩ := at?_cons_eq_some_iff.1 hg
    obtain ⟨b, hb, hh⟩ := at?_cons_eq_some_iff.1 hh
    have hfirst : (path ++ [m] ++ p, g) ∈ calls (locate (path ++ [m]) a) := mem_calls_locate hg
    have hsecond : (path ++ [n] ++ q, h) ∈ calls (locate (path ++ [n]) b) := mem_calls_locate hh
    simp only [List.append_assoc, List.singleton_append] at hfirst hsecond
    refine before_locate_of_splits hseq ⟨_, _, (List.take_append_drop n _).symm, ?_, ?_⟩
    · refine mem_callsAll_iff.2 ⟨_, List.mem_of_getElem? (i := m) ?_, hfirst⟩
      rw [List.getElem?_take_of_lt hmn, getElem?_locateAll, ha, Nat.zero_add, Option.map_some]
    · refine mem_callsAll_iff.2 ⟨_, List.mem_of_getElem? (i := 0) ?_, hsecond⟩
      rw [List.getElem?_drop, getElem?_locateAll, Nat.add_zero, hb, Nat.zero_add, Option.map_some]
  | cons i base ih =>
    obtain ⟨a, ha, hbase⟩ := at?_cons_eq_some_iff.1 hbase
    obtain ⟨a₁, ha₁, hg⟩ := at?_cons_eq_some_iff.1 hg
    obtain ⟨a₂, ha₂, hh⟩ := at?_cons_eq_some_iff.1 hh
    obtain rfl : a = a₁ := Option.some.inj (ha.symm.trans ha₁)
    obtain rfl : a = a₂ := Option.some.inj (ha.symm.trans ha₂)
    have hbefore : Before (path ++ [i] ++ (base ++ m :: p), g) (path ++ [i] ++ (base ++ n :: q), h)
        (locate (path ++ [i]) a) := ih (path ++ [i]) hbase hg hh
    simp only [List.append_assoc, List.singleton_append] at hbefore
    exact before_locate_of_parts (anyBefore_iff.2 ⟨_, locate_mem_locateAll path ha, hbefore⟩)

mutual

theorem label_of_mem_calls_locate : (path : List Nat) → (s : Statement) →
    ∀ x ∈ calls (locate path s), path <+: x.1
  | path, .gate g => by
    intro x hx
    rw [locate, calls, Multiset.mem_singleton] at hx
    subst hx
    exact List.prefix_refl path
  | path, .block kind ss => by
    intro x hx
    obtain ⟨i, -, hi⟩ := label_of_mem_callsAll_locateAll path 0 ss x hx
    exact (List.prefix_append path [i]).trans hi
  | path, .loop count kind body => by
    intro x hx
    obtain ⟨i, -, hi⟩ := label_of_mem_callsAll_locateAll path 0 body x hx
    exact (List.prefix_append path [i]).trans hi

theorem label_of_mem_callsAll_locateAll : (path : List Nat) → (n : Nat) → (ss : List Statement) →
    ∀ x ∈ callsAll (locateAll path n ss), ∃ i, n ≤ i ∧ path ++ [i] <+: x.1
  | _, _, [] => by
    intro x hx
    simp [locateAll, callsAll] at hx
  | path, n, s :: rest => by
    intro x hx
    rw [locateAll, callsAll, Multiset.mem_add] at hx
    rcases hx with hx | hx
    · exact ⟨n, Nat.le_refl n, label_of_mem_calls_locate (path ++ [n]) s x hx⟩
    · obtain ⟨i, hi, hlabel⟩ := label_of_mem_callsAll_locateAll path (n + 1) rest x hx
      exact ⟨i, Nat.le_of_succ_le hi, hlabel⟩

end

mutual

/-- Positions tell all calls apart. -/
theorem nodup_calls_locate : (path : List Nat) → (s : Statement) → ((calls (locate path s)).map Prod.fst).Nodup
  | path, .gate g => by simp [locate, calls]
  | path, .block kind ss => nodup_callsAll_locateAll path 0 ss
  | path, .loop count kind body => nodup_callsAll_locateAll path 0 body

theorem nodup_callsAll_locateAll : (path : List Nat) → (n : Nat) → (ss : List Statement) →
    ((callsAll (locateAll path n ss)).map Prod.fst).Nodup
  | _, _, [] => by simp [locateAll, callsAll]
  | path, n, s :: rest => by
    rw [locateAll, callsAll, Multiset.map_add, Multiset.nodup_add]
    refine ⟨nodup_calls_locate (path ++ [n]) s, nodup_callsAll_locateAll path (n + 1) rest, ?_⟩
    rw [Multiset.disjoint_left]
    intro label hfirst hother
    obtain ⟨x, hx, rfl⟩ := Multiset.mem_map.1 hfirst
    obtain ⟨y, hy, hxy⟩ := Multiset.mem_map.1 hother
    -- the number behind `path` is `n` in the one and greater in the other
    obtain ⟨i, hi, hlabel⟩ := label_of_mem_callsAll_locateAll path (n + 1) rest y hy
    rw [hxy] at hlabel
    have hsame : path ++ [n] = path ++ [i] :=
      List.prefix_of_prefix_length_le (label_of_mem_calls_locate (path ++ [n]) s x hx) hlabel (by simp)
        |>.eq_of_length (by simp)
    simp only [List.append_cancel_left_eq, List.cons.injEq, and_true] at hsame
    omega

end

end Plan

end IonSchedule
