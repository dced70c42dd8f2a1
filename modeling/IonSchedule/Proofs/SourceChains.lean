import Mathlib.Data.List.Nodup
import Mathlib.Logic.Relation
import IonSchedule.Proofs.Resolution

/-! # Chains of sources

Following the sources of a register leads to a fundamental register, to a name that is not declared, or round in
circles. A chain that stops passes no register twice, so it is no longer than the table. This is why a walk that
is given one step more than there are registers tells the three cases apart: sizes are found, missing names are
reported, and the walk runs out of steps only on a cycle. Resolution asks for the size of a source before it
goes there, so that its own bound is never met.
-/
namespace IonSchedule

namespace Selection

/-- The numbers that are computed to find the place of a slot in the source, the place itself last. There is
none if the slot is not in an index list. -/
def workings : Selection → Nat → List Nat
  | .whole, i => [i]
  | .slice start _ step, i => [i * step, start + i * step]
  | .indices positions, i => positions[i]?.toList

/-- The place of a slot in the source, whether or not the selection shows that slot. -/
def place? (selection : Selection) (i : Nat) : Option Nat := (selection.workings i).getLast?

theorem place?_eq_sourceIndex (selection : Selection) {source : Nat} (i : Fin (selection.size source)) :
    selection.place? i = some (selection.sourceIndex i) := by
  cases selection with
  | whole => rfl
  | slice start stop step => rfl
  | indices positions =>
    have hget : positions[(i : Nat)]? = some (positions.get i) := List.getElem?_eq_getElem i.isLt
    simp only [place?, workings, hget]
    rfl

end Selection

namespace Registers

variable {t : Registers} {name source last missing : String} {via : List String} {steps index : Nat}

/-- The register of which a mapped register shows slots. -/
def source? (t : Registers) (name : String) : Option String :=
  match t.get? name with
  | some ⟨_, .mapped source _⟩ => some source
  | _ => none

/-- Sources lead from the first name to the second. -/
abbrev Leads (t : Registers) : String → String → Prop :=
  Relation.ReflTransGen fun name source => t.source? name = some source

/-- Sources lead to a fundamental register. -/
def IsGrounded (t : Registers) (name : String) : Prop :=
  ∃ last carried size, t.Leads name last ∧ t.get? last = some ⟨carried, .fundamental size⟩

/-- Sources lead to a name that is not declared. -/
def Dangles (t : Registers) (name missing : String) : Prop := t.Leads name missing ∧ t.get? missing = none

/-- Sources lead on from wherever they lead. -/
def IsEndless (t : Registers) (name : String) : Prop :=
  ∀ reached, t.Leads name reached → ∃ source, t.source? reached = some source

/-- One step of resolution: from a slot of a mapped register to the slot of the source that it shows. -/
inductive Follows (t : Registers) : Qubit → Qubit → Prop
  | shown {q : Qubit} {carried source : String} {selection : Selection} {i : Nat}
      (mapped : t.get? q.register = some ⟨carried, .mapped source selection⟩)
      (place : selection.place? q.index = some i) : Follows t q ⟨source, i⟩

/-! ## Length of chains -/

/-- Sources lead from the first name to the last one through the listed registers. -/
inductive Passes (t : Registers) : String → List String → String → Prop
  | stop (name : String) : Passes t name [] name
  | next {name source last : String} {via : List String} (hsource : t.source? name = some source)
      (rest : Passes t source via last) : Passes t name (name :: via) last

theorem exists_passes (h : t.Leads name last) : ∃ via, t.Passes name via last := by
  induction h using Relation.ReflTransGen.head_induction_on with
  | refl => exact ⟨[], .stop last⟩
  | head hsource _ ih =>
    obtain ⟨via, rest⟩ := ih
    exact ⟨_, .next hsource rest⟩

theorem Passes.unique (h : t.Passes name via last) {via' : List String} (h' : t.Passes name via' last)
    (hlast : t.source? last = none) : via = via' := by
  induction h generalizing via' with
  | stop name =>
    cases h' with
    | stop => rfl
    | next hsource rest => simp [hlast] at hsource
  | @next name source last via hsource rest ih =>
    cases h' with
    | stop => simp [hlast] at hsource
    | next hsource' rest' =>
      obtain rfl : source = _ := Option.some.inj (hsource.symm.trans hsource')
      rw [ih rest' hlast]

/-- From a register that is passed, what is left of the chain is shorter. -/
theorem Passes.exists_shorter (h : t.Passes name via last) {passed : String} (hpassed : passed ∈ via) :
    ∃ via', t.Passes passed via' last ∧ via'.length ≤ via.length := by
  induction h with
  | stop name => simp at hpassed
  | @next name source last via hsource rest ih =>
    rcases List.mem_cons.1 hpassed with rfl | hpassed
    · exact ⟨_, .next hsource rest, Nat.le_refl _⟩
    · obtain ⟨via', h', hle⟩ := ih hpassed
      exact ⟨via', h', Nat.le_succ_of_le hle⟩

/-- A chain that stops passes no register twice. -/
theorem Passes.nodup (h : t.Passes name via last) (hlast : t.source? last = none) : via.Nodup := by
  induction h with
  | stop name => exact List.nodup_nil
  | @next name source last via hsource rest ih =>
    refine List.nodup_cons.2 ⟨fun hmem => ?_, ih hlast⟩
    obtain ⟨via', h', hle⟩ := rest.exists_shorter hmem
    have hlength := congrArg List.length (h'.unique (.next hsource rest) hlast)
    rw [List.length_cons] at hlength
    omega

theorem source?_eq_some_iff : t.source? name = some source ↔
    ∃ carried selection, t.get? name = some ⟨carried, .mapped source selection⟩ := by
  unfold source?
  split
  · rename_i carried source' selection hget
    rw [hget]
    simp only [Option.some.injEq, Register.mk.injEq, RegisterKind.mapped.injEq]
    constructor
    · rintro rfl
      exact ⟨carried, selection, rfl, rfl, rfl⟩
    · rintro ⟨-, -, -, hsource, -⟩
      exact hsource
  · rename_i hmapped
    simp only [reduceCtorEq, false_iff]
    rintro ⟨carried, selection, hget⟩
    exact hmapped carried source selection hget

theorem source?_eq_none_iff : t.source? name = none ↔
    t.get? name = none ∨ ∃ carried size, t.get? name = some ⟨carried, .fundamental size⟩ := by
  unfold source?
  split
  · rename_i hget
    simp [hget]
  · rename_i hmapped
    simp only [true_iff]
    cases hget : t.get? name with
    | none => exact .inl rfl
    | some r =>
      obtain ⟨carried, kind⟩ := r
      cases kind with
      | fundamental size => exact .inr ⟨carried, size, rfl⟩
      | mapped source selection => exact absurd hget (hmapped carried source selection)

theorem mem_names_of_source? (h : t.source? name = some source) : name ∈ t.names := by
  obtain ⟨carried, selection, hget⟩ := source?_eq_some_iff.1 h
  exact List.mem_map_of_mem (Table.get?_eq_some_iff.1 hget)

theorem Passes.mem_names (h : t.Passes name via last) {passed : String} (hpassed : passed ∈ via) :
    passed ∈ t.names := by
  induction h with
  | stop name => simp at hpassed
  | next hsource rest ih =>
    rcases List.mem_cons.1 hpassed with rfl | hpassed
    · exact mem_names_of_source? hsource
    · exact ih hpassed

/-- A chain that stops passes at most as many registers as there are. -/
theorem Passes.length_le (h : t.Passes name via last) (hlast : t.source? last = none) : via.length ≤ t.size := by
  have hle : via.length ≤ t.names.length := ((h.nodup hlast).subperm fun _ => h.mem_names).length_le
  rwa [Catalog.names, List.length_map] at hle

theorem exists_last_of_not_isEndless (h : ¬ t.IsEndless name) :
    ∃ last, t.Leads name last ∧ t.source? last = none := by
  simpa [IsEndless, Option.eq_none_iff_forall_ne_some] using h

/-- There are three ways for a chain to go on. -/
theorem grounded_or_dangles_or_endless (t : Registers) (name : String) :
    t.IsGrounded name ∨ (∃ missing, t.Dangles name missing) ∨ t.IsEndless name := by
  by_cases hendless : t.IsEndless name
  · exact .inr (.inr hendless)
  · obtain ⟨last, hleads, hlast⟩ := exists_last_of_not_isEndless hendless
    rcases source?_eq_none_iff.1 hlast with hmissing | ⟨carried, size, hfundamental⟩
    · exact .inr (.inl ⟨last, hleads, hmissing⟩)
    · exact .inl ⟨last, carried, size, hleads, hfundamental⟩

/-! ## Sizes -/

theorem sizeWithin_of_mapped {carried : String} {selection : Selection}
    (h : t.get? name = some ⟨carried, .mapped source selection⟩) (steps : Nat) :
    t.sizeWithin (steps + 1) name = (t.sizeWithin steps source).map selection.size := by
  simp only [sizeWithin, h]

theorem Passes.sizeWithin_of_missing (h : t.Passes name via last) (hlast : t.get? last = none)
    (hsteps : via.length < steps) : t.sizeWithin steps name = .error (.registerNotFound last none) := by
  induction h generalizing steps with
  | stop name =>
    cases steps with
    | zero => simp at hsteps
    | succ steps => simp only [sizeWithin, hlast]
  | next hsource rest ih =>
    cases steps with
    | zero => simp at hsteps
    | succ steps =>
      obtain ⟨carried, selection, hget⟩ := source?_eq_some_iff.1 hsource
      rw [sizeWithin_of_mapped hget, ih hlast (by simpa using hsteps)]
      rfl

theorem Passes.exists_sizeWithin (h : t.Passes name via last) {carried : String} {size : Nat}
    (hlast : t.get? last = some ⟨carried, .fundamental size⟩) (hsteps : via.length < steps) :
    ∃ n, t.sizeWithin steps name = .ok n := by
  induction h generalizing steps with
  | stop name =>
    cases steps with
    | zero => simp at hsteps
    | succ steps => exact ⟨size, by simp only [sizeWithin, hlast]⟩
  | next hsource rest ih =>
    cases steps with
    | zero => simp at hsteps
    | succ steps =>
      obtain ⟨carried', selection, hget⟩ := source?_eq_some_iff.1 hsource
      obtain ⟨n, hn⟩ := ih hlast (by simpa using hsteps)
      exact ⟨selection.size n, by rw [sizeWithin_of_mapped hget, hn]; rfl⟩

theorem IsEndless.of_source? (h : t.IsEndless name) (hsource : t.source? name = some source) : t.IsEndless source :=
  fun reached hleads => h reached (.head hsource hleads)

theorem IsEndless.exists_sizeWithin (h : t.IsEndless name) (steps : Nat) :
    ∃ stuck, t.sizeWithin steps name = .error (.cyclicMapping stuck) := by
  induction steps generalizing name with
  | zero => exact ⟨name, rfl⟩
  | succ steps ih =>
    obtain ⟨source, hsource⟩ := h name .refl
    obtain ⟨carried, selection, hget⟩ := source?_eq_some_iff.1 hsource
    obtain ⟨stuck, hstuck⟩ := ih (h.of_source? hsource)
    exact ⟨stuck, by rw [sizeWithin_of_mapped hget, hstuck]; rfl⟩

/-- What is found at the end of a chain. -/
structure Tells {α : Type} (t : Registers) (name : String) (x : Except CircuitError α) : Prop where
  grounded : t.IsGrounded name → (∃ a, x = .ok a) ∨ ∃ register index size,
    x = .error (.qubitOutOfRange register index size)
  dangles : ∀ missing, t.Dangles name missing → x = .error (.registerNotFound missing none)
  endless : t.IsEndless name → ∃ stuck, x = .error (.cyclicMapping stuck)

section Tells

variable {α : Type} {x : Except CircuitError α}

theorem Tells.notFound_iff (h : t.Tells name x) (missing : String) :
    x = .error (.registerNotFound missing none) ↔ t.Dangles name missing := by
  refine ⟨fun hx => ?_, h.dangles missing⟩
  rcases t.grounded_or_dangles_or_endless name with hname | ⟨missing', hname⟩ | hname
  · rcases h.grounded hname with ⟨a, ha⟩ | ⟨register, index, size, ha⟩
    · rw [ha] at hx
      cases hx
    · rw [ha] at hx
      cases hx
  · rw [h.dangles missing' hname] at hx
    cases hx
    exact hname
  · obtain ⟨stuck, hstuck⟩ := h.endless hname
    rw [hstuck] at hx
    cases hx

theorem Tells.cyclic_iff (h : t.Tells name x) :
    (∃ stuck, x = .error (.cyclicMapping stuck)) ↔ t.IsEndless name := by
  refine ⟨?_, h.endless⟩
  rintro ⟨stuck, hx⟩
  rcases t.grounded_or_dangles_or_endless name with hname | ⟨missing, hname⟩ | hname
  · rcases h.grounded hname with ⟨a, ha⟩ | ⟨register, index, size, ha⟩
    · rw [ha] at hx
      cases hx
    · rw [ha] at hx
      cases hx
  · rw [h.dangles missing hname] at hx
    cases hx
  · exact hname

theorem Tells.isGrounded (h : t.Tells name x)
    (hx : (∃ a, x = .ok a) ∨ ∃ register index size, x = .error (.qubitOutOfRange register index size)) :
    t.IsGrounded name := by
  rcases t.grounded_or_dangles_or_endless name with hname | ⟨missing, hname⟩ | hname
  · exact hname
  · rw [h.dangles missing hname] at hx
    simp at hx
  · obtain ⟨stuck, hstuck⟩ := h.endless hname
    rw [hstuck] at hx
    simp at hx

end Tells

theorem IsGrounded.exists_sizeOf (h : t.IsGrounded name) : ∃ n, t.sizeOf name = .ok n := by
  obtain ⟨last, carried, size, hleads, hlast⟩ := h
  obtain ⟨via, hpasses⟩ := exists_passes hleads
  have hle := hpasses.length_le (source?_eq_none_iff.2 (.inr ⟨carried, size, hlast⟩))
  exact hpasses.exists_sizeWithin hlast (Nat.lt_succ_of_le hle)

/-- A walk of one step more than there are registers finds out how a chain goes on. -/
theorem tells_sizeOf (t : Registers) (name : String) : t.Tells name (t.sizeOf name) where
  grounded h := .inl h.exists_sizeOf
  dangles := by
    rintro missing ⟨hleads, hmissing⟩
    obtain ⟨via, hpasses⟩ := exists_passes hleads
    have hle := hpasses.length_le (source?_eq_none_iff.2 (.inl hmissing))
    exact hpasses.sizeWithin_of_missing hmissing (Nat.lt_succ_of_le hle)
  endless h := h.exists_sizeWithin _

theorem exists_sizeOf_iff : (∃ n, t.sizeOf name = .ok n) ↔ t.IsGrounded name :=
  ⟨fun h => (t.tells_sizeOf name).isGrounded (.inl h), IsGrounded.exists_sizeOf⟩

theorem IsGrounded.of_source? (h : t.IsGrounded source) (hsource : t.source? name = some source) :
    t.IsGrounded name := by
  obtain ⟨last, carried, size, hleads, hlast⟩ := h
  exact ⟨last, carried, size, .head hsource hleads, hlast⟩

theorem exists_sizeOf_source {carried : String} {selection : Selection} {m : Nat}
    (h : t.get? name = some ⟨carried, .mapped source selection⟩) (hsize : t.sizeOf name = .ok m) :
    ∃ n, t.sizeOf source = .ok n ∧ selection.size n = m := by
  rw [sizeOf, sizeWithin_of_mapped h] at hsize
  obtain ⟨n, hn, rfl⟩ := map_eq_ok_iff.1 hsize
  exact ⟨n, sizeWithin_mono hn (Nat.le_succ _), rfl⟩

theorem sizeOf_of_mapped {carried : String} {selection : Selection} {n : Nat}
    (h : t.get? name = some ⟨carried, .mapped source selection⟩) (hsource : t.sizeOf source = .ok n) :
    t.sizeOf name = .ok (selection.size n) := by
  have hgrounded : t.IsGrounded name :=
    (exists_sizeOf_iff.1 ⟨n, hsource⟩).of_source? (source?_eq_some_iff.2 ⟨carried, selection, h⟩)
  obtain ⟨m, hm⟩ := hgrounded.exists_sizeOf
  obtain ⟨n', hn', rfl⟩ := exists_sizeOf_source h hm
  obtain rfl : n = n' := Except.ok.inj (hsource.symm.trans hn')
  exact hm

/-! ## Resolution -/

theorem resolveWithin_of_mapped {carried : String} {selection : Selection} {n : Nat}
    (h : t.get? name = some ⟨carried, .mapped source selection⟩) (hsource : t.sizeOf source = .ok n)
    (origin : String) (steps index : Nat) :
    t.resolveWithin origin (steps + 1) name index =
      if hindex : index < selection.size n then
        t.resolveWithin origin steps source (selection.sourceIndex ⟨index, hindex⟩)
      else .error (.qubitOutOfRange name index (selection.size n)) := by
  simp only [resolveWithin, h, hsource]

theorem resolveWithin_of_error {e : CircuitError} (h : t.source? name = some source)
    (he : t.sizeOf source = .error e) (origin : String) (steps index : Nat) :
    t.resolveWithin origin (steps + 1) name index = .error e := by
  obtain ⟨carried, selection, hget⟩ := source?_eq_some_iff.1 h
  simp only [resolveWithin, hget, he]

/-- Once there are more steps than the chain is long, neither their number nor the origin matters. -/
theorem Passes.resolveWithin_congr (h : t.Passes name via last) (hlast : t.source? last = none) {more : Nat}
    (hsteps : via.length < steps) (hmore : via.length < more) (origin other : String) (index : Nat) :
    t.resolveWithin origin steps name index = t.resolveWithin other more name index := by
  induction h generalizing steps more index with
  | stop name =>
    cases steps with
    | zero => simp at hsteps
    | succ steps =>
      cases more with
      | zero => simp at hmore
      | succ more =>
        rcases source?_eq_none_iff.1 hlast with hget | ⟨carried, size, hget⟩
        · simp only [resolveWithin, hget]
        · simp only [resolveWithin, hget]
  | @next name source last via hsource rest ih =>
    cases steps with
    | zero => simp at hsteps
    | succ steps =>
      cases more with
      | zero => simp at hmore
      | succ more =>
        cases hsize : t.sizeOf source with
        | error e => rw [resolveWithin_of_error hsource hsize, resolveWithin_of_error hsource hsize]
        | ok n =>
          obtain ⟨carried, selection, hget⟩ := source?_eq_some_iff.1 hsource
          rw [resolveWithin_of_mapped hget hsize, resolveWithin_of_mapped hget hsize]
          split
          · exact ih hlast (by simpa using hsteps) (by simpa using hmore) _
          · rfl

theorem resolve_of_fundamental {carried : String} {size : Nat} (h : t.get? name = some ⟨carried, .fundamental size⟩)
    (index : Nat) :
    t.resolve ⟨name, index⟩ =
      if index < size then .ok ⟨name, index⟩ else .error (.qubitOutOfRange name index size) := by
  simp only [resolve, resolveWithin, h]

/-- A slot of a mapped register resolves to what the slot of the source that it shows resolves to. -/
theorem resolve_of_mapped {carried : String} {selection : Selection} {n : Nat}
    (h : t.get? name = some ⟨carried, .mapped source selection⟩) (hsource : t.sizeOf source = .ok n) (index : Nat) :
    t.resolve ⟨name, index⟩ =
      if hindex : index < selection.size n then t.resolve ⟨source, selection.sourceIndex ⟨index, hindex⟩⟩
      else .error (.qubitOutOfRange name index (selection.size n)) := by
  obtain ⟨last, carried', size, hleads, hlast⟩ := exists_sizeOf_iff.1 ⟨n, hsource⟩
  obtain ⟨via, hpasses⟩ := exists_passes hleads
  have hstops : t.source? last = none := source?_eq_none_iff.2 (.inr ⟨carried', size, hlast⟩)
  -- the chain from the name itself is within the bound, so that of its source is one shorter
  have hle := (hpasses.next (source?_eq_some_iff.2 ⟨carried, selection, h⟩)).length_le hstops
  rw [resolve, resolveWithin_of_mapped h hsource]
  split
  · exact hpasses.resolveWithin_congr hstops hle (Nat.lt_succ_of_lt hle) _ _ _
  · rfl

theorem Dangles.resolveWithin (h : t.Dangles name missing) (origin : String) (steps index : Nat) :
    t.resolveWithin origin (steps + 1) name index = .error (.registerNotFound missing none) := by
  obtain ⟨hleads, hmissing⟩ := h
  rcases hleads.cases_head with rfl | ⟨source, hsource, hrest⟩
  · simp only [Registers.resolveWithin, hmissing]
  · exact resolveWithin_of_error hsource ((t.tells_sizeOf source).dangles missing ⟨hrest, hmissing⟩) origin
      steps index

theorem IsEndless.exists_resolveWithin (h : t.IsEndless name) (steps index : Nat) :
    ∃ stuck, ∀ origin, t.resolveWithin origin (steps + 1) name index = .error (.cyclicMapping stuck) := by
  obtain ⟨source, hsource⟩ := h name .refl
  obtain ⟨stuck, hstuck⟩ := (t.tells_sizeOf source).endless (h.of_source? hsource)
  exact ⟨stuck, fun origin => resolveWithin_of_error hsource hstuck origin steps index⟩

/-- The bound of the walk is never met: its error names the origin, and the result does not depend on it. -/
theorem resolveWithin_eq_resolve (t : Registers) (origin name : String) (index : Nat) :
    t.resolveWithin origin (t.size + 1) name index = t.resolve ⟨name, index⟩ := by
  by_cases hendless : t.IsEndless name
  · obtain ⟨stuck, hstuck⟩ := hendless.exists_resolveWithin t.size index
    exact (hstuck origin).trans (hstuck name).symm
  · obtain ⟨last, hleads, hlast⟩ := exists_last_of_not_isEndless hendless
    obtain ⟨via, hpasses⟩ := exists_passes hleads
    have hsteps := Nat.lt_succ_of_le (hpasses.length_le hlast)
    exact hpasses.resolveWithin_congr hlast hsteps hsteps origin name index

/-- The slot is followed to a place in a fundamental register, or to a register that has no such slot. -/
def IsFollowed (t : Registers) (q : Qubit) : Prop :=
  (∃ p carried size, t.resolve q = .ok p ∧ t.Leads q.register p.register ∧
    t.get? p.register = some ⟨carried, .fundamental size⟩ ∧ p.index < size ∧
    Relation.ReflTransGen t.Follows q ⟨p.register, p.index⟩) ∨
  ∃ r size, t.resolve q = .error (.qubitOutOfRange r.register r.index size) ∧ Relation.ReflTransGen t.Follows q r ∧
    t.sizeOf r.register = .ok size ∧ size ≤ r.index

theorem IsGrounded.isFollowed (h : t.IsGrounded name) (index : Nat) : t.IsFollowed ⟨name, index⟩ := by
  obtain ⟨last, carried, size, hleads, hlast⟩ := h
  induction hleads using Relation.ReflTransGen.head_induction_on generalizing index with
  | refl =>
    have hresolve := resolve_of_fundamental hlast index
    split at hresolve
    · rename_i hindex
      exact .inl ⟨⟨last, index⟩, carried, size, hresolve, .refl, hlast, hindex, .refl⟩
    · rename_i hindex
      refine .inr ⟨⟨last, index⟩, size, hresolve, .refl, ?_, Nat.le_of_not_lt hindex⟩
      simp only [sizeOf, sizeWithin, hlast]
  | @head name source hsource hrest ih =>
    obtain ⟨carried', selection, hget⟩ := source?_eq_some_iff.1 hsource
    obtain ⟨n, hn⟩ := IsGrounded.exists_sizeOf ⟨last, carried, size, hrest, hlast⟩
    have hresolve := resolve_of_mapped hget hn index
    split at hresolve
    · rename_i hindex
      have hstep : t.Follows ⟨name, index⟩ ⟨source, selection.sourceIndex ⟨index, hindex⟩⟩ :=
        .shown hget (selection.place?_eq_sourceIndex ⟨index, hindex⟩)
      rcases ih (selection.sourceIndex ⟨index, hindex⟩) with
        ⟨p, carried', size', hp, hleads, hget', hlt, hfollows⟩ | ⟨r, m, hr, hfollows, hm, hle⟩
      · exact .inl ⟨p, carried', size', hresolve.trans hp, .head hsource hleads, hget', hlt, .head hstep hfollows⟩
      · exact .inr ⟨r, m, hresolve.trans hr, .head hstep hfollows, hm, hle⟩
    · rename_i hindex
      exact .inr ⟨⟨name, index⟩, selection.size n, hresolve, .refl, sizeOf_of_mapped hget hn,
        Nat.le_of_not_lt hindex⟩

theorem tells_resolve (t : Registers) (name : String) (index : Nat) : t.Tells name (t.resolve ⟨name, index⟩) where
  grounded h := by
    rcases h.isFollowed index with ⟨p, carried, size, hp, -⟩ | ⟨r, size, hr, -⟩
    · exact .inl ⟨p, hp⟩
    · exact .inr ⟨r.register, r.index, size, hr⟩
  dangles missing h := h.resolveWithin name t.size index
  endless h := by
    obtain ⟨stuck, hstuck⟩ := h.exists_resolveWithin t.size index
    exact ⟨stuck, hstuck name⟩

theorem isFollowed_iff : t.IsFollowed ⟨name, index⟩ ↔ t.IsGrounded name := by
  refine ⟨fun h => (t.tells_resolve name index).isGrounded ?_, fun h => h.isFollowed index⟩
  rcases h with ⟨p, carried, size, hp, -⟩ | ⟨r, size, hr, -⟩
  · exact .inl ⟨p, hp⟩
  · exact .inr ⟨r.register, r.index, size, hr⟩

/-- In any table, the sources of a name lead to a fundamental register, to a missing name, or on for ever. The
size is found in the first case, the missing name is reported in the second, and a cycle in the third and in no
other. Resolution reports the same two faults in the same cases; in the first case it follows the slot through
index lists that have it, to a place of a fundamental register on the chain or to a register that lacks the
slot. It never ends at its own bound, where it would report the origin. -/
theorem chain_decides_size_and_resolution (t : Registers) (name : String) :
    (t.IsGrounded name ∨ (∃ missing, t.Dangles name missing) ∨ t.IsEndless name) ∧
    ((∃ size, t.sizeOf name = .ok size) ↔ t.IsGrounded name) ∧
    (∀ missing, t.sizeOf name = .error (.registerNotFound missing none) ↔ t.Dangles name missing) ∧
    ((∃ stuck, t.sizeOf name = .error (.cyclicMapping stuck)) ↔ t.IsEndless name) ∧
    ∀ index,
      (t.IsFollowed ⟨name, index⟩ ↔ t.IsGrounded name) ∧
      (∀ missing, t.resolve ⟨name, index⟩ = .error (.registerNotFound missing none) ↔ t.Dangles name missing) ∧
      ((∃ stuck, t.resolve ⟨name, index⟩ = .error (.cyclicMapping stuck)) ↔ t.IsEndless name) ∧
      ∀ origin, t.resolveWithin origin (t.size + 1) name index = t.resolve ⟨name, index⟩ :=
  ⟨t.grounded_or_dangles_or_endless name, exists_sizeOf_iff, (t.tells_sizeOf name).notFound_iff,
    (t.tells_sizeOf name).cyclic_iff, fun index => ⟨isFollowed_iff, (t.tells_resolve name index).notFound_iff,
      (t.tells_resolve name index).cyclic_iff, fun origin => t.resolveWithin_eq_resolve origin name index⟩⟩

end Registers

end IonSchedule
