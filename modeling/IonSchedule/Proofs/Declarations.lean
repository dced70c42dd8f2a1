import IonSchedule.Proofs.Expansion

/-! # Later declarations

A declaration takes a new name, so it leaves what was declared before as it was: registers keep their sizes, and
constants and macros are still found. Checks only ask for these, so that whatever a circuit accepts is accepted
by every circuit that declares more. In a circuit that was declared step by step, every register is therefore
drawn from one that has a size, and the bodies of all macros are accepted.
-/
namespace IonSchedule

namespace Registers

variable {t t' : Registers} {r : Register} {name : String} {steps n : Nat}

theorem declare_eq_ok_iff : t.declare r = .ok t' ↔ r.name ∉ t.names ∧ t.insert r.name r = t' := by
  unfold declare
  rw [← Catalog.contains_iff]
  split
  · rename_i hcontains
    simp [hcontains]
  · rename_i hcontains
    simp [hcontains]

theorem items_of_declare (h : t.declare r = .ok t') : t'.items = t.items ++ [(r.name, r)] := by
  obtain ⟨hfresh, rfl⟩ := declare_eq_ok_iff.1 h
  exact Catalog.putItem_of_fresh hfresh

theorem values_of_declare (h : t.declare r = .ok t') : t'.values = t.values ++ [r] := by
  rw [Table.values, items_of_declare h, List.map_append]
  rfl

/-- Sizes depend on the registers that are found and on nothing else. -/
theorem sizeWithin_of_get? (hfound : ∀ name r, t.get? name = some r → t'.get? name = some r)
    (h : t.sizeWithin steps name = .ok n) : t'.sizeWithin steps name = .ok n := by
  induction steps generalizing name n with
  | zero => simp [sizeWithin] at h
  | succ steps ih =>
    simp only [sizeWithin] at h
    split at h
    · cases h
    · rename_i carried size hget
      simpa [sizeWithin, hfound _ _ hget] using h
    · rename_i carried source selection hget
      obtain ⟨m, hsource, rfl⟩ := map_eq_ok_iff.1 h
      simp only [sizeWithin, hfound _ _ hget, ih hsource]
      rfl

theorem sizeOf_declare (hdeclare : t.declare r = .ok t') (h : t.sizeOf name = .ok n) : t'.sizeOf name = .ok n := by
  have hsize : t'.size = t.size + 1 := by
    rw [Catalog.size, items_of_declare hdeclare, List.length_append]
    rfl
  obtain ⟨hfresh, rfl⟩ := declare_eq_ok_iff.1 hdeclare
  have hfound : ∀ name r', t.get? name = some r' → (t.insert r.name r).get? name = some r' :=
    fun _ _ => Table.get?_insert_of_get? hfresh
  exact sizeWithin_mono (sizeWithin_of_get? hfound h) (by omega)

/-- Every mapped register shows positions of a register that has a size. -/
def IsSourced (t : Registers) : Prop :=
  ∀ r ∈ t.values, ∀ source selection, r.kind = .mapped source selection →
    ∃ size, t.sizeOf source = .ok size ∧ selection.outOfRange? size = none

theorem IsSourced.inRange (ht : t.IsSourced) : t.InRange := by
  intro r hr
  unfold shows
  split
  · rfl
  · rename_i source selection hkind
    obtain ⟨size, hsize, hrange⟩ := ht r hr source selection hkind
    simp [hsize, hrange]

theorem IsSourced.declare (ht : t.IsSourced) (h : t.declare r = .ok t')
    (hr : ∀ source selection, r.kind = .mapped source selection →
      ∃ size, t.sizeOf source = .ok size ∧ selection.outOfRange? size = none) : t'.IsSourced := by
  intro r' hr' source selection hkind
  have hold : ∃ size, t.sizeOf source = .ok size ∧ selection.outOfRange? size = none := by
    rw [values_of_declare h] at hr'
    rcases List.mem_append.1 hr' with hr' | hr'
    · exact ht r' hr' source selection hkind
    · rw [List.mem_singleton.1 hr'] at hkind
      exact hr source selection hkind
  obtain ⟨size, hsize, hrange⟩ := hold
  exact ⟨size, sizeOf_declare h hsize, hrange⟩

theorem IsSourced.declareMapped (ht : t.IsSourced) {source : String} {selection : Selection} {size : Nat}
    (hsize : t.sizeOf source = .ok size) (hrange : selection.outOfRange? size = none)
    (h : t.declare ⟨name, .mapped source selection⟩ = .ok t') : t'.IsSourced := by
  refine ht.declare h fun source' selection' hkind => ?_
  cases hkind
  exact ⟨size, hsize, hrange⟩

theorem isSourced_empty : IsSourced Catalog.empty := fun _ hr => absurd hr List.not_mem_nil

end Registers

namespace Circuit

/-- The second circuit declares all that the first one does, with the same meaning. -/
structure Extends (c c' : Circuit) : Prop where
  sizes : ∀ {name size}, c.registers.sizeOf name = .ok size → c'.registers.sizeOf name = .ok size
  constants : ∀ {name}, c.constants.contains name = true → c'.constants.contains name = true
  macros : ∀ {name m}, c.macros.get? name = some m → c'.macros.get? name = some m
  nativeGates : c'.nativeGates = c.nativeGates

/-- The second circuit declares all that a statement may name in the first one; of a macro this is only how many
arguments it takes. -/
structure Covers (c c' : Circuit) : Prop where
  sizes : ∀ {name size}, c.registers.sizeOf name = .ok size → c'.registers.sizeOf name = .ok size
  constants : ∀ {name}, c.constants.contains name = true → c'.constants.contains name = true
  macros : ∀ {name m}, c.macros.get? name = some m → ∃ m', c'.macros.get? name = some m' ∧
    m'.parameters = m.parameters
  nativeGates : c'.nativeGates = c.nativeGates

/-- A declaration of a register or of a constant. -/
inductive Declares (c : Circuit) : Circuit → Prop
  | register {c' : Circuit} {name : String} {size : Nat} (h : c.declareRegister name size = .ok c') : Declares c c'
  | map {c' : Circuit} {name source : String} {selection : Selection}
      (h : c.declareMap name source selection = .ok c') : Declares c c'
  | constant {c' : Circuit} {name : String} {value : Binary64} (h : c.declareConstant name value = .ok c') :
      Declares c c'

variable {c c' : Circuit}

theorem Declares.macros_eq (h : c.Declares c') : c'.macros = c.macros := by
  cases h with
  | register h =>
    obtain ⟨-, t, -, rfl⟩ := declareRegister_eq_ok_iff.1 h
    rfl
  | map h =>
    obtain ⟨-, size, -, -, t, -, rfl⟩ := declareMap_eq_ok_iff.1 h
    rfl
  | constant h =>
    obtain ⟨-, rfl⟩ := declareConstant_eq_ok_iff.1 h
    rfl

theorem Declares.built (h : c.Declares c') (hc : c.Built) : c'.Built := by
  cases h with
  | register h => exact .register hc h
  | map h => exact .map hc h
  | constant h => exact .constant hc h

theorem extends_of_declare {t : Registers} {r : Register} (h : c.registers.declare r = .ok t) :
    c.Extends { c with registers := t } := ⟨Registers.sizeOf_declare h, id, id, rfl⟩

theorem Declares.extends (h : c.Declares c') : c.Extends c' := by
  cases h with
  | register h =>
    obtain ⟨-, t, hdeclare, rfl⟩ := declareRegister_eq_ok_iff.1 h
    exact extends_of_declare hdeclare
  | map h =>
    obtain ⟨-, size, -, -, t, hdeclare, rfl⟩ := declareMap_eq_ok_iff.1 h
    exact extends_of_declare hdeclare
  | @constant name value h =>
    obtain ⟨hfresh, rfl⟩ := declareConstant_eq_ok_iff.1 h
    have hitems : (c.constants.insert name value).items = c.constants.items ++ [(name, value)] :=
      Catalog.putItem_of_fresh (checkFresh_eq_ok_iff.1 hfresh).2.1
    refine ⟨id, fun {other} hother => ?_, id, rfl⟩
    simp only [Catalog.contains, hitems, List.any_append, Bool.or_eq_true]
    exact Or.inl hother

theorem extends_of_declareMacro {name : String} {parameters : List String} {body : Block}
    (h : c.declareMacro name parameters body = .ok c') : c.Extends c' := by
  obtain ⟨hfresh, -, -, rfl⟩ := declareMacro_eq_ok_iff.1 h
  exact ⟨id, id, Table.get?_insert_of_get? (checkFresh_eq_ok_iff.1 hfresh).2.2.1, rfl⟩

section Checks

variable {scope : List String} {name gate : String} {position : Nat} {kind : ParameterKind} {a : Argument}
  {args : List Argument}

theorem Covers.checkReference (he : c.Covers c') (h : c.checkReference scope name = .ok ()) :
    c'.checkReference scope name = .ok () := by
  simp only [Circuit.checkReference] at h ⊢
  split at h
  · rename_i hknown
    rcases Bool.or_eq_true_iff.1 hknown with hconstant | hscope
    · simp [he.constants hconstant]
    · simp only [hscope, Bool.or_true, if_true]
  · cases h

theorem Covers.checkQubit (he : c.Covers c') {q : Qubit} (h : c.checkQubit gate q = .ok ()) :
    c'.checkQubit gate q = .ok () := by
  rw [checkQubit_eq_ok_iff] at h ⊢
  simp only [Registers.qubit, bind_eq_ok_iff] at h ⊢
  obtain ⟨size, hsize, h⟩ := h
  exact ⟨size, he.sizes hsize, h⟩

theorem Covers.checkNativeArgument (he : c.Covers c')
    (h : c.checkNativeArgument scope gate position kind a = .ok ()) :
    c'.checkNativeArgument scope gate position kind a = .ok () := by
  cases a with
  | number value => cases kind <;> exact h
  | qubit q =>
    cases kind with
    | qubit => exact he.checkQubit h
    | float => exact h
    | int => exact h
  | ref name =>
    cases kind with
    | qubit => exact h
    | float => exact he.checkReference h
    | int => exact he.checkReference h

theorem Covers.checkNativeArguments (he : c.Covers c') {parameters : List Parameter}
    (h : c.checkNativeArguments scope gate position parameters args = .ok ()) :
    c'.checkNativeArguments scope gate position parameters args = .ok () := by
  induction parameters generalizing position args with
  | nil => simp [Circuit.checkNativeArguments]
  | cons p ps ih =>
    cases args with
    | nil => simp [Circuit.checkNativeArguments]
    | cons a rest =>
      simp only [Circuit.checkNativeArguments, check_eq_ok_iff] at h ⊢
      exact ⟨he.checkNativeArgument h.1, ih h.2⟩

theorem Covers.checkMacroArguments (he : c.Covers c') (h : c.checkMacroArguments scope gate args = .ok ()) :
    c'.checkMacroArguments scope gate args = .ok () := by
  induction args with
  | nil => rfl
  | cons a rest ih =>
    simp only [Circuit.checkMacroArguments, check_eq_ok_iff] at h ⊢
    refine ⟨?_, ih h.2⟩
    cases a with
    | number value => rfl
    | qubit q => exact he.checkQubit h.1
    | ref name => exact he.checkReference h.1

theorem Covers.acceptsCall (he : c.Covers c') {g : GateCall} (h : c.AcceptsCall scope g) :
    c'.AcceptsCall scope g := by
  unfold AcceptsCall at h ⊢
  rw [checkCall_eq_ok_iff] at h ⊢
  rw [he.nativeGates]
  rcases h with ⟨d, hfind, hlength, hargs, hkind⟩ | ⟨hfind, m, hm, hlength, hargs, hkind⟩
  · exact Or.inl ⟨d, hfind, hlength, he.checkNativeArguments hargs, hkind⟩
  · obtain ⟨m', hm', hparameters⟩ := he.macros hm
    rw [← hparameters] at hlength
    exact Or.inr ⟨hfind, m', hm', hlength, he.checkMacroArguments hargs, hkind⟩

theorem Covers.checkCount (he : c.Covers c') {count : LoopCount} (h : c.checkCount scope count = .ok ()) :
    c'.checkCount scope count = .ok () := by
  cases count with
  | fixed n => rfl
  | symbol name => exact he.checkReference h

theorem Covers.accepts (he : c.Covers c') {x : GateCall ⊕ LoopCount} (h : c.Accepts scope x) :
    c'.Accepts scope x := by
  cases x with
  | inl g => exact he.acceptsCall h
  | inr count => exact he.checkCount h

theorem Extends.covers (he : c.Extends c') : c.Covers c' :=
  ⟨he.sizes, he.constants, fun hm => ⟨_, he.macros hm, rfl⟩, he.nativeGates⟩

theorem Extends.checkStatements (he : c.Extends c') {ss : List Statement}
    (h : c.checkStatements scope ss = .ok ()) : c'.checkStatements scope ss = .ok () := by
  rw [checkStatements_eq_ok_iff_mentions] at h ⊢
  exact fun x hx => he.covers.accepts (h x hx)

end Checks

/-- The body of every macro is accepted with the parameters of the macro in scope. -/
def MacrosAccepted (c : Circuit) : Prop :=
  ∀ m ∈ c.macros.values, c.checkStatements m.parameters m.body.statements = .ok ()

theorem MacrosAccepted.of_declares (h : c.MacrosAccepted) (hd : c.Declares c') : c'.MacrosAccepted := by
  intro m hm
  rw [hd.macros_eq] at hm
  exact hd.extends.checkStatements (h m hm)

theorem MacrosAccepted.declareMacro (h : c.MacrosAccepted) {name : String} {parameters : List String} {body : Block}
    (hd : c.declareMacro name parameters body = .ok c') : c'.MacrosAccepted := by
  have he := extends_of_declareMacro hd
  obtain ⟨-, -, hbody, -⟩ := declareMacro_eq_ok_iff.1 hd
  have hvalues : c'.macros.values = c.macros.values ++ [⟨name, parameters, body⟩] := by
    rw [Table.values, items_declareMacro hd, List.map_append]
    rfl
  intro m hm
  rw [hvalues] at hm
  rcases List.mem_append.1 hm with hm | hm
  · exact he.checkStatements (h m hm)
  · rw [List.mem_singleton.1 hm]
    exact he.checkStatements hbody

/-- A body is no part of what is declared. -/
theorem extends_of_body (c : Circuit) (b : Block) : c.Extends { c with body := b } := ⟨id, id, id, rfl⟩

theorem Built.macrosAccepted (h : c.Built) : c.MacrosAccepted := by
  induction h with
  | empty nativeGates => exact fun m hm => absurd hm List.not_mem_nil
  | register hc h ih => exact ih.of_declares (.register h)
  | map hc h ih => exact ih.of_declares (.map h)
  | constant hc h ih => exact ih.of_declares (.constant h)
  | composite hc h ih => exact ih.declareMacro h
  | body hc hb ih => exact fun m hm => (extends_of_body _ _).checkStatements (ih m hm)

theorem Built.isSourced (h : c.Built) : c.registers.IsSourced := by
  induction h with
  | empty nativeGates => exact Registers.isSourced_empty
  | register hc h ih =>
    obtain ⟨-, t, hdeclare, rfl⟩ := declareRegister_eq_ok_iff.1 h
    exact ih.declare hdeclare (by simp)
  | map hc h ih =>
    obtain ⟨-, size, hsize, hrange, t, hdeclare, rfl⟩ := declareMap_eq_ok_iff.1 h
    exact ih.declareMapped hsize hrange hdeclare
  | constant hc h ih =>
    obtain ⟨-, rfl⟩ := declareConstant_eq_ok_iff.1 h
    exact ih
  | composite hc h ih =>
    obtain ⟨-, -, -, rfl⟩ := declareMacro_eq_ok_iff.1 h
    exact ih
  | body hc hb ih => exact ih

end Circuit

end IonSchedule
