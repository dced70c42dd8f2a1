import IonSchedule.Proofs.Validation

/-! # Macros written out

A macro call is written out as a block with the statements of the macro, the parameters replaced by the
arguments of the call, and the calls in it written out in turn. A macro calls only macros declared before it, so
with the macros listed last declared first, each of them is written out with the rest of the list, and no macro
call is left.

A reading of what is written out is a reading of what was there: a call is read as its expansion, and a loop
under the count that its parameters give it.
-/
namespace IonSchedule

/-- Arguments by the parameters that they are bound to. -/
abbrev Binding := List (String × Argument)

def Argument.bind (σ : Binding) : Argument → Argument
  | .ref name => (σ.lookup name).getD (.ref name)
  | a => a

def GateCall.bind (σ : Binding) (g : GateCall) : GateCall := { g with args := g.args.map (Argument.bind σ) }

/-- A count that names a parameter is written as its argument is. -/
def LoopCount.bind (σ : Binding) : LoopCount → LoopCount
  | .symbol name => .symbol (((σ.lookup name).map Argument.text).getD name)
  | count => count

namespace Statement

mutual

/-- Binds parameters and replaces every call. -/
def instantiate (f : GateCall → Statement) (σ : Binding) : Statement → Statement
  | .gate g => f (g.bind σ)
  | .block kind statements => .block kind (instantiateAll f σ statements)
  | .loop count kind body => .loop (count.bind σ) kind (instantiateAll f σ body)

def instantiateAll (f : GateCall → Statement) (σ : Binding) : List Statement → List Statement
  | [] => []
  | s :: rest => instantiate f σ s :: instantiateAll f σ rest

end

end Statement

namespace GateCall

/-- A call written out; of the macros, the last declared comes first. -/
def expand : List (String × Macro) → GateCall → Statement
  | [], g => .gate g
  | (key, m) :: earlier, g =>
    if g.kind = .composite ∧ g.name = key then
      .block m.body.kind (Statement.instantiateAll (expand earlier) (m.parameters.zip g.args) m.body.statements)
    else expand earlier g

/-- A call of a native gate or of one of the macros. -/
def Known (ms : List (String × Macro)) (g : GateCall) : Prop := g.isNative = true ∨ g.name ∈ ms.map Prod.fst

theorem bind_nil (g : GateCall) : g.bind [] = g := by
  have hargs : Argument.bind [] = id := by
    funext a
    cases a <;> rfl
  simp [bind, hargs]

theorem Known.bind {ms : List (String × Macro)} {g : GateCall} (h : g.Known ms) (σ : Binding) :
    (g.bind σ).Known ms := h

theorem isNative_iff {g : GateCall} : g.isNative = true ↔ g.kind ≠ .composite := by
  unfold isNative definition?
  cases g.kind <;> simp

end GateCall

namespace Circuit

/-- The macros, last declared first. -/
def macroStack (c : Circuit) : List (String × Macro) := c.macros.items.reverse

/-- The body with every macro call written out. -/
def expandedBody (c : Circuit) : Block :=
  ⟨c.body.kind, Statement.instantiateAll (GateCall.expand c.macroStack) [] c.body.statements⟩

end Circuit

namespace Reading

section Through

variable {M : Type} [AddMonoid M]

/-- The reading of statements in which parameters are bound and calls replaced. -/
def through (r : Reading M) (f : GateCall → Statement) (σ : Binding) : Reading M where
  gate g := r.read (f (g.bind σ))
  loop count body := r.loop (count.bind σ) body

mutual

theorem read_instantiate (r : Reading M) (f : GateCall → Statement) (σ : Binding) : (s : Statement) →
    r.read (s.instantiate f σ) = (r.through f σ).read s
  | .gate g => by
    rw [Statement.instantiate, read_gate]
    rfl
  | .block kind ss => by
    rw [Statement.instantiate, read_block, read_block]
    exact readAll_instantiate r f σ ss
  | .loop count kind body => by
    rw [Statement.instantiate, read_loop, read_loop, readAll_instantiate r f σ body]
    rfl

theorem readAll_instantiate (r : Reading M) (f : GateCall → Statement) (σ : Binding) : (ss : List Statement) →
    r.readAll (Statement.instantiateAll f σ ss) = (r.through f σ).readAll ss
  | [] => by rw [Statement.instantiateAll, readAll_nil, readAll_nil]
  | s :: rest => by
    rw [Statement.instantiateAll, readAll_cons, readAll_cons, read_instantiate r f σ s,
      readAll_instantiate r f σ rest]

end

end Through

/-- The calls of what is written out are those in the expansions of the calls. -/
theorem mem_read_through_iff {f : GateCall → Statement} {σ : Binding} {h : GateCall} {s : Statement} :
    h ∈ (calls.through f σ).read s ↔ ∃ g ∈ calls.read s, h ∈ calls.read (f (g.bind σ)) := by
  have hlist : ∀ ss : List Statement,
      (∀ s ∈ ss, (h ∈ (calls.through f σ).read s ↔ ∃ g ∈ calls.read s, h ∈ calls.read (f (g.bind σ)))) →
      (h ∈ (calls.through f σ).readAll ss ↔ ∃ g ∈ calls.readAll ss, h ∈ calls.read (f (g.bind σ))) := by
    intro ss
    induction ss with
    | nil => simp
    | cons s rest ih =>
      intro hss
      rw [List.forall_mem_cons] at hss
      simp only [readAll_cons, Multiset.mem_add, hss.1, ih hss.2, or_and_right, exists_or]
  induction s using Statement.induction with
  | gate g => simp [through]
  | block kind ss ih =>
    rw [read_block, read_block]
    exact hlist ss ih
  | loop count kind body ih =>
    rw [read_loop, read_loop]
    exact hlist body ih

theorem mem_readAll_through_iff {f : GateCall → Statement} {σ : Binding} {h : GateCall} {ss : List Statement} :
    h ∈ (calls.through f σ).readAll ss ↔ ∃ g ∈ calls.readAll ss, h ∈ calls.read (f (g.bind σ)) := by
  rw [← read_block _ .sequential, mem_read_through_iff, read_block]

end Reading

/-- Each macro calls native gates and the macros behind it. -/
def MacrosClosed : List (String × Macro) → Prop
  | [] => True
  | e :: earlier => (∀ g ∈ Reading.calls.readAll e.2.body.statements, g.Known earlier) ∧ MacrosClosed earlier

theorem GateCall.isNative_of_mem_expand {ms : List (String × Macro)} (hms : MacrosClosed ms) {g : GateCall}
    (hg : g.Known ms) : ∀ h ∈ Reading.calls.read (g.expand ms), h.isNative = true := by
  induction ms generalizing g with
  | nil =>
    intro h hh
    rw [expand, Reading.read_gate] at hh
    rw [Multiset.mem_singleton.1 hh]
    simpa [Known] using hg
  | cons e earlier ih =>
    obtain ⟨key, m⟩ := e
    obtain ⟨hbody, hearlier⟩ := hms
    rw [expand]
    split
    · intro h hh
      rw [Reading.read_block, Reading.readAll_instantiate, Reading.mem_readAll_through_iff] at hh
      obtain ⟨g', hg', hh⟩ := hh
      exact ih hearlier ((hbody g' hg').bind _) h hh
    · rename_i hne
      refine ih hearlier ?_
      rcases hg with hnative | hname
      · exact Or.inl hnative
      · rcases List.mem_cons.1 hname with hkey | hname
        · exact Or.inl (GateCall.isNative_iff.2 fun hkind => hne ⟨hkind, hkey⟩)
        · exact Or.inr hname

theorem Registers.declareMapped_eq_ok_iff {t t' : Registers} {name source : String} {selection : Selection} :
    t.declareMapped name source selection = .ok t' ↔
      ∃ size, t.sizeOf source = .ok size ∧ selection.outOfRange? size = none ∧
        t.declare ⟨name, .mapped source selection⟩ = .ok t' := by
  simp only [declareMapped, bind_eq_ok_iff]
  refine exists_congr fun size => and_congr_right fun _ => ?_
  cases selection.outOfRange? size with
  | none => simp
  | some index => simp

namespace Circuit

theorem AcceptsCall.known {c : Circuit} {scope : List String} {g : GateCall} (h : c.AcceptsCall scope g) :
    g.Known c.macroStack := by
  rcases checkCall_eq_ok_iff.1 h with ⟨d, -, -, -, hkind⟩ | ⟨-, m, hm, -⟩
  · exact Or.inl (GateCall.isNative_iff.2 (by simp [hkind]))
  · have hitem : (g.name, m) ∈ c.macroStack := List.mem_reverse.2 (Table.get?_eq_some_iff.1 hm)
    exact Or.inr (List.mem_map_of_mem hitem)

section Declarations

variable {c c' : Circuit} {name : String}

theorem checkFresh_eq_ok_iff :
    c.checkFresh name = .ok () ↔ name ∉ c.registers.names ∧ name ∉ c.constants.names ∧ name ∉ c.macros.names ∧
      name ∉ c.nativeGates.names := by
  simp [checkFresh, declares, Catalog.contains_iff, and_assoc]

theorem declareRegister_eq_ok_iff {size : Nat} :
    c.declareRegister name size = .ok c' ↔ c.checkFresh name = .ok () ∧
      ∃ t, c.registers.declare ⟨name, .fundamental size⟩ = .ok t ∧ { c with registers := t } = c' := by
  rw [declareRegister, check_eq_ok_iff]
  simp only [bind_eq_ok_iff, pure_eq_ok_iff, Registers.declareFundamental]

theorem declareMap_eq_ok_iff {source : String} {selection : Selection} :
    c.declareMap name source selection = .ok c' ↔ c.checkFresh name = .ok () ∧
      ∃ size, c.registers.sizeOf source = .ok size ∧ selection.outOfRange? size = none ∧
        ∃ t, c.registers.declare ⟨name, .mapped source selection⟩ = .ok t ∧ { c with registers := t } = c' := by
  rw [declareMap, check_eq_ok_iff]
  simp only [bind_eq_ok_iff, pure_eq_ok_iff, Registers.declareMapped_eq_ok_iff]
  refine and_congr_right fun _ => ⟨?_, ?_⟩
  · rintro ⟨t, ⟨size, hsize, hrange, hdeclare⟩, hc'⟩
    exact ⟨size, hsize, hrange, t, hdeclare, hc'⟩
  · rintro ⟨size, hsize, hrange, t, hdeclare, hc'⟩
    exact ⟨t, ⟨size, hsize, hrange, hdeclare⟩, hc'⟩

theorem declareConstant_eq_ok_iff {value : Binary64} :
    c.declareConstant name value = .ok c' ↔ c.checkFresh name = .ok () ∧
      { c with constants := c.constants.insert name value } = c' := by
  simp only [declareConstant, check_eq_ok_iff, pure_eq_ok_iff]

theorem declareMacro_eq_ok_iff {parameters : List String} {body : Block} :
    c.declareMacro name parameters body = .ok c' ↔
      c.checkFresh name = .ok () ∧ firstRepeated? [] parameters = none ∧
        c.checkStatements parameters body.statements = .ok () ∧
        { c with macros := c.macros.insert name ⟨name, parameters, body⟩ } = c' := by
  simp only [declareMacro, check_eq_ok_iff]
  refine and_congr_right fun _ => ?_
  cases firstRepeated? [] parameters with
  | some p => simp
  | none => simp only [check_eq_ok_iff, pure_eq_ok_iff, true_and]

/-- A new macro is filed behind the others. -/
theorem items_declareMacro {parameters : List String} {body : Block}
    (h : c.declareMacro name parameters body = .ok c') :
    c'.macros.items = c.macros.items ++ [(name, ⟨name, parameters, body⟩)] := by
  obtain ⟨hfresh, -, -, rfl⟩ := declareMacro_eq_ok_iff.1 h
  exact Catalog.putItem_of_fresh (checkFresh_eq_ok_iff.1 hfresh).2.2.1

end Declarations

/-- A circuit declared step by step, with a body of calls that it makes. -/
inductive Built : Circuit → Prop
  | empty (nativeGates : GateTable) : Built (.empty nativeGates)
  | register {c c' : Circuit} {name : String} {size : Nat} (hc : Built c)
      (h : c.declareRegister name size = .ok c') : Built c'
  | map {c c' : Circuit} {name source : String} {selection : Selection} (hc : Built c)
      (h : c.declareMap name source selection = .ok c') : Built c'
  | constant {c c' : Circuit} {name : String} {value : Binary64} (hc : Built c)
      (h : c.declareConstant name value = .ok c') : Built c'
  | composite {c c' : Circuit} {name : String} {parameters : List String} {body : Block} (hc : Built c)
      (h : c.declareMacro name parameters body = .ok c') : Built c'
  | body {c : Circuit} {b : Block} (hc : Built c)
      (hb : ∀ g ∈ Reading.calls.readAll b.statements, ∃ scope, c.gate scope g.name g.args = .ok g) :
      Built { c with body := b }

theorem acceptsCall_of_gate {c : Circuit} {scope : List String} {name : String} {args : List Argument}
    {g : GateCall} (h : c.gate scope name args = .ok g) : c.AcceptsCall scope g := by
  simp only [gate, bind_eq_ok_iff] at h
  obtain ⟨kind, hkind, h⟩ := h
  rcases checkCall_eq_ok_iff.1 hkind with ⟨d, hfind, -, -, rfl⟩ | ⟨-, m, -, -, -, rfl⟩
  · have hname : d.name = name := Catalog.name_of_find? hfind
    rw [pure_eq_ok_iff] at h
    subst h
    simpa [AcceptsCall, GateCall.native, hname] using hkind
  · rw [pure_eq_ok_iff] at h
    subst h
    exact hkind

/-- What keeps the expansion of a circuit free of macro calls. -/
structure Expandable (c : Circuit) : Prop where
  macros : MacrosClosed c.macroStack
  body : ∀ g ∈ Reading.calls.readAll c.body.statements, g.Known c.macroStack

theorem Expandable.of_eq {c c' : Circuit} (h : c.Expandable) (hmacros : c'.macros = c.macros)
    (hbody : c'.body = c.body) : c'.Expandable := by
  have hstack : c'.macroStack = c.macroStack := by rw [macroStack, hmacros, macroStack]
  exact ⟨hstack ▸ h.macros, by rw [hbody, hstack]; exact h.body⟩

theorem macroStack_declareMacro {c c' : Circuit} {name : String} {parameters : List String} {body : Block}
    (h : c.declareMacro name parameters body = .ok c') :
    c'.macroStack = (name, ⟨name, parameters, body⟩) :: c.macroStack := by
  rw [macroStack, items_declareMacro h, List.reverse_append]
  rfl

theorem Built.expandable {c : Circuit} (h : c.Built) : c.Expandable := by
  induction h with
  | empty nativeGates => exact ⟨trivial, by simp [Circuit.empty, Block.sequential]⟩
  | register hc h ih =>
    obtain ⟨-, t, -, rfl⟩ := declareRegister_eq_ok_iff.1 h
    exact ih.of_eq rfl rfl
  | map hc h ih =>
    obtain ⟨-, size, -, -, t, -, rfl⟩ := declareMap_eq_ok_iff.1 h
    exact ih.of_eq rfl rfl
  | constant hc h ih =>
    obtain ⟨-, rfl⟩ := declareConstant_eq_ok_iff.1 h
    exact ih.of_eq rfl rfl
  | @composite c c' name parameters body hc h ih =>
    have hstack := macroStack_declareMacro h
    obtain ⟨-, -, hcheck, rfl⟩ := declareMacro_eq_ok_iff.1 h
    refine ⟨?_, ?_⟩
    · rw [hstack]
      refine ⟨fun g hg => ?_, ih.macros⟩
      obtain ⟨s, hs, hread⟩ := Reading.mem_calls_readAll_iff.1 hg
      exact (acceptsCall_of_checkStatement (checkStatements_eq_ok_iff.1 hcheck s hs) g hread).known
    · intro g hg
      rw [hstack]
      exact (ih.body g hg).imp_right (List.mem_cons_of_mem name)
  | @body c b hc hb ih =>
    refine ⟨ih.macros, fun g hg => ?_⟩
    obtain ⟨scope, hgate⟩ := hb g hg
    exact (acceptsCall_of_gate hgate).known

end Circuit

end IonSchedule
