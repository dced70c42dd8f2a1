import IonSchedule.Declaration
import IonSchedule.Proofs.Declarations
import IonSchedule.Proofs.MacroTermination

/-! # Circuits declared call by call

Whatever calls are made on an empty circuit, those that fail included, no two things in the circuit share a
name, and all is filed under its own name, behind what it refers to: a mapped register behind its source, and a
macro behind the macros that it calls. The check of a macro is made when it is declared and still holds at the
end. A call that fails changes nothing.
-/
namespace IonSchedule

section FiledInOrder

variable {α : Type} {P : List α → α → Prop} {items : List α} {a : α}

/-- Each item is related to the items before it. -/
def FiledInOrder (P : List α → α → Prop) (items : List α) : Prop :=
  ∀ earlier a later, items = earlier ++ a :: later → P earlier a

theorem filedInOrder_nil : FiledInOrder P [] := by
  intro earlier a later h
  simp at h

theorem FiledInOrder.concat (h : FiledInOrder P items) (ha : P items a) : FiledInOrder P (items ++ [a]) := by
  intro earlier b later heq
  rcases List.eq_nil_or_concat later with rfl | ⟨rest, last, rfl⟩
  · obtain ⟨rfl, hlast⟩ := List.append_inj' heq rfl
    cases hlast
    exact ha
  · have hsplit : items ++ [a] = (earlier ++ b :: rest) ++ [last] := by simpa using heq
    exact h earlier b rest (List.append_inj' hsplit rfl).1

end FiledInOrder

theorem pairwise_disjoint_concat {names : List String} {key : String} (pre post : List (List String))
    (h : (pre ++ names :: post).Pairwise List.Disjoint) (hkey : ∀ others ∈ pre ++ names :: post, key ∉ others) :
    (pre ++ (names ++ [key]) :: post).Pairwise List.Disjoint := by
  rw [List.pairwise_middle List.disjoint_symm, List.pairwise_cons] at h ⊢
  refine ⟨fun others hothers => ?_, h.2⟩
  rw [List.disjoint_append_left, List.singleton_disjoint]
  have hsublist := (List.sublist_cons_self names post).append_left pre
  exact ⟨h.1 others hothers, hkey others (hsublist.subset hothers)⟩

theorem Registers.mem_names_of_sizeOf {t : Registers} {name : String} {n : Nat} (h : t.sizeOf name = .ok n) :
    name ∈ t.names := by
  rw [sizeOf, sizeWithin] at h
  cases hfound : t.get? name with
  | none =>
    rw [hfound] at h
    cases h
  | some r => exact List.mem_map_of_mem (Table.get?_eq_some_iff.1 hfound)

/-- A register filed under its own name, whose source is one of the registers before it. -/
structure Register.FitsAfter (earlier : List (String × Register)) (e : String × Register) : Prop where
  name : e.2.name = e.1
  source : ∀ source selection, e.2.kind = .mapped source selection → source ∈ earlier.map Prod.fst

/-- A macro filed under its own name, with distinct parameters, that calls native gates and macros before it. -/
structure Macro.FitsAfter (earlier : List (String × Macro)) (e : String × Macro) : Prop where
  name : e.2.name = e.1
  parameters : e.2.parameters.Nodup
  calls : ∀ g ∈ Reading.calls.readAll e.2.body.statements, g.Known earlier

namespace Circuit

variable {c c' : Circuit} {name : String}

/-- The names in use, by what they name. -/
def nameLists (c : Circuit) : List (List String) :=
  [c.registers.names, c.constants.names, c.macros.names, c.nativeGates.names]

/-- No name is used twice, and all is filed under its own name and behind what it refers to. -/
structure IsOrderly (c : Circuit) : Prop where
  names : c.nameLists.Pairwise List.Disjoint
  registers : FiledInOrder Register.FitsAfter c.registers.items
  macros : FiledInOrder Macro.FitsAfter c.macros.items

theorem not_mem_nameLists (h : c.checkFresh name = .ok ()) : ∀ names ∈ c.nameLists, name ∉ names := by
  obtain ⟨hregisters, hconstants, hmacros, hgates⟩ := checkFresh_eq_ok_iff.1 h
  simp only [nameLists, List.forall_mem_cons]
  exact ⟨hregisters, hconstants, hmacros, hgates, by simp⟩

theorem isOrderly_empty (table : GateTable) : (empty table).IsOrderly where
  names := by simp [nameLists, empty, Catalog.names, Catalog.empty]
  registers := filedInOrder_nil
  macros := filedInOrder_nil

theorem IsOrderly.declareRegister (h : c.IsOrderly) {r : Register} {t : Registers}
    (hfresh : c.checkFresh r.name = .ok ()) (ht : c.registers.declare r = .ok t)
    (hsource : ∀ source selection, r.kind = .mapped source selection → source ∈ c.registers.names) :
    IsOrderly { c with registers := t } where
  names := by
    obtain ⟨hnew, rfl⟩ := Registers.declare_eq_ok_iff.1 ht
    rw [nameLists, Table.names_insert, if_neg hnew]
    exact pairwise_disjoint_concat [] _ h.names (not_mem_nameLists hfresh)
  registers := by
    rw [Registers.items_of_declare ht]
    exact h.registers.concat ⟨rfl, hsource⟩
  macros := h.macros

theorem IsOrderly.declareConstant (h : c.IsOrderly) (hfresh : c.checkFresh name = .ok ()) (value : Binary64) :
    IsOrderly { c with constants := c.constants.insert name value } where
  names := by
    rw [nameLists, Table.names_insert, if_neg (checkFresh_eq_ok_iff.1 hfresh).2.1]
    exact pairwise_disjoint_concat [c.registers.names] _ h.names (not_mem_nameLists hfresh)
  registers := h.registers
  macros := h.macros

theorem firstRepeated?_eq_none_iff {seen parameters : List String} :
    firstRepeated? seen parameters = none ↔ parameters.Nodup ∧ ∀ p ∈ parameters, p ∉ seen := by
  induction parameters generalizing seen with
  | nil => simp [firstRepeated?]
  | cons p rest ih =>
    rw [firstRepeated?]
    by_cases hseen : p ∈ seen
    · simp [hseen]
    · rw [if_neg (by simpa using hseen), ih, List.nodup_cons, List.forall_mem_cons]
      simp only [List.mem_cons, not_or, hseen, not_false_eq_true, true_and]
      constructor
      · rintro ⟨hrest, hnew⟩
        exact ⟨⟨fun hp => (hnew p hp).1 rfl, hrest⟩, fun q hq => (hnew q hq).2⟩
      · rintro ⟨⟨hp, hrest⟩, hnew⟩
        exact ⟨hrest, fun q hq => ⟨fun heq => hp (heq ▸ hq), hnew q hq⟩⟩

theorem IsOrderly.declareMacro (h : c.IsOrderly) {parameters : List String} {body : Block}
    (hdeclare : c.declareMacro name parameters body = .ok c') : c'.IsOrderly := by
  have hitems := items_declareMacro hdeclare
  obtain ⟨hfresh, hparameters, hbody, rfl⟩ := declareMacro_eq_ok_iff.1 hdeclare
  constructor
  · rw [nameLists, Table.names_insert, if_neg (checkFresh_eq_ok_iff.1 hfresh).2.2.1]
    exact pairwise_disjoint_concat [c.registers.names, c.constants.names] _ h.names (not_mem_nameLists hfresh)
  · exact h.registers
  · rw [hitems]
    refine h.macros.concat ⟨rfl, (firstRepeated?_eq_none_iff.1 hparameters).1, fun g hg => ?_⟩
    obtain ⟨s, hs, hread⟩ := Reading.mem_calls_readAll_iff.1 hg
    have hknown := (acceptsCall_of_checkStatement (checkStatements_eq_ok_iff.1 hbody s hs) g hread).known
    simpa [GateCall.Known, macroStack] using hknown

theorem Built.isOrderly (h : c.Built) : c.IsOrderly := by
  induction h with
  | empty table => exact isOrderly_empty table
  | register hc h ih =>
    obtain ⟨hfresh, t, ht, rfl⟩ := declareRegister_eq_ok_iff.1 h
    exact ih.declareRegister hfresh ht (by simp)
  | map hc h ih =>
    obtain ⟨hfresh, size, hsize, -, t, ht, rfl⟩ := declareMap_eq_ok_iff.1 h
    refine ih.declareRegister hfresh ht fun source selection hkind => ?_
    cases hkind
    exact Registers.mem_names_of_sizeOf hsize
  | constant hc h ih =>
    obtain ⟨hfresh, rfl⟩ := declareConstant_eq_ok_iff.1 h
    exact ih.declareConstant hfresh _
  | composite hc h ih => exact ih.declareMacro h
  | body hc hb ih => exact ⟨ih.names, ih.registers, ih.macros⟩

/-- The circuit with one more declaration. -/
def Declaration.extend (c : Circuit) : Declaration → Except CircuitError Circuit
  | .register name size => c.declareRegister name size
  | .map name source selection => c.declareMap name source selection
  | .constant name value => c.declareConstant name value
  | .composite name parameters body => c.declareMacro name parameters body

/-- The change gives the computed circuit, or fails as the computation does and leaves the circuit as it is. -/
def Change.Follows (x : Change Unit) (c : Circuit) (result : Except CircuitError Circuit) : Prop :=
  x.run c = match result with
    | .ok c' => .ok () c'
    | .error e => .error e c

/-- Checks may be made in front. -/
theorem follows_require_bind {α : Type} {check : Circuit → Except CircuitError α} {f : α → Change Unit}
    {next : α → Except CircuitError Circuit} (h : ∀ a, (f a).Follows c (next a)) :
    Change.Follows (require check >>= f) c (check c >>= next) := by
  have hrun : (require check >>= f).run c = (MonadExcept.ofExcept (check c) >>= f).run c := rfl
  refine hrun.trans ?_
  cases check c with
  | ok a => exact h a
  | error e => rfl

theorem follows_fileRegister (c : Circuit) (r : Register) :
    (fileRegister r).Follows c (c.registers.declare r >>= fun t => return { c with registers := t }) := by
  have hdeclare : (c.registers.declare r >>= fun t => return { c with registers := t }) =
      ((if c.registers.contains r.name then .error (.duplicateName r.name) else .ok ()) >>= fun _ =>
        .ok { c with registers := c.registers.insert r.name r } : Except CircuitError Circuit) := by
    rw [Registers.declare]
    split
    · rfl
    · rfl
  rw [hdeclare]
  apply follows_require_bind
  intro _
  rfl

/-- A call makes all its checks before it files anything. -/
theorem follows_perform (c : Circuit) (d : Declaration) : d.perform.Follows c (d.extend c) := by
  cases d with
  | register name size =>
    apply follows_require_bind
    intro _
    exact follows_fileRegister c _
  | map name source selection =>
    apply follows_require_bind
    intro _
    rw [Registers.declareMapped, bind_assoc]
    apply follows_require_bind
    intro size
    cases selection.outOfRange? size with
    | some index => rfl
    | none => exact follows_fileRegister c _
  | constant name value =>
    apply follows_require_bind
    intro _
    rfl
  | composite name parameters body =>
    apply follows_require_bind
    intro _
    rw [Declaration.file]
    cases firstRepeated? [] parameters with
    | some p => rfl
    | none =>
      apply follows_require_bind
      intro _
      rfl

theorem declare_eq (c : Circuit) (d : Declaration) :
    c.declare d = match d.extend c with
      | .ok c' => (c', .ok ())
      | .error e => (c, .error e) := by
  rw [declare, follows_perform]
  cases d.extend c with
  | ok c' => rfl
  | error e => rfl

theorem Built.declare (h : c.Built) (d : Declaration) : (c.declare d).1.Built := by
  rw [declare_eq]
  cases hextend : d.extend c with
  | error e => exact h
  | ok c' =>
    cases d with
    | register name size => exact .register h hextend
    | map name source selection => exact .map h hextend
    | constant name value => exact .constant h hextend
    | composite name parameters body => exact .composite h hextend

theorem Built.declareAll (h : c.Built) (ds : List Declaration) : (c.declareAll ds).Built := by
  induction ds generalizing c with
  | nil => exact h
  | cons d rest ih => exact ih (h.declare d)

/-- Whatever is declared, calls that fail included: names are used once, all is filed under its own name and
behind what it refers to, macros have distinct parameters and are accepted by the circuit, calls of them cannot
be written out without end, and a further call that fails changes nothing. -/
theorem declared_circuit_orderly {table : GateTable} {ds : List Declaration}
    (hc : (empty table).declareAll ds = c) :
    c.IsOrderly ∧ c.checkMacros c.macros.values = .ok () ∧ (WellFounded fun s' s => c.WritesOut s s') ∧
      ∀ d e, (c.declare d).2 = .error e → (c.declare d).1 = c := by
  have hbuilt : c.Built := hc ▸ (Built.empty table).declareAll ds
  refine ⟨hbuilt.isOrderly, checkMacros_eq_ok_iff.2 hbuilt.macrosAccepted, ?_, ?_⟩
  · exact wellFounded_writesOut hbuilt.expandable.macros
  · intro d e h
    rw [declare_eq] at h ⊢
    cases hextend : d.extend c with
    | error e => rfl
    | ok c' =>
      rw [hextend] at h
      cases h

open Sample

/-- Half of these calls fail: the names of a native gate and of a register are taken, a source is missing,
parameters are repeated, and a macro calls itself. -/
def attempts : List Declaration :=
  let flip (a : String) : Statement := .gate (.composite "flip" [.ref a])
  [.register "q" 4, .register "Px" 2, .map "even" "q" (.slice 0 4 2), .map "odd" "r" .whole,
    .constant "turns" (Binary64.zero false), .constant "even" (Binary64.zero false),
    .composite "flip" ["a"] (.sequential [px (.ref "a")]), .composite "swap" ["a", "a"] (.sequential []),
    .composite "twice" ["a"] (.sequential [flip "a", .loop (.symbol "turns") .sequential [flip "a", px (onQ 3)]]),
    .composite "again" [] (.sequential [.gate (.composite "again" [])])]

theorem declared_circuit_orderly_attempts :
    ∃ c, (empty .qscout).declareAll attempts = c ∧ c.registers.names = ["q", "even"] ∧
      c.constants.names = ["turns"] ∧ c.macros.names = ["flip", "twice"] ∧ c.IsOrderly ∧
      c.checkMacros c.macros.values = .ok () ∧
      (WellFounded fun s' s => c.WritesOut s s') ∧
      (c.declare (.constant "flip" (Binary64.zero true))).2 = .error (.duplicateName "flip") ∧
      (c.declare (.constant "flip" (Binary64.zero true))).1 = c := by
  have hreached : (empty .qscout).declareAll attempts = (empty .qscout).declareAll attempts := rfl
  obtain ⟨horderly, hchecked, hends, hunchanged⟩ := declared_circuit_orderly hreached
  have hfails : (((empty .qscout).declareAll attempts).declare (.constant "flip" (Binary64.zero true))).2 =
      .error (.duplicateName "flip") := by decide +kernel
  exact ⟨_, hreached, by decide +kernel, by decide +kernel, by decide +kernel, horderly, hchecked, hends, hfails,
    hunchanged _ _ hfails⟩

end Circuit

end IonSchedule
