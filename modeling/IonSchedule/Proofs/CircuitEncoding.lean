import IonSchedule.Encoding.Read
import IonSchedule.Encoding.Write
import IonSchedule.Proofs.Blocks
import IonSchedule.Proofs.JsonText
import IonSchedule.Proofs.Reading

/-! # Circuits as JSON text

Each part of a circuit is read back from its JSON value if the numbers in it can be: a double-precision number
has to be finite, and a natural number has to fit into 64 bits. So is the circuit, and together with the texts
of JSON values this gives the circuits that are read back from their text.
-/
namespace IonSchedule

/-- A number in a circuit. -/
inductive Scalar where
  | real (x : Binary64)
  | natural (n : Nat)

/-- Whether the number can be read back. -/
def Scalar.Fits : Scalar → Prop
  | .real x => x.isFinite = true
  | .natural n => n < Nat.pow 2 64

namespace Json

@[simp] theorem writable_string (text : String) : (Json.string text).Writable := .string text

@[simp] theorem writable_array_iff {items : List Json} : (Json.array items).Writable ↔ ∀ v ∈ items, v.Writable := by
  constructor
  · rintro (⟨⟩ | ⟨⟩ | ⟨⟩ | ⟨⟩ | h)
    exact h
  · exact .array

@[simp] theorem writable_object_iff {entries : List (String × Json)} :
    (Json.object entries).Writable ↔ ∀ entry ∈ entries, entry.2.Writable := by
  constructor
  · rintro (⟨⟩ | ⟨⟩ | ⟨⟩ | ⟨⟩ | ⟨⟩ | h)
    exact h
  · exact .object

/-- A form of JSON for values of a type: what is written has a text, and it is read back as the value that was
written, exactly if that value is fit. -/
structure Encodes {α : Type} (read : Json → Option α) (write : α → Json) (Fit : α → Prop) : Prop where
  writable : ∀ a, (write a).Writable
  read_eq_some_iff : ∀ a b, read (write a) = some b ↔ Fit a ∧ a = b

theorem encodes_string : Encodes string? .string fun _ => True where
  writable := .string
  read_eq_some_iff a b := by simp [string?]

theorem encodes_nat : Encodes natural? nat fun n => Scalar.Fits (.natural n) where
  writable n := .number (Literal.isWellFormed_ofNat n)
  read_eq_some_iff n m := by
    simp only [natural?, nat, Literal.natural?_ofNat, Option.bind_some, Scalar.Fits]
    split
    · rename_i hn
      simp [hn]
    · rename_i hn
      simp [hn]

theorem encodes_real : Encodes real? real fun x => Scalar.Fits (.real x) where
  writable x := by
    unfold real
    split
    · rename_i literal h
      exact .number (Literal.ofBinary64?_eq_some h).1
    · exact .null
  read_eq_some_iff x y := by
    cases x with
    | nan => simp [real, Literal.ofBinary64?, real?, Scalar.Fits, Binary64.isFinite]
    | infinity negative => simp [real, Literal.ofBinary64?, real?, Scalar.Fits, Binary64.isFinite]
    | finite negative k =>
      obtain ⟨literal, hliteral⟩ : ∃ literal, Literal.ofBinary64? layout (.finite negative k) = some literal :=
        ⟨_, rfl⟩
      simp [real, hliteral, real?, (Literal.ofBinary64?_eq_some hliteral).2, Scalar.Fits, Binary64.isFinite]

section Compound

variable {α : Type} {read : Json → Option α} {write : α → Json} {Fit : α → Prop}

theorem mapM_read_eq_some_iff {as : List α} (h : ∀ a ∈ as, ∀ b, read (write a) = some b ↔ Fit a ∧ a = b)
    (bs : List α) : (as.map write).mapM read = some bs ↔ (∀ a ∈ as, Fit a) ∧ as = bs := by
  induction as generalizing bs with
  | nil => simp
  | cons a as ih =>
    have hrest := ih fun b hb => h b (List.mem_cons_of_mem a hb)
    simp only [List.map_cons, List.mapM_cons, Option.bind_eq_bind, Option.bind_eq_some_iff,
      h a List.mem_cons_self, hrest, Option.pure_def, Option.some.injEq, List.forall_mem_cons]
    constructor
    · rintro ⟨b, ⟨ha, rfl⟩, cs, ⟨has, rfl⟩, rfl⟩
      exact ⟨⟨ha, has⟩, rfl⟩
    · rintro ⟨⟨ha, has⟩, rfl⟩
      exact ⟨a, ⟨ha, rfl⟩, as, ⟨has, rfl⟩, rfl⟩

theorem Encodes.listOf (h : Encodes read write Fit) :
    Encodes (listOf? read) (fun as => .array (as.map write)) fun as => ∀ a ∈ as, Fit a where
  writable as := .array fun v hv => by
    obtain ⟨a, -, rfl⟩ := List.mem_map.1 hv
    exact h.writable a
  read_eq_some_iff _ bs := mapM_read_eq_some_iff (fun a _ => h.read_eq_some_iff a) bs

theorem Encodes.entry (h : Encodes read write Fit) (entries items : List (String × α)) :
    ((entries.map fun entry => (entry.1, write entry.2)).mapM fun entry => (read entry.2).map (entry.1, ·)) =
        some items ↔
      (∀ entry ∈ entries, Fit entry.2) ∧ entries = items := by
  induction entries generalizing items with
  | nil => simp
  | cons entry entries ih =>
    simp only [List.map_cons, List.mapM_cons, Option.bind_eq_bind, Option.bind_eq_some_iff, Option.map_eq_some_iff,
      h.read_eq_some_iff, ih, Option.pure_def, Option.some.injEq, List.forall_mem_cons]
    constructor
    · rintro ⟨-, ⟨b, ⟨hentry, rfl⟩, rfl⟩, rest, ⟨hrest, rfl⟩, rfl⟩
      exact ⟨⟨hentry, hrest⟩, rfl⟩
    · rintro ⟨⟨hentry, hrest⟩, rfl⟩
      exact ⟨entry, ⟨entry.2, ⟨hentry, rfl⟩, rfl⟩, entries, ⟨hrest, rfl⟩, rfl⟩

theorem Encodes.tableOf (h : Encodes read write Fit) :
    Encodes (tableOf? read) (Table.toJson write) fun t => ∀ a ∈ t.values, Fit a where
  writable t := .object fun entry hentry => by
    obtain ⟨item, -, rfl⟩ := List.mem_map.1 hentry
    exact h.writable item.2
  read_eq_some_iff t u := by
    simp only [tableOf?, Table.toJson, Option.map_eq_some_iff, h.entry, Table.values, List.forall_mem_map]
    constructor
    · rintro ⟨items, ⟨hfit, rfl⟩, rfl⟩
      exact ⟨hfit, (Catalog.ofList_items t).symm⟩
    · rintro ⟨hfit, rfl⟩
      exact ⟨t.items, ⟨hfit, rfl⟩, Catalog.ofList_items t⟩

end Compound

end Json

open Json

/-! ## Registers -/

namespace Selection

def naturals : Selection → List Nat
  | .whole => []
  | .slice start stop step => [start, stop, step]
  | .indices positions => positions

theorem encodes : Encodes Selection.ofJson? toJson fun s => ∀ n ∈ s.naturals, Scalar.Fits (.natural n) where
  writable s := by
    cases s with
    | whole => exact .string "whole"
    | slice start stop step => simp [toJson, encodes_nat.writable]
    | indices positions => simp [toJson, encodes_nat.writable]
  read_eq_some_iff s s' := by
    cases s with
    | whole => simp [Selection.ofJson?, toJson, naturals]
    | slice start stop step =>
      simp [Selection.ofJson?, toJson, naturals, Selection.readTagged?, record?, unrepeated?, field?,
        Option.bind_eq_some_iff, encodes_nat.read_eq_some_iff, and_assoc]
    | indices positions =>
      simp [Selection.ofJson?, toJson, naturals, Selection.readTagged?, encodes_nat.listOf.read_eq_some_iff]

end Selection

/-! Registers are held before they are read: a natural number that is held has to be in the range of
double-precision numbers, but this asks less than reading it. -/

theorem held?_nat_eq_some_iff (n : Nat) (v : Json) :
    held? (nat n) = some v ↔ (Literal.ofNat n).value?.isSome = true ∧ nat n = v := by
  simp only [nat, held?, Option.map_eq_some_iff, Option.isSome_iff_exists]
  constructor
  · rintro ⟨x, hx, rfl⟩
    exact ⟨⟨x, hx⟩, rfl⟩
  · rintro ⟨⟨x, hx⟩, rfl⟩
    exact ⟨x, hx, rfl⟩

theorem heldItems?_nat_eq_some_iff (positions : List Nat) (items : List Json) :
    heldItems? (positions.map nat) = some items ↔
      (∀ n ∈ positions, (Literal.ofNat n).value?.isSome = true) ∧ positions.map nat = items := by
  induction positions generalizing items with
  | nil => simp [heldItems?]
  | cons n positions ih =>
    simp only [List.map_cons, heldItems?, Option.bind_eq_some_iff, Option.map_eq_some_iff,
      held?_nat_eq_some_iff, ih, List.forall_mem_cons]
    constructor
    · rintro ⟨-, ⟨hn, rfl⟩, -, ⟨hrest, rfl⟩, rfl⟩
      exact ⟨⟨hn, hrest⟩, rfl⟩
    · rintro ⟨⟨hn, hrest⟩, rfl⟩
      exact ⟨nat n, ⟨hn, rfl⟩, positions.map nat, ⟨hrest, rfl⟩, rfl⟩

theorem Selection.held?_toJson_eq_some_iff (s : Selection) (v : Json) :
    held? s.toJson = some v ↔ (∀ n ∈ s.naturals, (Literal.ofNat n).value?.isSome = true) ∧ s.toJson = v := by
  cases s with
  | whole => simp [toJson, naturals, held?]
  | slice start stop step =>
    simp [toJson, naturals, held?, heldEntries?, Option.bind_eq_some_iff, held?_nat_eq_some_iff, and_assoc]
  | indices positions =>
    simp [toJson, naturals, held?, heldEntries?, Option.bind_eq_some_iff, heldItems?_nat_eq_some_iff]

namespace Register

def naturals (r : Register) : List Nat :=
  match r.kind with
  | .fundamental size => [size]
  | .mapped _ selection => selection.naturals

theorem encodes : Encodes Register.ofJson? toJson fun r => ∀ n ∈ r.naturals, Scalar.Fits (.natural n) where
  writable r := by
    obtain ⟨name, kind⟩ := r
    cases kind with
    | fundamental size => simp [toJson, encodes_nat.writable]
    | mapped source selection => simp [toJson, Selection.encodes.writable]
  read_eq_some_iff r r' := by
    obtain ⟨name, kind⟩ := r
    cases kind with
    | fundamental size =>
      have hread : Register.ofJson? (toJson ⟨name, .fundamental size⟩) = some r' ↔
          ((Literal.ofNat size).value?.isSome = true ∧ Scalar.Fits (.natural size)) ∧
          ⟨name, .fundamental size⟩ = r' := by
        simp [Register.ofJson?, toJson, unrepeated?, field?, heldEntries?, held?, isKind, string?,
          Option.bind_eq_some_iff, held?_nat_eq_some_iff, encodes_nat.read_eq_some_iff, and_assoc]
      have hheld : Scalar.Fits (.natural size) → (Literal.ofNat size).value?.isSome = true :=
        Literal.isSome_value?_ofNat
      rw [hread, and_iff_right_of_imp hheld]
      simp [naturals]
    | mapped source selection =>
      have hread : Register.ofJson? (toJson ⟨name, .mapped source selection⟩) = some r' ↔
          ((∀ n ∈ selection.naturals, (Literal.ofNat n).value?.isSome = true) ∧
            ∀ n ∈ selection.naturals, Scalar.Fits (.natural n)) ∧ ⟨name, .mapped source selection⟩ = r' := by
        simp [Register.ofJson?, toJson, unrepeated?, field?, heldEntries?, held?, isKind, string?, natural?,
          Option.bind_eq_some_iff, Selection.held?_toJson_eq_some_iff, Selection.encodes.read_eq_some_iff,
          and_assoc]
      have hheld : (∀ n ∈ selection.naturals, Scalar.Fits (.natural n)) →
          ∀ n ∈ selection.naturals, (Literal.ofNat n).value?.isSome = true :=
        fun hfits n hn => Literal.isSome_value?_ofNat (hfits n hn)
      rw [hread, and_iff_right_of_imp hheld]
      rfl

end Register

/-! ## Gates -/

theorem ParameterKind.encodes : Encodes ParameterKind.ofJson? (fun k => .string k.text) fun _ => True where
  writable k := .string k.text
  read_eq_some_iff k k' := by
    cases k with
    | qubit => simp [ParameterKind.ofJson?, word?, text]
    | float => simp [ParameterKind.ofJson?, word?, text]
    | int => simp [ParameterKind.ofJson?, word?, text]

theorem Parameter.encodes : Encodes Parameter.ofJson? toJson fun _ => True where
  writable p := by simp [toJson]
  read_eq_some_iff p p' := by
    simp [Parameter.ofJson?, toJson, record?, unrepeated?, field?, string?, Option.bind_eq_some_iff,
      ParameterKind.encodes.read_eq_some_iff]

theorem GateDefinition.encodes : Encodes GateDefinition.ofJson? toJson fun _ => True where
  writable d := by simp [toJson, Parameter.encodes.writable]
  read_eq_some_iff d d' := by
    simp [GateDefinition.ofJson?, toJson, record?, unrepeated?, field?, optional?, string?, Option.bind_eq_some_iff,
      Parameter.encodes.listOf.read_eq_some_iff]

theorem GateTable.encodes : Encodes GateTable.ofJson? toJson fun _ => True where
  writable t := GateDefinition.encodes.listOf.writable t.items
  read_eq_some_iff t t' := by
    simp [GateTable.ofJson?, toJson, GateDefinition.encodes.listOf.read_eq_some_iff, Catalog.ofList_items]

theorem GateKind.encodes : Encodes GateKind.ofJson? toJson fun _ => True where
  writable k := by
    cases k with
    | native definition => simp [toJson, GateDefinition.encodes.writable]
    | composite => simp [toJson]
  read_eq_some_iff k k' := by
    cases k with
    | native definition =>
      simp [GateKind.ofJson?, GateKind.ofType?, toJson, unrepeated?, field?, definitionFirst, word?,
        GateDefinition.encodes.read_eq_some_iff]
    | composite => simp [GateKind.ofJson?, GateKind.ofType?, toJson, unrepeated?, field?, word?]

theorem Qubit.encodes : Encodes Qubit.ofJson? toJson fun q => Scalar.Fits (.natural q.index) where
  writable q := by simp [toJson, encodes_nat.writable]
  read_eq_some_iff q q' := by
    simp [Qubit.ofJson?, toJson, record?, unrepeated?, field?, string?, Option.bind_eq_some_iff,
      encodes_nat.read_eq_some_iff]

namespace Argument

def scalars : Argument → List Scalar
  | .number value => [.real value]
  | .qubit q => [.natural q.index]
  | .ref _ => []

theorem encodes : Encodes Argument.ofJson? toJson fun a => ∀ x ∈ a.scalars, x.Fits where
  writable a := by
    cases a with
    | number value => simp [toJson, encodes_real.writable]
    | qubit q => simp [toJson, Qubit.encodes.writable]
    | ref name => simp [toJson]
  read_eq_some_iff a a' := by
    cases a with
    | number value => simp [Argument.ofJson?, toJson, scalars, encodes_real.read_eq_some_iff]
    | qubit q => simp [Argument.ofJson?, toJson, scalars, Qubit.encodes.read_eq_some_iff]
    | ref name => simp [Argument.ofJson?, toJson, scalars, string?]

end Argument

namespace GateCall

def scalars (g : GateCall) : List Scalar := g.args.flatMap Argument.scalars

theorem encodes : Encodes GateCall.ofJson? toJson fun g => ∀ x ∈ g.scalars, x.Fits where
  writable g := by simp [toJson, GateKind.encodes.writable, Argument.encodes.writable]
  read_eq_some_iff g g' := by
    rw [scalars, List.forall_mem_flatMap]
    simp [GateCall.ofJson?, toJson, record?, unrepeated?, field?, optional?, string?, Option.bind_eq_some_iff,
      GateKind.encodes.read_eq_some_iff, Argument.encodes.listOf.read_eq_some_iff]

end GateCall

/-! ## Statements -/

namespace LoopCount

def scalars : LoopCount → List Scalar
  | .fixed count => [.natural count]
  | .symbol _ => []

theorem encodes : Encodes LoopCount.ofJson? toJson fun count => ∀ x ∈ count.scalars, x.Fits where
  writable count := by
    cases count with
    | fixed count => simp [toJson, encodes_nat.writable]
    | symbol name => simp [toJson]
  read_eq_some_iff count count' := by
    cases count with
    | fixed count => simp [LoopCount.ofJson?, toJson, scalars, encodes_nat.read_eq_some_iff]
    | symbol name => simp [LoopCount.ofJson?, toJson, scalars, string?]

end LoopCount

theorem BlockKind.encodes : Encodes BlockKind.ofJson? (fun k => .string k.word) fun _ => True where
  writable k := .string k.word
  read_eq_some_iff k k' := by
    cases k with
    | sequential => simp [BlockKind.ofJson?, word?, word]
    | parallel => simp [BlockKind.ofJson?, word?, word]
    | unscheduled => simp [BlockKind.ofJson?, word?, word]

/-- The numbers of statements at any depth, the counts of loops included. -/
def Reading.scalars : Reading (Multiset Scalar) where
  gate g := g.scalars
  loop count body := count.scalars + body

theorem Reading.forall_scalars_loop_iff {P : Scalar → Prop} {count : LoopCount} {body : Multiset Scalar} :
    (∀ x ∈ Reading.scalars.loop count body, P x) ↔ (∀ x ∈ count.scalars, P x) ∧ ∀ x ∈ body, P x := by
  simp only [scalars, Multiset.mem_add, Multiset.mem_coe, or_imp, forall_and]

namespace Statement

theorem listToJson_eq_map (ss : List Statement) : listToJson ss = ss.map toJson := by
  induction ss with
  | nil => rw [listToJson, List.map_nil]
  | cons s rest ih => rw [listToJson, List.map_cons, ih]

theorem ofItems?_eq_mapM (items : List Json) : ofItems? items = items.mapM Statement.ofJson? := by
  induction items with
  | nil =>
    rw [ofItems?]
    rfl
  | cons v rest ih =>
    rw [ofItems?, List.mapM_cons, ih]
    cases Statement.ofJson? v with
    | none => rfl
    | some s =>
      cases rest.mapM Statement.ofJson? with
      | none => rfl
      | some ss => rfl

def scalars (s : Statement) : Multiset Scalar := Reading.scalars.read s

/-- A block is read back if its statements are. -/
theorem ofJson?_blockJson_eq_some_iff {ss : List Statement}
    (h : ∀ s ∈ ss, ∀ s', Statement.ofJson? s.toJson = some s' ↔ (∀ x ∈ s.scalars, x.Fits) ∧ s = s')
    (kind : BlockKind) (b : Block) :
    Block.ofJson? (blockJson kind (listToJson ss)) = some b ↔
      (∀ x ∈ Reading.scalars.readAll ss, x.Fits) ∧ ⟨kind, ss⟩ = b := by
  have hstatements := mapM_read_eq_some_iff h
  rw [Reading.forall_readAll_iff]
  simp [-List.mapM_map, blockJson, Block.ofJson?, Block.ofEntries?, listOfJson?, ofItems?_eq_mapM,
    listToJson_eq_map, Option.bind_eq_some_iff, BlockKind.encodes.read_eq_some_iff, hstatements, scalars]

theorem writable_blockJson {ss : List Statement} (h : ∀ s ∈ ss, s.toJson.Writable) (kind : BlockKind) :
    (blockJson kind (listToJson ss)).Writable := by
  simpa [blockJson, listToJson_eq_map] using h

theorem encodes : Encodes Statement.ofJson? toJson fun s => ∀ x ∈ s.scalars, x.Fits where
  writable s := by
    induction s using Statement.induction with
    | gate g => simp [toJson, GateCall.encodes.writable]
    | block kind ss ih => simp [toJson, writable_blockJson ih]
    | loop count kind body ih => simp [toJson, LoopCount.encodes.writable, writable_blockJson ih]
  read_eq_some_iff s := by
    induction s using Statement.induction with
    | gate g =>
      intro s'
      simp [Statement.ofJson?, toJson, scalars, Reading.scalars, GateCall.encodes.read_eq_some_iff]
    | block kind ss ih =>
      intro s'
      simp [Statement.ofJson?, toJson, scalars, ofJson?_blockJson_eq_some_iff ih, Block.toStatement]
    | loop count kind body ih =>
      intro s'
      simp [Statement.ofJson?, toJson, scalars, loopOfJson?, loopOfEntries?, Option.bind_eq_some_iff,
        LoopCount.encodes.read_eq_some_iff, ofJson?_blockJson_eq_some_iff ih, Reading.forall_scalars_loop_iff,
        and_assoc]

end Statement

namespace Block

def scalars (b : Block) : Multiset Scalar := Reading.scalars.readAll b.statements

theorem encodes : Encodes Block.ofJson? toJson fun b => ∀ x ∈ b.scalars, x.Fits where
  writable b := Statement.writable_blockJson (fun s _ => Statement.encodes.writable s) b.kind
  read_eq_some_iff b :=
    Statement.ofJson?_blockJson_eq_some_iff (fun s _ => Statement.encodes.read_eq_some_iff s) b.kind

end Block

/-! ## Circuits -/

theorem Macro.encodes : Encodes Macro.ofJson? toJson fun m => ∀ x ∈ m.body.scalars, x.Fits where
  writable m := by simp [toJson, Block.encodes.writable]
  read_eq_some_iff m m' := by
    simp [Macro.ofJson?, toJson, record?, unrepeated?, field?, optional?, string?, Option.bind_eq_some_iff,
      encodes_string.listOf.read_eq_some_iff, Block.encodes.read_eq_some_iff]

namespace Circuit

/-- Every number in a circuit: the constants, the sizes and positions of the registers, and what the macros and
the body hold at any depth. -/
def scalars (c : Circuit) : Multiset Scalar :=
  c.constants.values.map Scalar.real + (c.registers.values.flatMap Register.naturals).map Scalar.natural +
    Reading.scalars.readAll (c.macros.values.flatMap (·.body.statements) ++ c.body.statements)

theorem forall_scalars_iff {P : Scalar → Prop} {c : Circuit} :
    (∀ x ∈ c.scalars, P x) ↔
      (∀ x ∈ c.constants.values, P (.real x)) ∧ (∀ r ∈ c.registers.values, ∀ n ∈ r.naturals, P (.natural n)) ∧
        (∀ m ∈ c.macros.values, ∀ x ∈ m.body.scalars, P x) ∧ ∀ x ∈ c.body.scalars, P x := by
  simp only [scalars, Block.scalars, Multiset.mem_add, Multiset.mem_coe, or_imp, forall_and,
    Reading.forall_readAll_iff, List.forall_mem_append, List.forall_mem_flatMap, List.forall_mem_map, and_assoc]

theorem encodes : Encodes Circuit.ofJson? toJson fun c => ∀ x ∈ c.scalars, x.Fits where
  writable c := by
    simp [toJson, encodes_real.tableOf.writable, Register.encodes.tableOf.writable, Macro.encodes.tableOf.writable,
      GateTable.encodes.writable, Block.encodes.writable, Registers.toJson]
  read_eq_some_iff c c' := by
    rw [forall_scalars_iff]
    simp [Circuit.ofJson?, toJson, record?, unrepeated?, field?, optional?, Option.bind_eq_some_iff,
      Registers.ofJson?, Registers.toJson, encodes_real.tableOf.read_eq_some_iff,
      Register.encodes.tableOf.read_eq_some_iff, Macro.encodes.tableOf.read_eq_some_iff,
      GateTable.encodes.read_eq_some_iff, Block.encodes.read_eq_some_iff, and_assoc]

/-- A circuit is read back from its compact text and from its pretty text exactly if its double-precision
numbers are all finite; natural numbers are those of 64 bits. Nothing but the circuit itself, in its order, is
read from these texts. -/
theorem parse?_eq_some_iff {c c' : Circuit} {text : String} (hdepth : c.toJson.depth ≤ 127)
    (htext : text = c.toJson.compact ∨ text = c.toJson.pretty) :
    Circuit.parse? text = some c' ↔
      (∀ x, .real x ∈ c.scalars → x.isFinite = true) ∧ (∀ n, .natural n ∈ c.scalars → n < Nat.pow 2 64) ∧
      c' = c := by
  have hvalue : Json.parse? text = some c.toJson := by
    rcases htext with rfl | rfl
    · exact Json.parse?_compact (encodes.writable c) hdepth
    · exact Json.parse?_pretty (encodes.writable c) hdepth
  have hfits : (∀ x ∈ c.scalars, x.Fits) ↔
      (∀ x, .real x ∈ c.scalars → x.isFinite = true) ∧ ∀ n, .natural n ∈ c.scalars → n < Nat.pow 2 64 := by
    constructor
    · exact fun h => ⟨fun x hx => h _ hx, fun n hn => h _ hn⟩
    · rintro ⟨hreal, hnatural⟩ (x | n) hx
      · exact hreal x hx
      · exact hnatural n hx
  rw [Circuit.parse?, hvalue, Option.bind_some, encodes.read_eq_some_iff, hfits, and_assoc, eq_comm]

end Circuit

namespace Sample

/-- A circuit with every form of its parts. Names hold quotes, line ends and letters of other alphabets,
registers and macros are filed under other names than their own, the sources of registers are missing or cyclic,
and the constants are a negative zero, one tenth and the least positive number. -/
def assorted : Circuit where
  constants := ⟨[("zero\n", .zero true), ("\"tenth\"", .finite false ⟨4591870180066957722, by decide⟩),
    ("ε", .finite false ⟨1, by decide⟩)], by decide⟩
  registers :=
    ⟨[("q", ⟨"p", .fundamental 3⟩), ("", ⟨"whole\\", .mapped "" .whole⟩),
      ("s", ⟨"s", .mapped "q" (.slice 0 9 2)⟩), ("i", ⟨"q", .mapped "missing" (.indices [7, 0, 7])⟩)], by decide⟩
  macros := ⟨[("m", ⟨"other", ["a", "a"], ⟨.unscheduled, [.gate ⟨"Px", .composite, [.ref "a"]⟩]⟩⟩)], by decide⟩
  nativeGates := ⟨[⟨"Rx", [⟨"q", .qubit⟩, ⟨"angle", .float⟩]⟩, ⟨"count", [⟨"n", .int⟩]⟩], by decide⟩
  body := ⟨.parallel, [.loop (.symbol "n") .sequential [.block .unscheduled [], .loop (.fixed 4) .parallel
    [.gate ⟨"Rx", .native ⟨"other", []⟩, [.qubit ⟨"q", 5⟩, .number (.zero false)]⟩]]]⟩

end Sample

theorem Circuit.parse?_assorted :
    Circuit.parse? Sample.assorted.toJson.compact = some Sample.assorted ∧
      Circuit.parse? Sample.assorted.toJson.pretty = some Sample.assorted := by
  have hdepth : Sample.assorted.toJson.depth ≤ 127 := by decide
  have hfits : ∀ x ∈ Sample.assorted.scalars, x.Fits := by
    rw [Circuit.forall_scalars_iff]
    simp [Sample.assorted, Table.values, Register.naturals, Selection.naturals, Block.scalars, Reading.scalars,
      GateCall.scalars, Argument.scalars, LoopCount.scalars, Scalar.Fits, Binary64.isFinite, Binary64.zero]
  have hparts : (∀ x, .real x ∈ Sample.assorted.scalars → x.isFinite = true) ∧
      (∀ n, .natural n ∈ Sample.assorted.scalars → n < Nat.pow 2 64) ∧ Sample.assorted = Sample.assorted :=
    ⟨fun x hx => hfits _ hx, fun n hn => hfits _ hn, rfl⟩
  exact ⟨(Circuit.parse?_eq_some_iff hdepth (.inl rfl)).2 hparts,
    (Circuit.parse?_eq_some_iff hdepth (.inr rfl)).2 hparts⟩

end IonSchedule
