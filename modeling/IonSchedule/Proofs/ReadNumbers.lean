import IonSchedule.Proofs.CircuitEncoding

/-! # Numbers that are read

A double-precision number is read as a finite one, and a natural number only if it fits into 64 bits. So every
number in a circuit that was read from a text can be read back.
-/
namespace IonSchedule

theorem Literal.isFinite_of_value? {l : Literal} {x : Binary64} (h : l.value? = some x) : x.isFinite = true := by
  rw [Literal.value?, Binary64.ofDecimal?_eq] at h
  split at h
  · cases h
    rfl
  · cases h

theorem exists_of_mapM_eq_some {α β : Type} {f : α → Option β} {as : List α} {bs : List β}
    (h : as.mapM f = some bs) : ∀ b ∈ bs, ∃ a ∈ as, f a = some b := by
  induction as generalizing bs with
  | nil =>
    cases h
    simp
  | cons a as ih =>
    simp only [List.mapM_cons, Option.bind_eq_bind, Option.bind_eq_some_iff, Option.pure_def,
      Option.some.injEq] at h
    obtain ⟨b, hb, rest, hrest, rfl⟩ := h
    rw [List.forall_mem_cons]
    refine ⟨⟨a, List.mem_cons_self, hb⟩, fun b' hb' => ?_⟩
    obtain ⟨a', ha', hread⟩ := ih hrest b' hb'
    exact ⟨a', List.mem_cons_of_mem a ha', hread⟩

namespace Catalog

variable {α : Type} {name : α → String}

theorem mem_of_mem_putItem {a b : α} {items : List α} (h : b ∈ putItem name a items) : b = a ∨ b ∈ items := by
  induction items with
  | nil => exact Or.inl (List.mem_singleton.1 h)
  | cons c rest ih =>
    rw [putItem] at h
    split at h
    · exact (List.mem_cons.1 h).imp_right (List.mem_cons_of_mem c)
    · rcases List.mem_cons.1 h with rfl | h
      · exact Or.inr List.mem_cons_self
      · exact (ih h).imp_right (List.mem_cons_of_mem c)

/-- A catalog holds nothing but what it was made from. -/
theorem mem_of_mem_ofList {b : α} {items : List α} (h : b ∈ (ofList items : Catalog name).items) : b ∈ items := by
  suffices H : ∀ c : Catalog name, b ∈ (items.foldl put c).items → b ∈ c.items ∨ b ∈ items by
    simpa [empty] using H empty h
  clear h
  induction items with
  | nil => exact fun c hb => Or.inl hb
  | cons a rest ih =>
    intro c hb
    rcases ih (c.put a) hb with hput | hrest
    · rcases mem_of_mem_putItem hput with rfl | hc
      · exact Or.inr List.mem_cons_self
      · exact Or.inl hc
    · exact Or.inr (List.mem_cons_of_mem a hrest)

end Catalog

namespace Json

/-- All that a reader gives is fit. -/
def Yields {α : Type} (read : Json → Option α) (Fit : α → Prop) : Prop := ∀ v a, read v = some a → Fit a

theorem yields_natural : Yields natural? fun n => Scalar.Fits (.natural n) := by
  intro v n h
  cases v with
  | number literal =>
    obtain ⟨m, -, hm⟩ := Option.bind_eq_some_iff.1 h
    split at hm
    · rename_i hlt
      cases hm
      exact hlt
    · cases hm
  | _ => cases h

theorem yields_real : Yields real? fun x => Scalar.Fits (.real x) := by
  intro v x h
  cases v with
  | number literal => exact Literal.isFinite_of_value? h
  | _ => cases h

section Compound

variable {α : Type} {read : Json → Option α} {Fit : α → Prop} {entries : List (String × Json)} {key : String}
  {a : α}

theorem Yields.optional (h : Yields read Fit) {default : α} (hdefault : Fit default)
    (ha : optional? entries key default read = some a) : Fit a := by
  rw [optional?] at ha
  split at ha
  · cases ha
    exact hdefault
  · exact h _ _ ha

theorem Yields.listOf (h : Yields read Fit) : Yields (listOf? read) fun as => ∀ a ∈ as, Fit a := by
  intro v as has a ha
  cases v with
  | array items =>
    obtain ⟨v, -, hv⟩ := exists_of_mapM_eq_some has a ha
    exact h v a hv
  | _ => cases has

theorem Yields.tableOf (h : Yields read Fit) : Yields (tableOf? read) fun t => ∀ a ∈ t.values, Fit a := by
  intro v t ht
  cases v with
  | object entries =>
    obtain ⟨items, hitems, rfl⟩ := Option.map_eq_some_iff.1 ht
    rw [Table.values, List.forall_mem_map]
    intro item hitem
    obtain ⟨entry, -, hentry⟩ := exists_of_mapM_eq_some hitems item (Catalog.mem_of_mem_ofList hitem)
    obtain ⟨a, ha, rfl⟩ := Option.map_eq_some_iff.1 hentry
    exact h _ a ha
  | _ => cases ht

end Compound

end Json

open Json

/-! ## Registers and gates -/

theorem Selection.naturals_of_readTagged? {tag : String} {v : Json} {s : Selection}
    (h : Selection.readTagged? tag v = some s) : ∀ n ∈ s.naturals, Scalar.Fits (.natural n) := by
  unfold Selection.readTagged? at h
  split at h
  · split at h
    · cases h
      simp [naturals]
    · cases h
  · split at h
    · simp only [Option.bind_eq_bind, Option.bind_eq_some_iff, Option.pure_def, Option.some.injEq] at h
      obtain ⟨entries, -, start, ⟨_, -, hstart⟩, stop, ⟨_, -, hstop⟩, step, ⟨_, -, hstep⟩, rfl⟩ := h
      simp [naturals, yields_natural _ _ hstart, yields_natural _ _ hstop, yields_natural _ _ hstep]
    · split at h
      · obtain ⟨positions, hpositions, rfl⟩ := Option.map_eq_some_iff.1 h
        exact yields_natural.listOf _ _ hpositions
      · cases h

theorem Selection.yields : Yields Selection.ofJson? fun s => ∀ n ∈ s.naturals, Scalar.Fits (.natural n) := by
  intro v s h
  unfold Selection.ofJson? at h
  split at h
  · split at h
    · cases h
      simp [naturals]
    · cases h
  · exact Selection.naturals_of_readTagged? h
  · cases h

theorem Register.yields : Yields Register.ofJson? fun r => ∀ n ∈ r.naturals, Scalar.Fits (.natural n) := by
  intro v r h
  cases v with
  | object entries =>
    simp only [Register.ofJson?, Option.bind_eq_bind, Option.bind_eq_some_iff] at h
    obtain ⟨entries, -, name, -, details, -, kind, -, h⟩ := h
    split at h
    · simp only [Option.bind_eq_some_iff, Option.pure_def, Option.some.injEq] at h
      obtain ⟨details, -, size, ⟨_, -, hsize⟩, rfl⟩ := h
      exact List.forall_mem_singleton.2 (yields_natural _ _ hsize)
    · split at h
      · simp only [Option.bind_eq_some_iff, Option.pure_def, Option.some.injEq] at h
        obtain ⟨details, -, source, -, selection, ⟨_, -, hselection⟩, rfl⟩ := h
        exact Selection.yields _ _ hselection
      · cases h
  | _ => cases h

theorem Qubit.yields : Yields Qubit.ofJson? fun q => Scalar.Fits (.natural q.index) := by
  intro v q h
  simp only [Qubit.ofJson?, Option.bind_eq_bind, Option.bind_eq_some_iff, Option.pure_def, Option.some.injEq] at h
  obtain ⟨entries, -, register, -, index, ⟨_, -, hindex⟩, rfl⟩ := h
  exact yields_natural _ _ hindex

theorem Argument.yields : Yields Argument.ofJson? fun a => ∀ x ∈ a.scalars, x.Fits := by
  intro v a h
  unfold Argument.ofJson? at h
  split at h
  · split at h
    · obtain ⟨x, hx, rfl⟩ := Option.map_eq_some_iff.1 h
      exact List.forall_mem_singleton.2 (yields_real _ _ hx)
    · split at h
      · obtain ⟨q, hq, rfl⟩ := Option.map_eq_some_iff.1 h
        exact List.forall_mem_singleton.2 (Qubit.yields _ _ hq)
      · split at h
        · obtain ⟨name, -, rfl⟩ := Option.map_eq_some_iff.1 h
          exact List.forall_mem_nil _
        · cases h
  · cases h

theorem GateCall.yields : Yields GateCall.ofJson? fun g => ∀ x ∈ g.scalars, x.Fits := by
  intro v g h
  simp only [GateCall.ofJson?, Option.bind_eq_bind, Option.bind_eq_some_iff, Option.pure_def,
    Option.some.injEq] at h
  obtain ⟨entries, -, name, -, kind, -, args, hargs, rfl⟩ := h
  rw [scalars, List.forall_mem_flatMap]
  exact Argument.yields.listOf.optional (List.forall_mem_nil _) hargs

theorem LoopCount.yields : Yields LoopCount.ofJson? fun count => ∀ x ∈ count.scalars, x.Fits := by
  intro v count h
  unfold LoopCount.ofJson? at h
  split at h
  · split at h
    · obtain ⟨n, hn, rfl⟩ := Option.map_eq_some_iff.1 h
      exact List.forall_mem_singleton.2 (yields_natural _ _ hn)
    · split at h
      · obtain ⟨name, -, rfl⟩ := Option.map_eq_some_iff.1 h
        exact List.forall_mem_nil _
      · cases h
  · cases h

/-! ## Statements

A value may be read as a statement, as a block, as a list of statements or as a loop, and the parts of each are
read as others of the four. So the induction on values is for all four at once. -/

structure Json.HoldsFit (v : Json) : Prop where
  statement : ∀ {s}, Statement.ofJson? v = some s → ∀ x ∈ s.scalars, x.Fits
  block : ∀ {b}, Block.ofJson? v = some b → ∀ x ∈ b.scalars, x.Fits
  list : ∀ {ss}, Statement.listOfJson? v = some ss → ∀ s ∈ ss, ∀ x ∈ s.scalars, x.Fits
  loop : ∀ {s}, Statement.loopOfJson? v = some s → ∀ x ∈ s.scalars, x.Fits

section Parts

variable {entries : List (String × Json)}

theorem Block.scalars_of_ofEntries? (h : ∀ entry ∈ entries, entry.2.HoldsFit) {kind : Option BlockKind}
    {statements : Option (List Statement)} {b : Block}
    (hstatements : ∀ ss ∈ statements, ∀ s ∈ ss, ∀ x ∈ s.scalars, x.Fits)
    (hread : Block.ofEntries? kind statements entries = some b) : ∀ x ∈ b.scalars, x.Fits := by
  induction entries generalizing kind statements with
  | nil =>
    rw [Block.ofEntries?, Option.map_eq_some_iff] at hread
    obtain ⟨k, -, rfl⟩ := hread
    rw [Block.scalars, Reading.forall_readAll_iff]
    cases statements with
    | none => exact List.forall_mem_nil _
    | some ss => exact hstatements ss rfl
  | cons entry rest ih =>
    obtain ⟨hentry, hrest⟩ := List.forall_mem_cons.1 h
    rw [Block.ofEntries?] at hread
    split at hread
    · split at hread
      · cases hread
      · obtain ⟨k, -, hread⟩ := Option.bind_eq_some_iff.1 hread
        exact ih hrest hstatements hread
    · split at hread
      · split at hread
        · cases hread
        · obtain ⟨ss, hss, hread⟩ := Option.bind_eq_some_iff.1 hread
          refine ih hrest ?_ hread
          rintro _ ⟨⟩
          exact hentry.list hss
      · exact ih hrest hstatements hread

theorem Statement.scalars_of_loopOfEntries? (h : ∀ entry ∈ entries, entry.2.HoldsFit) {count : Option LoopCount}
    {body : Option Block} {s : Statement} (hcount : ∀ n ∈ count, ∀ x ∈ n.scalars, x.Fits)
    (hbody : ∀ b ∈ body, ∀ x ∈ b.scalars, x.Fits) (hread : Statement.loopOfEntries? count body entries = some s) :
    ∀ x ∈ s.scalars, x.Fits := by
  induction entries generalizing count body with
  | nil =>
    simp only [Statement.loopOfEntries?, Option.bind_eq_some_iff, Option.map_eq_some_iff] at hread
    obtain ⟨n, rfl, b, rfl, rfl⟩ := hread
    rw [Statement.scalars, Reading.read_loop, Reading.forall_scalars_loop_iff]
    exact ⟨hcount n rfl, hbody b rfl⟩
  | cons entry rest ih =>
    obtain ⟨hentry, hrest⟩ := List.forall_mem_cons.1 h
    rw [Statement.loopOfEntries?] at hread
    split at hread
    · split at hread
      · cases hread
      · obtain ⟨n, hn, hread⟩ := Option.bind_eq_some_iff.1 hread
        refine ih hrest ?_ hbody hread
        rintro _ ⟨⟩
        exact LoopCount.yields _ _ hn
    · split at hread
      · split at hread
        · cases hread
        · obtain ⟨b, hb, hread⟩ := Option.bind_eq_some_iff.1 hread
          refine ih hrest hcount ?_ hread
          rintro _ ⟨⟩
          exact hentry.block hb
      · exact ih hrest hcount hbody hread

theorem Statement.scalars_of_ofJson?_object (h : ∀ entry ∈ entries, entry.2.HoldsFit) {s : Statement}
    (hread : Statement.ofJson? (.object entries) = some s) : ∀ x ∈ s.scalars, x.Fits := by
  rcases entries with _ | ⟨⟨tag, v⟩, _ | ⟨second, rest⟩⟩
  · simp [Statement.ofJson?] at hread
  · rw [Statement.ofJson?] at hread
    have hv : v.HoldsFit := h _ List.mem_cons_self
    split at hread
    · obtain ⟨g, hg, rfl⟩ := Option.map_eq_some_iff.1 hread
      exact GateCall.yields _ _ hg
    · split at hread
      · obtain ⟨b, hb, rfl⟩ := Option.map_eq_some_iff.1 hread
        rw [Statement.scalars, Block.toStatement, Reading.read_block]
        exact hv.block hb
      · split at hread
        · exact hv.loop hread
        · cases hread
  · simp [Statement.ofJson?] at hread

end Parts

section Arrays

variable {items : List Json} (h : ∀ v ∈ items, v.HoldsFit)
include h

theorem Block.scalars_of_ofJson?_array {b : Block} (hread : Block.ofJson? (.array items) = some b) :
    ∀ x ∈ b.scalars, x.Fits := by
  rcases items with _ | ⟨kind, _ | ⟨statements, _ | ⟨third, rest⟩⟩⟩
  · simp [Block.ofJson?] at hread
  · rw [Block.ofJson?, Option.map_eq_some_iff] at hread
    obtain ⟨k, -, rfl⟩ := hread
    simp [Block.scalars]
  · simp only [Block.ofJson?, Option.bind_eq_some_iff, Option.map_eq_some_iff] at hread
    obtain ⟨k, -, ss, hss, rfl⟩ := hread
    rw [Block.scalars, Reading.forall_readAll_iff]
    exact (h statements (by simp)).list hss
  · simp [Block.ofJson?] at hread

theorem Statement.scalars_of_loopOfJson?_array {s : Statement}
    (hread : Statement.loopOfJson? (.array items) = some s) : ∀ x ∈ s.scalars, x.Fits := by
  rcases items with _ | ⟨count, _ | ⟨body, _ | ⟨third, rest⟩⟩⟩
  · simp [Statement.loopOfJson?] at hread
  · simp [Statement.loopOfJson?] at hread
  · simp only [Statement.loopOfJson?, Option.bind_eq_some_iff, Option.map_eq_some_iff] at hread
    obtain ⟨n, hn, b, hb, rfl⟩ := hread
    rw [Statement.scalars, Reading.read_loop, Reading.forall_scalars_loop_iff]
    exact ⟨LoopCount.yields _ _ hn, (h body (by simp)).block hb⟩
  · simp [Statement.loopOfJson?] at hread

end Arrays

theorem Json.holdsFit (v : Json) : v.HoldsFit := by
  induction v using Json.induction with
  | array items ih =>
    refine ⟨fun h => ?_, Block.scalars_of_ofJson?_array ih, fun h => ?_, Statement.scalars_of_loopOfJson?_array ih⟩
    · simp [Statement.ofJson?] at h
    · rw [Statement.listOfJson?, Statement.ofItems?_eq_mapM] at h
      intro s hs
      obtain ⟨v, hv, hread⟩ := exists_of_mapM_eq_some h s hs
      exact (ih v hv).statement hread
  | object entries ih =>
    refine ⟨Statement.scalars_of_ofJson?_object ih, fun h => ?_, fun h => ?_, fun h => ?_⟩
    · rw [Block.ofJson?] at h
      exact Block.scalars_of_ofEntries? ih (by simp) h
    · simp [Statement.listOfJson?] at h
    · rw [Statement.loopOfJson?] at h
      exact Statement.scalars_of_loopOfEntries? ih (by simp) (by simp) h
  | _ =>
    refine ⟨fun h => ?_, fun h => ?_, fun h => ?_, fun h => ?_⟩
    · simp [Statement.ofJson?] at h
    · simp [Block.ofJson?] at h
    · simp [Statement.listOfJson?] at h
    · simp [Statement.loopOfJson?] at h

/-! ## Circuits -/

theorem Block.yields : Yields Block.ofJson? fun b => ∀ x ∈ b.scalars, x.Fits := fun v _ h => v.holdsFit.block h

theorem Macro.yields : Yields Macro.ofJson? fun m => ∀ x ∈ m.body.scalars, x.Fits := by
  intro v m h
  simp only [Macro.ofJson?, Option.bind_eq_bind, Option.bind_eq_some_iff, Option.pure_def, Option.some.injEq] at h
  obtain ⟨entries, -, name, -, parameters, -, body, ⟨_, -, hbody⟩, rfl⟩ := h
  exact Block.yields _ _ hbody

theorem Circuit.yields : Yields Circuit.ofJson? fun c => ∀ x ∈ c.scalars, x.Fits := by
  intro v c h
  simp only [Circuit.ofJson?, Option.bind_eq_bind, Option.bind_eq_some_iff, Option.pure_def, Option.some.injEq] at h
  obtain ⟨entries, -, constants, hconstants, registers, hregisters, macros, hmacros, nativeGates, -, body,
      hbody, rfl⟩ := h
  rw [Circuit.forall_scalars_iff]
  refine ⟨?_, ?_, ?_, ?_⟩
  · exact yields_real.tableOf.optional (List.forall_mem_nil _) hconstants
  · exact Register.yields.tableOf.optional (List.forall_mem_nil _) hregisters
  · exact Macro.yields.tableOf.optional (List.forall_mem_nil _) hmacros
  · exact Block.yields.optional (by simp [Block.scalars, Block.sequential]) hbody

/-- Every number in a circuit that was read can be read back. -/
theorem Circuit.scalars_of_parse? {c : Circuit} {text : String} (h : Circuit.parse? text = some c) :
    ∀ x ∈ c.scalars, x.Fits := by
  obtain ⟨v, -, hv⟩ := Option.bind_eq_some_iff.1 h
  exact Circuit.yields v c hv

end IonSchedule
