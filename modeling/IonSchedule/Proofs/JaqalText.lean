import IonSchedule.Proofs.JaqalLines

/-! # Jaqal text determines the program

The text of a circuit determines its lines, and the first word of a line tells declarations, macros and
statements apart. Two circuits have the same text exactly if they declare and do the same, up to what is not
printed: the native definitions of gates, whether the order of a block is chosen, and how a range of positions
is given.
-/
namespace IonSchedule

/-! ## What is printed -/

def Block.printed (b : Block) : Block := ⟨b.kind.printed, Statement.printedAll b.statements⟩

def Macro.printed (m : Macro) : Macro := ⟨m.name, m.parameters, m.body.printed⟩

namespace Jaqal

/-- A program as its text shows it. -/
structure Program where
  registers : List Register
  constants : List (String × Binary64)
  macros : List Macro
  body : List Statement

end Jaqal

def Circuit.program (c : Circuit) : Jaqal.Program :=
  ⟨c.registers.values.map Register.printed, c.constants.items, c.macros.values.map Macro.printed,
    Statement.printedAll c.body.statements⟩

/-- Every name that a circuit prints. -/
def Circuit.names (c : Circuit) : Multiset String :=
  (c.registers.values.flatMap Register.names ++ c.constants.names ++
      c.macros.values.flatMap fun m => m.name :: m.parameters : List String) +
    Reading.names.readAll (c.macros.values.flatMap (·.body.statements) ++ c.body.statements)

theorem Circuit.forall_names_iff {P : String → Prop} {c : Circuit} :
    (∀ name ∈ c.names, P name) ↔
      (∀ r ∈ c.registers.values, ∀ name ∈ r.names, P name) ∧ (∀ entry ∈ c.constants.items, P entry.1) ∧
        (∀ m ∈ c.macros.values, (∀ name ∈ m.name :: m.parameters, P name) ∧
          ∀ name ∈ Reading.names.readAll m.body.statements, P name) ∧
        ∀ name ∈ Reading.names.readAll c.body.statements, P name := by
  simp only [names, Catalog.names, Multiset.mem_add, Multiset.mem_coe, List.forall_mem_append, or_imp, forall_and,
    Reading.forall_readAll_iff, List.forall_mem_flatMap, List.forall_mem_map, and_assoc]

namespace Jaqal

/-! ## Macros -/

structure PrintsMacro (m : Macro) (lines : List String) : Prop where
  lines_eq : macroLines m = .ok lines
  header_names : ∀ name ∈ m.name :: m.parameters, isName name = true
  names : ∀ name ∈ Reading.names.readAll m.body.statements, isName name = true

def macroWords (m : Macro) : List String := "macro" :: m.name :: (m.parameters ++ [(delimiters m.body.kind).1])

theorem macroHeader_eq (m : Macro) :
    m.parameters.foldl (fun s p => s ++ " " ++ p) ("macro " ++ m.name) ++ " " ++ (delimiters m.body.kind).1 =
      unwords (macroWords m) := by
  have hfirst : unwords (("macro " ++ m.name) :: m.parameters) = "macro " ++ unwords (m.name :: m.parameters) :=
    String.intercalate_cons_append
  have hlast : unwords (m.name :: (m.parameters ++ [(delimiters m.body.kind).1])) =
      unwords (m.name :: m.parameters) ++ " " ++ (delimiters m.body.kind).1 := by
    rw [← List.cons_append, unwords, String.intercalate_append_of_ne_nil (by simp) (by simp),
      String.intercalate_singleton]
    rfl
  rw [foldl_words, hfirst, macroWords, unwords_cons (w := "macro") (by simp), hlast]
  simp only [String.append_assoc]
  rfl

theorem PrintsMacro.block {m : Macro} {lines : List String} (h : PrintsMacro m lines) :
    ∃ header inner, header ++ (delimiters m.body.kind).1 = unwords (macroWords m) ∧
      PrintsAll m.body.statements inner ∧ lines = blockLines header m.body.kind inner ++ [""] := by
  have hlines := h.lines_eq
  simp only [macroLines, bind_eq_ok_iff, pure_eq_ok_iff] at hlines
  obtain ⟨inner, hinner, rfl⟩ := hlines
  exact ⟨_, inner, macroHeader_eq m, ⟨hinner, h.names⟩, rfl⟩

theorem PrintsMacro.isWord {m : Macro} {lines : List String} (h : PrintsMacro m lines) :
    ∀ w ∈ macroWords m, IsWord w := by
  obtain ⟨hname, hparameters⟩ := List.forall_mem_cons.1 h.header_names
  simp only [macroWords, List.forall_mem_cons, List.forall_mem_append]
  exact ⟨isWord_keyword (by decide), isWord_of_isName hname, fun p hp => isWord_of_isName (hparameters p hp),
    isWord_open m.body.kind, by simp⟩

theorem PrintsMacro.printed_eq {m m' : Macro} {lines lines' rest rest' : List String} (hm : PrintsMacro m lines)
    (hm' : PrintsMacro m' lines') (h : lines ++ rest = lines' ++ rest') :
    m.printed = m'.printed ∧ rest = rest' := by
  obtain ⟨header, inner, hheader, hinner, rfl⟩ := hm.block
  obtain ⟨header', inner', hheader', hinner', rfl⟩ := hm'.block
  rw [List.append_assoc, List.append_assoc] at h
  obtain ⟨hhead, rfl, hrest⟩ := blockLines_append_inj hinner.ne_empty hinner'.ne_empty h
  rw [hheader, hheader'] at hhead
  have hwords := unwords_inj hm.isWord hm'.isWord (by simp [macroWords]) (by simp [macroWords]) hhead
  obtain ⟨hname, hparameters, hopen⟩ : m.name = m'.name ∧ m.parameters = m'.parameters ∧
      (delimiters m.body.kind).1 = (delimiters m'.body.kind).1 := by
    simpa [macroWords] using hwords
  have hbody := printedAll_eq (fun s _ => determines s) hinner hinner'
  refine ⟨?_, (List.cons.inj hrest).2⟩
  simp only [Macro.printed, Block.printed, hname, hparameters, printed_eq_of_delimiters hopen, hbody]

structure PrintsMacros (ms : List Macro) (lines : List String) : Prop where
  lines_eq : macrosLines ms = .ok lines
  names : ∀ m ∈ ms, (∀ name ∈ m.name :: m.parameters, isName name = true) ∧
    ∀ name ∈ Reading.names.readAll m.body.statements, isName name = true

theorem PrintsMacros.nil {lines : List String} (h : PrintsMacros [] lines) : lines = [] := by
  have hlines := h.lines_eq
  simp only [macrosLines, pure_eq_ok_iff] at hlines
  exact hlines.symm

theorem PrintsMacros.cons {m : Macro} {ms : List Macro} {lines : List String} (h : PrintsMacros (m :: ms) lines) :
    ∃ first others, PrintsMacro m first ∧ PrintsMacros ms others ∧ lines = first ++ others := by
  obtain ⟨hlines, hnames⟩ := h
  obtain ⟨hm, hms⟩ := List.forall_mem_cons.1 hnames
  simp only [macrosLines, bind_eq_ok_iff, pure_eq_ok_iff] at hlines
  obtain ⟨first, hfirst, others, hothers, rfl⟩ := hlines
  exact ⟨first, others, ⟨hfirst, hm.1, hm.2⟩, ⟨hothers, hms⟩, rfl⟩

theorem Prints.firstWord_head {s : Statement} {lines : List String} (h : Prints s lines) :
    firstWord (unwords (headWords s)) ∉ ["register", "map", "let", "macro"] := by
  have hwords := h.isWord
  cases s with
  | gate g =>
    have hne : ∀ word ∈ ["register", "map", "let", "macro"], isName word = false := by decide
    rw [headWords, gateWords, firstWord_unwords hwords]
    exact fun hmem => ne_of_isName h.gate.2.1 (hne _ hmem) rfl
  | block kind ss =>
    rw [headWords, firstWord_unwords hwords]
    cases kind with
    | sequential => decide
    | parallel => decide
    | unscheduled => decide
  | loop count kind body =>
    rw [headWords, firstWord_unwords hwords]
    decide

theorem PrintsAll.firstWord_head {ss : List Statement} {lines : List String} (h : PrintsAll ss lines) :
    ∀ l ∈ lines.head?, firstWord l ∉ ["register", "map", "let", "macro"] := by
  cases ss with
  | nil => simp [h.nil]
  | cons s ss =>
    obtain ⟨first, others, hfirst, -, rfl⟩ := h.cons
    obtain ⟨rest, rfl⟩ := hfirst.head
    simpa using hfirst.firstWord_head

theorem PrintsMacro.firstWord_head {m : Macro} {lines : List String} (h : PrintsMacro m lines)
    (rest : List String) : ∃ line, (lines ++ rest).head? = some line ∧ firstWord line = "macro" := by
  have hwords := h.isWord
  obtain ⟨header, inner, hheader, -, rfl⟩ := h.block
  refine ⟨unwords (macroWords m), ?_, firstWord_unwords hwords⟩
  rw [← hheader]
  rfl

theorem PrintsMacro.newline_notMem {m : Macro} {lines : List String} (h : PrintsMacro m lines) :
    ∀ l ∈ lines, '\n' ∉ l.toList := by
  have hhead : IsLine (unwords (macroWords m)) := isLine_unwords (by decide) h.isWord
  obtain ⟨header, inner, hheader, hinner, rfl⟩ := h.block
  rw [← hheader] at hhead
  have hblock := isLine_blockLines hhead (hinner.isLine fun s _ => Prints.isLine s)
  rw [List.forall_mem_append]
  exact ⟨fun l hl => (hblock l hl).2, by simp⟩

theorem PrintsMacros.newline_notMem {ms : List Macro} {lines : List String} (h : PrintsMacros ms lines) :
    ∀ l ∈ lines, '\n' ∉ l.toList := by
  induction ms generalizing lines with
  | nil => simp [h.nil]
  | cons m ms ih =>
    obtain ⟨first, others, hfirst, hothers, rfl⟩ := h.cons
    rw [List.forall_mem_append]
    exact ⟨hfirst.newline_notMem, ih hothers⟩

/-- The macros of a circuit and its body: a statement never begins like a macro. -/
theorem PrintsMacros.append_inj {ms ms' : List Macro} {ss ss' : List Statement}
    {lines lines' body body' : List String}
    (hms : PrintsMacros ms lines) (hms' : PrintsMacros ms' lines') (hss : PrintsAll ss body)
    (hss' : PrintsAll ss' body') (h : lines ++ body = lines' ++ body') :
    ms.map Macro.printed = ms'.map Macro.printed ∧ Statement.printedAll ss = Statement.printedAll ss' := by
  induction ms generalizing ms' lines lines' with
  | nil =>
    rw [hms.nil, List.nil_append] at h
    cases ms' with
    | nil =>
      rw [hms'.nil, List.nil_append] at h
      exact ⟨rfl, printedAll_eq (fun s _ => determines s) hss (h ▸ hss')⟩
    | cons m' ms' =>
      obtain ⟨first', others', hfirst', -, rfl⟩ := hms'.cons
      obtain ⟨line, hline, hword⟩ := hfirst'.firstWord_head (others' ++ body')
      rw [← List.append_assoc, ← h] at hline
      exact absurd (by simp [hword]) (hss.firstWord_head line hline)
  | cons m ms ih =>
    obtain ⟨first, others, hfirst, hothers, rfl⟩ := hms.cons
    cases ms' with
    | nil =>
      obtain ⟨line, hline, hword⟩ := hfirst.firstWord_head (others ++ body)
      rw [← List.append_assoc, h, hms'.nil, List.nil_append] at hline
      exact absurd (by simp [hword]) (hss'.firstWord_head line hline)
    | cons m' ms' =>
      obtain ⟨first', others', hfirst', hothers', rfl⟩ := hms'.cons
      rw [List.append_assoc, List.append_assoc] at h
      obtain ⟨hprinted, hrest⟩ := hfirst.printed_eq hfirst' h
      obtain ⟨hmacros, hbody⟩ := ih hothers hothers' hrest
      exact ⟨by rw [List.map_cons, List.map_cons, hprinted, hmacros], hbody⟩

/-! ## Declarations -/

theorem registerLines_eq_ok {rs : List Register} {lines : List String} (h : registerLines rs = .ok lines) :
    lines = rs.map (fun r => unwords (registerWords r)) ∧ ∀ r ∈ rs, ∃ line, registerLine r = .ok line := by
  induction rs generalizing lines with
  | nil => exact ⟨(pure_eq_ok_iff.1 h).symm, by simp⟩
  | cons r rs ih =>
    simp only [registerLines, bind_eq_ok_iff, pure_eq_ok_iff] at h
    obtain ⟨line, hline, rest, hrest, rfl⟩ := h
    obtain ⟨rfl, hall⟩ := ih hrest
    rw [registerLine_eq_ok hline, List.forall_mem_cons]
    exact ⟨rfl, ⟨line, hline⟩, hall⟩

theorem constantLines_eq_ok {entries : List (String × Binary64)} {lines : List String}
    (h : constantLines entries = .ok lines) :
    lines = entries.map (fun entry => unwords (constantWords entry)) ∧
      ∀ entry ∈ entries, entry.2.isFinite = true := by
  induction entries generalizing lines with
  | nil => exact ⟨(pure_eq_ok_iff.1 h).symm, by simp⟩
  | cons entry entries ih =>
    obtain ⟨name, value⟩ := entry
    simp only [constantLines, bind_eq_ok_iff, pure_eq_ok_iff] at h
    obtain ⟨⟨⟩, hvalue, rest, hrest, rfl⟩ := h
    obtain ⟨rfl, hall⟩ := ih hrest
    have hline : s!"let {name} {value.text}" = unwords (constantWords (name, value)) := by
      rw [← String.toList_inj, toList_unwords]
      simp [constantWords, toString_text]
    rw [hline, List.forall_mem_cons]
    exact ⟨rfl, checkNumber_eq_ok_iff.1 hvalue, hall⟩

/-- The declarations of a circuit are printed as these lines. -/
structure PrintsDeclarations (rs : List Register) (entries : List (String × Binary64))
    (lines lines' : List String) : Prop where
  registers_eq : registerLines rs = .ok lines
  constants_eq : constantLines entries = .ok lines'
  register_names : ∀ r ∈ rs, ∀ name ∈ r.names, isName name = true
  constant_names : ∀ entry ∈ entries, isName entry.1 = true

theorem registerWords_ne_nil (r : Register) : registerWords r ≠ [] := by
  obtain ⟨name, kind⟩ := r
  cases kind with
  | fundamental size => simp [registerWords]
  | mapped source selection => simp [registerWords]

namespace PrintsDeclarations

variable {rs rs' : List Register} {entries entries' : List (String × Binary64)}
  {registers constants registers' constants' : List String}

theorem firstWord_registers (h : PrintsDeclarations rs entries registers constants) :
    ∀ l ∈ registers, firstWord l ∈ ["register", "map"] := by
  rw [(registerLines_eq_ok h.registers_eq).1, List.forall_mem_map]
  intro r hr
  have hwords := isWord_registerWords (h.register_names r hr)
  obtain ⟨name, kind⟩ := r
  cases kind with
  | fundamental size =>
    rw [registerWords, firstWord_unwords hwords]
    decide
  | mapped source selection =>
    rw [registerWords, firstWord_unwords hwords]
    decide

theorem isWord_constants (h : PrintsDeclarations rs entries registers constants) {entry : String × Binary64}
    (hentry : entry ∈ entries) : ∀ w ∈ constantWords entry, IsWord w :=
  isWord_constantWords (h.constant_names entry hentry) ((constantLines_eq_ok h.constants_eq).2 entry hentry)

theorem firstWord_constants (h : PrintsDeclarations rs entries registers constants) :
    ∀ l ∈ constants, firstWord l = "let" := by
  rw [(constantLines_eq_ok h.constants_eq).1, List.forall_mem_map]
  exact fun entry hentry => firstWord_unwords (h.isWord_constants hentry)

theorem newline_notMem (h : PrintsDeclarations rs entries registers constants) :
    ∀ l ∈ registers ++ constants, '\n' ∉ l.toList := by
  rw [List.forall_mem_append, (registerLines_eq_ok h.registers_eq).1, (constantLines_eq_ok h.constants_eq).1,
    List.forall_mem_map, List.forall_mem_map]
  exact ⟨fun r hr => newline_notMem_unwords (isWord_registerWords (h.register_names r hr)),
    fun entry hentry => newline_notMem_unwords (h.isWord_constants hentry)⟩

/-- The lines of the declarations tell registers and constants apart, and determine both. -/
theorem printed_eq (h : PrintsDeclarations rs entries registers constants)
    (h' : PrintsDeclarations rs' entries' registers' constants')
    (heq : registers ++ constants = registers' ++ constants') :
    rs.map Register.printed = rs'.map Register.printed ∧ entries = entries' := by
  have hlet : ∀ {lines : List String}, (∀ l ∈ lines, firstWord l = "let") →
      ∀ l ∈ lines.head?, firstWord l ∉ ["register", "map"] := by
    intro lines hlines l hl
    rw [hlines l (List.mem_of_head? hl)]
    decide
  obtain ⟨hregisters, hconstants⟩ := append_inj_of_forall h.firstWord_registers h'.firstWord_registers
    (hlet h.firstWord_constants) (hlet h'.firstWord_constants) heq
  rw [(registerLines_eq_ok h.registers_eq).1, (registerLines_eq_ok h'.registers_eq).1] at hregisters
  rw [(constantLines_eq_ok h.constants_eq).1, (constantLines_eq_ok h'.constants_eq).1] at hconstants
  constructor
  · refine map_eq_map_of_forall (fun r hr r' hr' hline => ?_) hregisters
    obtain ⟨line, hok⟩ := (registerLines_eq_ok h.registers_eq).2 r hr
    obtain ⟨line', hok'⟩ := (registerLines_eq_ok h'.registers_eq).2 r' hr'
    have hnames := h.register_names r hr
    have hnames' := h'.register_names r' hr'
    exact registerWords_inj hok hok' hnames hnames'
      (unwords_inj (isWord_registerWords hnames) (isWord_registerWords hnames') (registerWords_ne_nil r)
        (registerWords_ne_nil r') hline)
  · have hinj : ∀ entry ∈ entries, ∀ entry' ∈ entries',
        unwords (constantWords entry) = unwords (constantWords entry') → id entry = id entry' := by
      intro entry hentry entry' hentry' hline
      have hwords := unwords_inj (h.isWord_constants hentry) (h'.isWord_constants hentry') (by simp [constantWords])
        (by simp [constantWords]) hline
      exact constantWords_inj ((constantLines_eq_ok h.constants_eq).2 entry hentry)
        ((constantLines_eq_ok h'.constants_eq).2 entry' hentry') hwords
    have hsame := map_eq_map_of_forall hinj hconstants
    rw [List.map_id, List.map_id] at hsame
    exact hsame

end PrintsDeclarations

/-! ## Circuits -/

theorem registerLines_printed (rs : List Register) :
    registerLines (rs.map Register.printed) = registerLines rs := by
  induction rs with
  | nil => rfl
  | cons r rs ih => rw [List.map_cons, registerLines, registerLines, registerLine_printed, ih]

theorem gateLine_printed (g : GateCall) : gateLine g.printed = gateLine g := rfl

theorem blockLines_printed (header : String) (kind : BlockKind) (lines : List String) :
    blockLines header kind.printed lines = blockLines header kind lines := by
  rw [blockLines, blockLines, delimiters_printed]

theorem statementsLines_printedAll {ss : List Statement}
    (h : ∀ s ∈ ss, statementLines s.printed = statementLines s) :
    statementsLines (Statement.printedAll ss) = statementsLines ss := by
  induction ss with
  | nil => rfl
  | cons s ss ih =>
    rw [Statement.printedAll, statementsLines, statementsLines, h s List.mem_cons_self,
      ih fun t ht => h t (List.mem_cons_of_mem s ht)]

/-- What is not printed of a statement makes no difference to its lines. -/
theorem statementLines_printed (s : Statement) : statementLines s.printed = statementLines s := by
  induction s using Statement.induction with
  | gate g => simp only [Statement.printed, statementLines, gateLine_printed]
  | block kind ss ih =>
    simp only [Statement.printed, statementLines, statementsLines_printedAll ih, blockLines_printed]
  | loop count kind body ih =>
    simp only [Statement.printed, statementLines, statementsLines_printedAll ih, blockLines_printed]

theorem macroLines_printed (m : Macro) : macroLines m.printed = macroLines m := by
  simp only [Macro.printed, Block.printed, macroLines, blockLines_printed,
    statementsLines_printedAll fun s _ => statementLines_printed s]

theorem macrosLines_printed (ms : List Macro) : macrosLines (ms.map Macro.printed) = macrosLines ms := by
  induction ms with
  | nil => rfl
  | cons m ms ih => rw [List.map_cons, macrosLines, macrosLines, macroLines_printed, ih]

end Jaqal

open Jaqal

namespace Circuit

/-- The line between the declarations and the rest. -/
def gap (c : Circuit) : List String := if c.registers.isEmpty && c.constants.isEmpty then [] else [""]

theorem gap_congr {c d : Circuit}
    (hregisters : c.registers.values.map Register.printed = d.registers.values.map Register.printed)
    (hconstants : c.constants.items = d.constants.items) : c.gap = d.gap := by
  have hlength := congrArg List.length hregisters
  simp only [List.length_map, Table.values] at hlength
  have hempty : c.registers.isEmpty = d.registers.isEmpty := by
    rw [Catalog.isEmpty, Catalog.isEmpty, Bool.eq_iff_iff, List.isEmpty_iff_length_eq_zero,
      List.isEmpty_iff_length_eq_zero, hlength]
  have hempty' : c.constants.isEmpty = d.constants.isEmpty := by rw [Catalog.isEmpty, Catalog.isEmpty, hconstants]
  rw [gap, gap, hempty, hempty']

/-- The parts of the text of a circuit. -/
structure PrintsParts (c : Circuit) (registers constants macros body : List String) : Prop where
  declarations : PrintsDeclarations c.registers.values c.constants.items registers constants
  macros : PrintsMacros c.macros.values macros
  body : PrintsAll c.body.statements body

variable {c d : Circuit} {registers constants macros body registers' constants' macros' body' : List String}

theorem exists_parts {text : String} (h : c.toJaqal = .ok text) (hnames : ∀ name ∈ c.names, isName name = true) :
    ∃ registers constants macros body, c.PrintsParts registers constants macros body ∧
      text = String.join ((registers ++ constants ++ (c.gap ++ (macros ++ body))).map (· ++ "\n")) := by
  obtain ⟨hregisters, hconstants, hmacros, hbody⟩ := forall_names_iff.1 hnames
  simp only [toJaqal, jaqalLines, bind_eq_ok_iff, pure_eq_ok_iff] at h
  obtain ⟨-, ⟨registers, hrs, constants, hcs, macros, hms, body, hss, rfl⟩, rfl⟩ := h
  refine ⟨registers, constants, macros, body,
    ⟨⟨hrs, hcs, hregisters, hconstants⟩, ⟨hms, hmacros⟩, ⟨hss, hbody⟩⟩, ?_⟩
  simp only [gap, List.append_assoc]

theorem PrintsParts.newline_notMem (h : c.PrintsParts registers constants macros body) :
    ∀ l ∈ registers ++ constants ++ (c.gap ++ (macros ++ body)), '\n' ∉ l.toList := by
  have hgap : ∀ l ∈ c.gap, '\n' ∉ l.toList := by
    unfold gap
    split
    · simp
    · simp
  have hrest := List.forall_mem_append.2 ⟨h.macros.newline_notMem, h.body.newline_notMem⟩
  exact List.forall_mem_append.2 ⟨h.declarations.newline_notMem, List.forall_mem_append.2 ⟨hgap, hrest⟩⟩

/-- What follows the declarations does not begin like one. -/
theorem PrintsParts.firstWord_rest (h : c.PrintsParts registers constants macros body) :
    ∀ l ∈ (c.gap ++ (macros ++ body)).head?, firstWord l ∉ ["register", "map", "let"] := by
  have hrest : ∀ l ∈ (macros ++ body).head?, firstWord l ∉ ["register", "map", "let"] := by
    intro l hl
    have hmacros := h.macros
    generalize c.macros.values = ms at hmacros
    cases ms with
    | nil =>
      rw [hmacros.nil, List.nil_append] at hl
      exact fun hmem => h.body.firstWord_head l hl (List.mem_append_left ["macro"] hmem)
    | cons m ms =>
      obtain ⟨first, others, hfirst, -, rfl⟩ := hmacros.cons
      obtain ⟨line, hline, hword⟩ := hfirst.firstWord_head (others ++ body)
      rw [← List.append_assoc, hl] at hline
      obtain rfl := Option.some.inj hline
      rw [hword]
      decide
  unfold gap
  split
  · exact hrest
  · intro l hl
    obtain rfl : "" = l := Option.some.inj hl
    decide

theorem PrintsParts.firstWord_declarations (h : c.PrintsParts registers constants macros body) :
    ∀ l ∈ registers ++ constants, firstWord l ∈ ["register", "map", "let"] := by
  rw [List.forall_mem_append]
  constructor
  · intro l hl
    have hword := h.declarations.firstWord_registers l hl
    simp only [List.mem_cons, List.not_mem_nil, or_false] at hword ⊢
    exact hword.imp_right .inl
  · intro l hl
    simp [h.declarations.firstWord_constants l hl]

theorem program_eq_of_parts (hc : c.PrintsParts registers constants macros body)
    (hd : d.PrintsParts registers' constants' macros' body')
    (h : registers ++ constants ++ (c.gap ++ (macros ++ body)) =
      registers' ++ constants' ++ (d.gap ++ (macros' ++ body'))) :
    c.program = d.program := by
  obtain ⟨hdeclarations, hrest⟩ := append_inj_of_forall hc.firstWord_declarations hd.firstWord_declarations
    hc.firstWord_rest hd.firstWord_rest h
  obtain ⟨hregisters, hconstants⟩ := hc.declarations.printed_eq hd.declarations hdeclarations
  rw [gap_congr hregisters hconstants] at hrest
  obtain ⟨hmacros, hbody⟩ := hc.macros.append_inj hd.macros hc.body hd.body (List.append_cancel_left hrest)
  simp only [program, hregisters, hconstants, hmacros, hbody]

theorem toJaqal_eq_of_program (h : c.program = d.program) : c.toJaqal = d.toJaqal := by
  simp only [program, Program.mk.injEq] at h
  obtain ⟨hregisters, hconstants, hmacros, hbody⟩ := h
  have hgap := gap_congr hregisters hconstants
  have hregisterLines : registerLines c.registers.values = registerLines d.registers.values := by
    rw [← registerLines_printed, hregisters, registerLines_printed]
  have hmacroLines : macrosLines c.macros.values = macrosLines d.macros.values := by
    rw [← macrosLines_printed, hmacros, macrosLines_printed]
  have hbodyLines : statementsLines c.body.statements = statementsLines d.body.statements := by
    rw [← statementsLines_printedAll fun s _ => statementLines_printed s, hbody,
      statementsLines_printedAll fun s _ => statementLines_printed s]
  unfold gap at hgap
  simp only [toJaqal, jaqalLines, hregisterLines, hconstants, hmacroLines, hbodyLines, hgap]

/-- Two circuits whose names can be told apart have the same text exactly if they are the same program:
registers with their sizes, sources and ranges, constants, macros, and the statements of the body at any
depth. -/
theorem toJaqal_eq_iff {text text' : String} (hc : c.toJaqal = .ok text) (hd : d.toJaqal = .ok text')
    (hcnames : ∀ name ∈ c.names, isName name = true) (hdnames : ∀ name ∈ d.names, isName name = true) :
    text = text' ↔ c.program = d.program := by
  constructor
  · rintro rfl
    obtain ⟨registers, constants, macros, body, hcparts, hctext⟩ := exists_parts hc hcnames
    obtain ⟨registers', constants', macros', body', hdparts, hdtext⟩ := exists_parts hd hdnames
    exact program_eq_of_parts hcparts hdparts
      (join_lines_inj hcparts.newline_notMem hdparts.newline_notMem (hctext.symm.trans hdtext))
  · intro h
    rw [toJaqal_eq_of_program h, hd] at hc
    exact (Except.ok.inj hc).symm

end Circuit

namespace Sample

/-- Every second qubit as a list of positions or as a range, the same calls bound to native gates or to macros,
and blocks whose order is chosen or not. Only the zero depends on its sign in the text. -/
def everySecond (selection : Selection) (kind : BlockKind) (gate : GateKind) (negative : Bool) : Circuit where
  constants := ⟨[("zero", .zero negative)], by simp⟩
  registers := ⟨[("q", ⟨"q", .fundamental 6⟩), ("odd", ⟨"odd", .mapped "q" selection⟩)], by simp⟩
  macros := ⟨[("echo", ⟨"echo", ["a", "b"], ⟨kind, [.gate ⟨"Px", gate, [.ref "a"]⟩]⟩⟩)], by simp⟩
  nativeGates := .qscout
  body := ⟨kind,
    [.loop (.symbol "zero") kind [.block .parallel [.gate ⟨"Rx", gate, [.qubit ⟨"odd", 2⟩, .ref "zero"]⟩],
      .block kind [], .gate ⟨"echo", .composite, [.qubit ⟨"q", 0⟩, .number (.zero true)]⟩]]⟩

def listed : Circuit := everySecond (.indices [1, 3, 5]) .unscheduled (.native ⟨"Px", [⟨"q", .qubit⟩]⟩) false

def ranged : Circuit := everySecond (.slice 1 6 2) .sequential .composite false

end Sample

theorem Circuit.toJaqal_listed :
    ∃ text text', Sample.listed.toJaqal = .ok text ∧ Sample.ranged.toJaqal = .ok text ∧
      (Sample.everySecond (.slice 1 6 2) .sequential .composite true).toJaqal = .ok text' ∧ text ≠ text' := by
  have hnames : ∀ selection kind gate negative, ∀ name ∈ (Sample.everySecond selection kind gate negative).names,
      isName name = true := by
    intro selection kind gate negative
    have hlisted : ∀ name ∈ ["q", "odd", "zero", "echo", "a", "b", "Px", "Rx"], isName name = true := by
      decide +kernel
    simp only [List.forall_mem_cons] at hlisted
    rw [forall_names_iff]
    simp [Sample.everySecond, Table.values, Register.names, Reading.names, GateCall.names, Argument.names,
      LoopCount.names, hlisted]
  obtain ⟨text, htext⟩ : ∃ text, Sample.listed.toJaqal = .ok text := toBool_iff.1 (by decide +kernel)
  obtain ⟨text', htext'⟩ : ∃ text, Sample.ranged.toJaqal = .ok text := toBool_iff.1 (by decide +kernel)
  obtain ⟨other, hother⟩ :
      ∃ text, (Sample.everySecond (.slice 1 6 2) .sequential .composite true).toJaqal = .ok text :=
    toBool_iff.1 (by decide +kernel)
  have hsame : text = text' := (toJaqal_eq_iff htext htext' (hnames _ _ _ _) (hnames _ _ _ _)).2 rfl
  have hother' : text ≠ other := by
    rw [ne_eq, toJaqal_eq_iff htext hother (hnames _ _ _ _) (hnames _ _ _ _)]
    exact fun h => absurd (congrArg Program.constants h) (by decide)
  exact ⟨text, other, htext, hsame ▸ htext', hother, hother'⟩

end IonSchedule
