import IonSchedule.Proofs.Blocks
import IonSchedule.Proofs.JaqalWords

/-! # The lines of Jaqal statements

Inside a block every line begins with a blank and the closing delimiter does not, so the lines determine the
blocks at any depth. Within a line the first word tells a block, a loop and a call apart. So the lines of a
statement determine it, and where it ends, up to what is not printed: the native definitions of gates, and
whether the order of a block is chosen.
-/
namespace IonSchedule

/-! ## What is printed -/

def BlockKind.printed : BlockKind → BlockKind
  | .unscheduled => .sequential
  | kind => kind

/-- A call without what it is bound to. -/
def GateCall.printed (g : GateCall) : GateCall := .composite g.name g.args

mutual

def Statement.printed : Statement → Statement
  | .gate g => .gate g.printed
  | .block kind statements => .block kind.printed (Statement.printedAll statements)
  | .loop count kind body => .loop count kind.printed (Statement.printedAll body)

def Statement.printedAll : List Statement → List Statement
  | [] => []
  | s :: rest => s.printed :: Statement.printedAll rest

end

/-! The names that are printed. -/

def Argument.names : Argument → List String
  | .number _ => []
  | .qubit q => [q.register]
  | .ref name => [name]

def GateCall.names (g : GateCall) : List String := g.name :: g.args.flatMap Argument.names

def LoopCount.names : LoopCount → List String
  | .fixed _ => []
  | .symbol name => [name]

/-- The names in statements at any depth. -/
def Reading.names : Reading (Multiset String) where
  gate g := g.names
  loop count body := count.names + body

namespace Jaqal

/-! ## Lines -/

/-- The first word of a line. -/
def firstWord (line : String) : String := String.ofList ((line.toList.splitOn ' ').headD [])

theorem firstWord_unwords {w : String} {ws : List String} (h : ∀ v ∈ w :: ws, IsWord v) :
    firstWord (unwords (w :: ws)) = w := by
  rw [firstWord, splitOn_unwords (by simp) h]
  simp

/-- A line that is not empty and ends where it is meant to end. -/
def IsLine (line : String) : Prop := line ≠ "" ∧ '\n' ∉ line.toList

theorem newline_notMem_unwords {ws : List String} (h : ∀ w ∈ ws, IsWord w) : '\n' ∉ (unwords ws).toList := by
  induction ws with
  | nil => simp [unwords]
  | cons w ws ih =>
    have hw := (h w List.mem_cons_self).2
    by_cases hne : ws = []
    · rw [hne]
      simpa [unwords] using hw
    · rw [unwords_cons hne]
      simp [hw, ih fun v hv => h v (List.mem_cons_of_mem w hv)]

theorem isLine_unwords {w : String} {ws : List String} (hne : w ≠ "") (h : ∀ v ∈ w :: ws, IsWord v) :
    IsLine (unwords (w :: ws)) := by
  refine ⟨fun hempty => hne ?_, newline_notMem_unwords h⟩
  rw [← firstWord_unwords h, hempty]
  rfl

theorem toList_join_lines (l : String) (ls : List String) :
    (String.join ((l :: ls).map (· ++ "\n"))).toList =
      l.toList ++ '\n' :: (String.join (ls.map (· ++ "\n"))).toList := by
  rw [List.map_cons, String.join_cons, String.toList_append, String.toList_append, List.append_assoc]
  rfl

/-- A text determines its lines. -/
theorem join_lines_inj {ls ms : List String} (hls : ∀ l ∈ ls, '\n' ∉ l.toList) (hms : ∀ m ∈ ms, '\n' ∉ m.toList)
    (h : String.join (ls.map (· ++ "\n")) = String.join (ms.map (· ++ "\n"))) : ls = ms := by
  rw [← String.toList_inj] at h
  induction ls generalizing ms with
  | nil =>
    cases ms with
    | nil => rfl
    | cons m ms =>
      rw [toList_join_lines] at h
      simp at h
  | cons l ls ih =>
    cases ms with
    | nil =>
      rw [toList_join_lines] at h
      simp at h
    | cons m ms =>
      rw [toList_join_lines, toList_join_lines] at h
      obtain ⟨hfirst, hrest⟩ := append_cons_inj (hls l List.mem_cons_self) (hms m List.mem_cons_self) h
      rw [String.toList_inj.1 hfirst, ih (fun x hx => hls x (List.mem_cons_of_mem l hx))
        (fun x hx => hms x (List.mem_cons_of_mem m hx)) hrest]

/-! ## Blocks -/

theorem toList_indent {line : String} (h : line ≠ "") :
    (indent line).toList = ' ' :: ' ' :: ' ' :: ' ' :: line.toList := by
  rw [indent, if_neg (by simpa using h), String.toList_append]
  rfl

theorem indent_inj {l m : String} (hl : l ≠ "") (hm : m ≠ "") (h : indent l = indent m) : l = m := by
  rw [← String.toList_inj, toList_indent hl, toList_indent hm] at h
  simpa [String.toList_inj] using h

theorem isLine_indent {line : String} (h : IsLine line) : IsLine (indent line) := by
  constructor
  · intro hempty
    have hlist := toList_indent h.1
    rw [hempty] at hlist
    cases hlist
  · simp [toList_indent h.1, h.2]

theorem firstChar_indent {lines : List String} (hlines : ∀ l ∈ lines, l ≠ "") :
    ∀ l ∈ lines.map indent, l.toList.head? = some ' ' := by
  intro l hl
  obtain ⟨line, hline, rfl⟩ := List.mem_map.1 hl
  rw [toList_indent (hlines line hline)]
  rfl

theorem firstChar_close (kind : BlockKind) : ¬ (delimiters kind).2.toList.head? = some ' ' := by
  cases kind with
  | sequential => decide
  | parallel => decide
  | unscheduled => decide

/-- A block and what follows it: the head, the lines inside, and what comes after the closing delimiter. -/
theorem blockLines_append_inj {header header' : String} {kind kind' : BlockKind}
    {lines lines' rest rest' : List String} (hlines : ∀ l ∈ lines, l ≠ "") (hlines' : ∀ l ∈ lines', l ≠ "")
    (h : blockLines header kind lines ++ rest = blockLines header' kind' lines' ++ rest') :
    header ++ (delimiters kind).1 = header' ++ (delimiters kind').1 ∧ lines = lines' ∧ rest = rest' := by
  simp only [blockLines, List.cons_append, List.append_assoc, List.nil_append, List.cons.injEq] at h
  obtain ⟨hhead, hinner⟩ := h
  obtain ⟨hindented, htail⟩ := append_inj_of_forall (firstChar_indent hlines) (firstChar_indent hlines')
    (by simpa using firstChar_close kind) (by simpa using firstChar_close kind') hinner
  have hsame := map_eq_map_of_forall (g := id) (fun l hl m hm => indent_inj (hlines l hl) (hlines' m hm)) hindented
  rw [List.map_id, List.map_id] at hsame
  exact ⟨hhead, hsame, (List.cons.inj htail).2⟩

theorem delimiters_printed (kind : BlockKind) : delimiters kind.printed = delimiters kind := by
  cases kind with
  | sequential => rfl
  | parallel => rfl
  | unscheduled => rfl

theorem printed_eq_of_delimiters {kind kind' : BlockKind} (h : (delimiters kind).1 = (delimiters kind').1) :
    kind.printed = kind'.printed := by
  cases kind with
  | parallel =>
    cases kind' with
    | parallel => rfl
    | sequential => simp [delimiters] at h
    | unscheduled => simp [delimiters] at h
  | sequential =>
    cases kind' with
    | parallel => simp [delimiters] at h
    | sequential => rfl
    | unscheduled => rfl
  | unscheduled =>
    cases kind' with
    | parallel => simp [delimiters] at h
    | sequential => rfl
    | unscheduled => rfl

/-! ## Statements -/

theorem checkNumber_eq_ok_iff {place : NumberPlace} {value : Binary64} :
    checkNumber place value = .ok () ↔ value.isFinite = true := by
  unfold checkNumber
  cases value.isFinite with
  | true => simp
  | false => simp

theorem checkArguments_eq_ok_iff {gate : String} {args : List Argument} :
    checkArguments gate args = .ok () ↔ ∀ value, .number value ∈ args → value.isFinite = true := by
  induction args with
  | nil => simp [checkArguments, pure_eq_ok_iff]
  | cons a rest ih =>
    cases a with
    | number value => simp [checkArguments, check_eq_ok_iff, checkNumber_eq_ok_iff, ih]
    | qubit q => simp [checkArguments, ih]
    | ref name => simp [checkArguments, ih]

theorem isPlain_of_names {a : Argument} (hnames : ∀ name ∈ a.names, isName name = true)
    (hfinite : ∀ x, a = .number x → x.isFinite = true) : IsPlain a := by
  cases a with
  | number x => exact hfinite x rfl
  | qubit q => exact hnames q.register List.mem_cons_self
  | ref name => exact hnames name List.mem_cons_self

/-- The statement is printed as these lines, and its names can be told apart. -/
structure Prints (s : Statement) (lines : List String) : Prop where
  lines_eq : statementLines s = .ok lines
  names : ∀ name ∈ Reading.names.read s, isName name = true

structure PrintsAll (ss : List Statement) (lines : List String) : Prop where
  lines_eq : statementsLines ss = .ok lines
  names : ∀ name ∈ Reading.names.readAll ss, isName name = true

theorem Prints.gate {g : GateCall} {lines : List String} (h : Prints (.gate g) lines) :
    lines = [unwords (gateWords g)] ∧ isName g.name = true ∧ ∀ a ∈ g.args, IsPlain a := by
  obtain ⟨hlines, hnames⟩ := h
  simp only [Reading.read_gate] at hnames
  simp only [statementLines, gateLine, bind_eq_ok_iff, pure_eq_ok_iff] at hlines
  obtain ⟨line, ⟨⟨⟩, hcheck, rfl⟩, rfl⟩ := hlines
  have hnames' : ∀ name ∈ g.names, isName name = true := hnames
  refine ⟨by rw [gateText_eq], hnames' g.name List.mem_cons_self, fun a ha => isPlain_of_names ?_ ?_⟩
  · intro name hname
    exact hnames' name (List.mem_cons_of_mem _ (List.mem_flatMap.2 ⟨a, ha, hname⟩))
  · rintro x rfl
    exact checkArguments_eq_ok_iff.1 hcheck x ha

theorem Prints.block {kind : BlockKind} {ss : List Statement} {lines : List String}
    (h : Prints (.block kind ss) lines) : ∃ inner, PrintsAll ss inner ∧ lines = blockLines "" kind inner := by
  obtain ⟨hlines, hnames⟩ := h
  simp only [Reading.read_block] at hnames
  simp only [statementLines, bind_eq_ok_iff, pure_eq_ok_iff] at hlines
  obtain ⟨inner, hinner, rfl⟩ := hlines
  exact ⟨inner, ⟨hinner, hnames⟩, rfl⟩

theorem Prints.loop {count : LoopCount} {kind : BlockKind} {body : List Statement} {lines : List String}
    (h : Prints (.loop count kind body) lines) :
    ∃ inner, PrintsAll body inner ∧ (∀ name ∈ count.names, isName name = true) ∧
      lines = blockLines ("loop " ++ count.text ++ " ") kind inner := by
  obtain ⟨hlines, hnames⟩ := h
  simp only [Reading.read_loop, Reading.names, Multiset.mem_add, Multiset.mem_coe, or_imp, forall_and] at hnames
  simp only [statementLines, bind_eq_ok_iff, pure_eq_ok_iff] at hlines
  obtain ⟨inner, hinner, rfl⟩ := hlines
  exact ⟨inner, ⟨hinner, hnames.2⟩, hnames.1, rfl⟩

theorem PrintsAll.nil {lines : List String} (h : PrintsAll [] lines) : lines = [] := by
  obtain ⟨hlines, -⟩ := h
  simp only [statementsLines, pure_eq_ok_iff] at hlines
  exact hlines.symm

theorem PrintsAll.cons {s : Statement} {ss : List Statement} {lines : List String} (h : PrintsAll (s :: ss) lines) :
    ∃ first others, Prints s first ∧ PrintsAll ss others ∧ lines = first ++ others := by
  obtain ⟨hlines, hnames⟩ := h
  simp only [Reading.readAll_cons, Multiset.mem_add, or_imp, forall_and] at hnames
  simp only [statementsLines, bind_eq_ok_iff, pure_eq_ok_iff] at hlines
  obtain ⟨first, hfirst, others, hothers, rfl⟩ := hlines
  exact ⟨first, others, ⟨hfirst, hnames.1⟩, ⟨hothers, hnames.2⟩, rfl⟩

/-- The words of the first line of a statement. -/
def headWords : Statement → List String
  | .gate g => gateWords g
  | .block kind _ => [(delimiters kind).1]
  | .loop count kind _ => ["loop", count.text, (delimiters kind).1]

theorem isWord_open (kind : BlockKind) : IsWord (delimiters kind).1 := by
  cases kind with
  | sequential => exact ⟨by decide, by decide⟩
  | parallel => exact ⟨by decide, by decide⟩
  | unscheduled => exact ⟨by decide, by decide⟩

theorem isWord_countText {count : LoopCount} (h : ∀ name ∈ count.names, isName name = true) :
    IsWord count.text := by
  cases count with
  | fixed n => exact isWord_repr n
  | symbol name => exact isWord_of_isName (h name List.mem_cons_self)

theorem Prints.isWord {s : Statement} {lines : List String} (h : Prints s lines) : ∀ w ∈ headWords s, IsWord w := by
  cases s with
  | gate g =>
    obtain ⟨-, hname, hplain⟩ := h.gate
    simp only [headWords, gateWords, List.forall_mem_cons, List.forall_mem_map]
    exact ⟨isWord_of_isName hname, fun a ha => isWord_argumentText (hplain a ha)⟩
  | block kind ss => simpa [headWords] using isWord_open kind
  | loop count kind body =>
    obtain ⟨-, -, hcount, -⟩ := h.loop
    simp only [headWords, List.forall_mem_cons]
    exact ⟨isWord_keyword (by decide), isWord_countText hcount, isWord_open kind, by simp⟩

theorem loopHeader_eq (count kind : String) :
    "loop " ++ count ++ " " ++ kind = unwords ["loop", count, kind] := by
  simp [← String.toList_inj, toList_unwords]

theorem Prints.head {s : Statement} {lines : List String} (h : Prints s lines) :
    ∃ rest, lines = unwords (headWords s) :: rest := by
  cases s with
  | gate g => exact ⟨[], h.gate.1⟩
  | block kind ss =>
    obtain ⟨inner, -, rfl⟩ := h.block
    exact ⟨_, rfl⟩
  | loop count kind body =>
    obtain ⟨inner, -, -, rfl⟩ := h.loop
    exact ⟨_, by rw [blockLines, loopHeader_eq, headWords]⟩

theorem Prints.ne_nil {s : Statement} {lines : List String} (h : Prints s lines) : lines ≠ [] := by
  obtain ⟨rest, rfl⟩ := h.head
  simp

theorem headWords_ne_nil (s : Statement) : headWords s ≠ [] := by
  cases s with
  | gate g => simp [headWords, gateWords]
  | block kind ss => simp [headWords]
  | loop count kind body => simp [headWords]

/-- Statements that begin with the same line begin with the same words. -/
theorem Prints.headWords_eq {s t : Statement} {lines lines' rest rest' : List String} (hs : Prints s lines)
    (ht : Prints t lines') (h : lines ++ rest = lines' ++ rest') : headWords s = headWords t := by
  obtain ⟨tail, rfl⟩ := hs.head
  obtain ⟨tail', rfl⟩ := ht.head
  exact unwords_inj hs.isWord ht.isWord (headWords_ne_nil s) (headWords_ne_nil t) (List.cons.inj h).1

theorem isName_open (kind : BlockKind) : isName (delimiters kind).1 = false := by
  cases kind with
  | sequential => decide
  | parallel => decide
  | unscheduled => decide

theorem toString_ne_name (n : Nat) {name : String} (h : isName name = true) : toString n ≠ name := by
  rintro rfl
  obtain ⟨c, cs, hlist, -, hdigit⟩ := exists_toList_eq_cons h
  rw [Nat.toString_eq_ofList_toDigits, String.toList_ofList] at hlist
  exact notMem_toDigits n hdigit (by simp [hlist])

theorem countText_inj {count count' : LoopCount} (h : ∀ name ∈ count.names, isName name = true)
    (h' : ∀ name ∈ count'.names, isName name = true) (htext : count.text = count'.text) : count = count' := by
  cases count with
  | fixed n =>
    cases count' with
    | fixed n' =>
      have hdigits : toString n = toString n' := htext
      rw [Nat.toString_eq_ofList_toDigits, Nat.toString_eq_ofList_toDigits, ← String.toList_inj,
        String.toList_ofList, String.toList_ofList] at hdigits
      rw [toDigits_inj hdigits]
    | symbol name' => exact absurd htext (toString_ne_name n (h' name' List.mem_cons_self))
  | symbol name =>
    cases count' with
    | fixed n' => exact absurd htext.symm (toString_ne_name n' (h name List.mem_cons_self))
    | symbol name' =>
      obtain rfl : name = name' := htext
      rfl

theorem Prints.isLine_head {s : Statement} {lines : List String} (h : Prints s lines) :
    IsLine (unwords (headWords s)) := by
  have hwords := h.isWord
  cases s with
  | gate g => exact isLine_unwords (ne_of_isName h.gate.2.1 (by decide)) hwords
  | block kind ss =>
    refine isLine_unwords ?_ hwords
    cases kind with
    | sequential => decide
    | parallel => decide
    | unscheduled => decide
  | loop count kind body => exact isLine_unwords (by decide) hwords

theorem isLine_blockLines {header : String} {kind : BlockKind} {inner : List String}
    (hhead : IsLine (header ++ (delimiters kind).1)) (hinner : ∀ l ∈ inner, IsLine l) :
    ∀ l ∈ blockLines header kind inner, IsLine l := by
  have hclose : IsLine (delimiters kind).2 := by
    cases kind with
    | sequential => exact ⟨by decide, by decide⟩
    | parallel => exact ⟨by decide, by decide⟩
    | unscheduled => exact ⟨by decide, by decide⟩
  simp only [blockLines, List.forall_mem_cons, List.forall_mem_append, List.forall_mem_map]
  exact ⟨hhead, fun l hl => isLine_indent (hinner l hl), hclose, by simp⟩

theorem PrintsAll.isLine {ss : List Statement} {lines : List String} (h : PrintsAll ss lines)
    (ih : ∀ s ∈ ss, ∀ {lines : List String}, Prints s lines → ∀ l ∈ lines, IsLine l) : ∀ l ∈ lines, IsLine l := by
  induction ss generalizing lines with
  | nil => simp [h.nil]
  | cons s ss ihss =>
    obtain ⟨first, others, hfirst, hothers, rfl⟩ := h.cons
    rw [List.forall_mem_append]
    exact ⟨ih s List.mem_cons_self hfirst, ihss hothers fun t ht => ih t (List.mem_cons_of_mem s ht)⟩

theorem Prints.isLine (s : Statement) : ∀ {lines : List String}, Prints s lines → ∀ l ∈ lines, IsLine l := by
  induction s using Statement.induction with
  | gate g =>
    intro lines h
    have hhead := h.isLine_head
    rw [h.gate.1]
    simpa [headWords] using hhead
  | block kind ss ih =>
    intro lines h
    have hhead := h.isLine_head
    obtain ⟨inner, hinner, rfl⟩ := h.block
    exact isLine_blockLines hhead (hinner.isLine ih)
  | loop count kind body ih =>
    intro lines h
    have hhead := h.isLine_head
    obtain ⟨inner, hinner, -, rfl⟩ := h.loop
    rw [headWords, ← loopHeader_eq] at hhead
    exact isLine_blockLines hhead (hinner.isLine ih)

theorem PrintsAll.newline_notMem {ss : List Statement} {lines : List String} (h : PrintsAll ss lines) :
    ∀ l ∈ lines, '\n' ∉ l.toList :=
  fun l hl => (h.isLine (fun s _ => Prints.isLine s) l hl).2

theorem PrintsAll.ne_empty {ss : List Statement} {lines : List String} (h : PrintsAll ss lines) :
    ∀ l ∈ lines, l ≠ "" :=
  fun l hl => (h.isLine (fun s _ => Prints.isLine s) l hl).1

/-- The lines of a statement determine what is printed of it, whatever follows. -/
def Determines (s : Statement) : Prop :=
  ∀ {t : Statement} {lines lines' rest rest' : List String}, Prints s lines → Prints t lines' →
    lines ++ rest = lines' ++ rest' → s.printed = t.printed ∧ rest = rest'

theorem printedAll_eq {ss : List Statement} (ih : ∀ s ∈ ss, Determines s) {ts : List Statement}
    {lines : List String} (hss : PrintsAll ss lines) (hts : PrintsAll ts lines) :
    Statement.printedAll ss = Statement.printedAll ts := by
  induction ss generalizing ts lines with
  | nil =>
    cases ts with
    | nil => rfl
    | cons t ts =>
      obtain ⟨first, others, hfirst, -, hlines⟩ := hts.cons
      rw [hss.nil] at hlines
      exact absurd (List.append_eq_nil_iff.1 hlines.symm).1 hfirst.ne_nil
  | cons s ss ihss =>
    obtain ⟨first, others, hfirst, hothers, rfl⟩ := hss.cons
    cases ts with
    | nil => exact absurd (List.append_eq_nil_iff.1 hts.nil).1 hfirst.ne_nil
    | cons t ts =>
      obtain ⟨first', others', hfirst', hothers', hlines⟩ := hts.cons
      obtain ⟨hprinted, rfl⟩ := ih s List.mem_cons_self hfirst hfirst' hlines
      rw [Statement.printedAll, Statement.printedAll, hprinted,
        ihss (fun u hu => ih u (List.mem_cons_of_mem s hu)) hothers hothers']

theorem determines (s : Statement) : Determines s := by
  induction s using Statement.induction with
  | gate g =>
    intro t lines lines' rest rest' hs ht h
    have hhead := hs.headWords_eq ht h
    obtain ⟨rfl, hname, hplain⟩ := hs.gate
    cases t with
    | gate g' =>
      obtain ⟨rfl, -, hplain'⟩ := ht.gate
      obtain ⟨hnames, hargs⟩ := gateWords_inj hplain hplain' hhead
      refine ⟨?_, (List.cons.inj h).2⟩
      simp only [Statement.printed, GateCall.printed, hnames, hargs]
    | block kind' ss' =>
      obtain ⟨hopen, -⟩ := List.cons.inj hhead
      exact absurd hopen (ne_of_isName hname (isName_open kind'))
    | loop count' kind' body' =>
      obtain ⟨hloop, -⟩ := List.cons.inj hhead
      exact absurd hloop (ne_of_isName hname (by decide))
  | block kind ss ih =>
    intro t lines lines' rest rest' hs ht h
    have hhead := hs.headWords_eq ht h
    obtain ⟨inner, hinner, rfl⟩ := hs.block
    cases t with
    | gate g' =>
      obtain ⟨-, hname', -⟩ := ht.gate
      obtain ⟨hopen, -⟩ := List.cons.inj hhead
      exact absurd hopen.symm (ne_of_isName hname' (isName_open kind))
    | block kind' ss' =>
      obtain ⟨inner', hinner', rfl⟩ := ht.block
      obtain ⟨-, rfl, hrest⟩ := blockLines_append_inj hinner.ne_empty hinner'.ne_empty h
      have hkind := printed_eq_of_delimiters (List.cons.inj hhead).1
      refine ⟨?_, hrest⟩
      rw [Statement.printed, Statement.printed, hkind, printedAll_eq ih hinner hinner']
    | loop count' kind' body' => simp [headWords] at hhead
  | loop count kind body ih =>
    intro t lines lines' rest rest' hs ht h
    have hhead := hs.headWords_eq ht h
    obtain ⟨inner, hinner, hcount, rfl⟩ := hs.loop
    cases t with
    | gate g' =>
      obtain ⟨-, hname', -⟩ := ht.gate
      obtain ⟨hloop, -⟩ := List.cons.inj hhead
      exact absurd hloop.symm (ne_of_isName hname' (by decide))
    | block kind' ss' => simp [headWords] at hhead
    | loop count' kind' body' =>
      obtain ⟨inner', hinner', hcount', rfl⟩ := ht.loop
      obtain ⟨-, rfl, hrest⟩ := blockLines_append_inj hinner.ne_empty hinner'.ne_empty h
      obtain ⟨htext, hopen⟩ : count.text = count'.text ∧ (delimiters kind).1 = (delimiters kind').1 := by
        simpa [headWords] using hhead
      refine ⟨?_, hrest⟩
      rw [Statement.printed, Statement.printed, countText_inj hcount hcount' htext, printed_eq_of_delimiters hopen,
        printedAll_eq ih hinner hinner']

end Jaqal

end IonSchedule
