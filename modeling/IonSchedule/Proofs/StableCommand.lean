import IonSchedule.Proofs.CommandRuns
import IonSchedule.Proofs.PassRuns
import IonSchedule.Proofs.ScheduledValidity

/-! # The schedule command on its own output

The JSON text that the schedule command writes is that of a valid circuit in normal form, which is its own
schedule. Main statement: run on a file with this text, the command succeeds and writes the same text again, if
the brackets of the text nest no deeper than can be read.
-/
namespace IonSchedule

namespace Command

variable {c c' : Circuit} {verify : Bool} {text : String}

theorem scheduleText_json_eq_ok_iff :
    (scheduleText verify .json c).2 = .ok text ↔
      ∃ c' stats, c.schedule = .ok (c', stats) ∧ (verify = true → ∃ report, c'.verify = .ok report) ∧
        c'.toJson.pretty = text := by
  cases hschedule : c.schedule with
  | error e =>
    have hrun := Pass.runAll_of_error ((Pass.Fails.scheduler (w := ⟨c, .empty⟩) hschedule).run_performAll
      (if verify then [.verification] else []))
    simp [scheduleText, Pass.pipeline, hrun]
  | ok scheduled =>
    obtain ⟨c', stats⟩ := scheduled
    have hfirst := Pass.Completes.scheduler (w := ⟨c, .empty⟩) hschedule
    cases verify with
    | false =>
      have hrun := Pass.runAll_of_ok (hfirst.run_performAll [])
      simp [scheduleText, Pass.pipeline, hrun, render]
    | true =>
      cases hverify : c'.verify with
      | error e =>
        have hrun := Pass.runAll_of_error
          ((hfirst.run_performAll [.verification]).trans (Pass.Fails.run_performAll (.verification hverify) []))
        simp [scheduleText, Pass.pipeline, hrun, hverify]
      | ok report =>
        have hrun := Pass.runAll_of_ok
          ((hfirst.run_performAll [.verification]).trans (Pass.Completes.run_performAll (.verification hverify) []))
        simp [scheduleText, Pass.pipeline, hrun, hverify, render]

theorem withTable_eq_ok_iff (hvalid : c.validate = .ok ()) {table : Option GateTable} :
    withTable c table = .ok c' ↔
      c' = { c with nativeGates := table.getD c.nativeGates } ∧ c'.validate = .ok () := by
  cases table with
  | none =>
    simp only [withTable, Except.ok.injEq, Option.getD_none]
    constructor
    · rintro rfl
      exact ⟨rfl, hvalid⟩
    · rintro ⟨rfl, -⟩
      rfl
  | some table =>
    simp only [withTable, Option.getD_some]
    split
    · rename_i fault hfault
      simp only [reduceCtorEq, false_iff]
      rintro ⟨rfl, hc'⟩
      rw [hfault] at hc'
      cases hc'
    · rename_i hok
      simp only [Except.ok.injEq]
      constructor
      · rintro rfl
        exact ⟨rfl, hok⟩
      · rintro ⟨rfl, -⟩
        rfl

/-- The text of a circuit whose numbers fit is read as the circuit, unless it nests too deep. -/
theorem parse?_pretty_of_nesting (hfits : ∀ x ∈ c.scalars, x.Fits)
    (hnesting : Json.nesting c.toJson.pretty ≤ Json.maxDepth) : Circuit.parse? c.toJson.pretty = some c := by
  have hwritable := Circuit.encodes.writable c
  rw [Json.nesting_pretty hwritable] at hnesting
  rw [Circuit.parse?, Json.parse?_pretty hwritable hnesting, Option.bind_some, Circuit.encodes.read_eq_some_iff]
  exact ⟨hfits, rfl⟩

variable {yaml : YamlReader} {tree tree₂ : FileTree} {settings : Settings} {input : String}
  {nativeGates : Option String}

theorem HoldsTable.congr {path : Option String} {table : Option GateTable} (h : HoldsTable yaml tree path table)
    (hsame : ∀ p ∈ path, tree₂.read p = tree.read p) : HoldsTable yaml tree₂ path table := by
  cases h with
  | none => exact .none
  | file hread htable => exact .file ((hsame _ rfl).trans hread) htable

/-- A text that was made is that of the schedule of a valid circuit. This is valid, and the text is made again
of every file that holds it. -/
theorem MakesText.again (h : MakesText yaml tree settings input verify nativeGates text) :
    ∃ (c c' : Circuit) (stats : Stats), Loads yaml tree settings input nativeGates c ∧ c.validate = .ok () ∧
      c.schedule = .ok (c', stats) ∧ c'.validate = .ok () ∧ text = c'.toJson.pretty ∧
      (Json.nesting text ≤ Json.maxDepth → ∀ (tree₂ : FileTree) (copy : String), tree₂.read copy = .ok text →
        (∀ path ∈ nativeGates.orElse fun _ => settings.nativeGates, tree₂.read path = tree.read path) →
        MakesText yaml tree₂ settings copy verify nativeGates text) := by
  obtain ⟨c, ⟨c₀, table, hc₀, htable, hwith⟩, htext⟩ := h
  have hloads : Loads yaml tree settings input nativeGates c := ⟨c₀, table, hc₀, htable, hwith⟩
  obtain ⟨source, -, hparse, hvalid₀⟩ := hc₀
  obtain ⟨hc, hvalid⟩ := (withTable_eq_ok_iff hvalid₀).1 hwith
  obtain ⟨c', stats, hschedule, hverify, rfl⟩ := scheduleText_json_eq_ok_iff.1 htext
  have harranges := Circuit.arranges_of_schedule hschedule
  have hvalid' := harranges.validate hvalid
  refine ⟨c, c', stats, hloads, hvalid, hschedule, hvalid', rfl, fun hnesting tree₂ copy hread hsame => ?_⟩
  have hfits₀ : ∀ x ∈ c₀.scalars, x.Fits := Circuit.scalars_of_parse? hparse
  have hfits : ∀ x ∈ c.scalars, x.Fits := by
    rw [hc]
    exact hfits₀
  have hparse' := parse?_pretty_of_nesting (harranges.forall_scalars hfits) hnesting
  -- the schedule already has the chosen table, so putting it in place changes nothing
  have hgates : table.getD c'.nativeGates = c'.nativeGates := by
    rw [harranges.nativeGates, hc]
    cases table with
    | none => rfl
    | some table => rfl
  have hwith' : withTable c' table = .ok c' := (withTable_eq_ok_iff hvalid').2 ⟨by rw [hgates], hvalid'⟩
  have hagain : c'.schedule = .ok (c', 0) := (Circuit.isNormal_of_schedule hschedule).schedule_eq
  exact ⟨c', ⟨c', table, ⟨_, hread, hparse', hvalid'⟩, htable.congr hsame, hwith'⟩,
    scheduleText_json_eq_ok_iff.2 ⟨c', 0, hagain, hverify, rfl⟩⟩

end Command

open Command in
/-- A run of the schedule command with the format JSON that succeeds delivers the text of the schedule of a
valid circuit, and this schedule is valid. If the brackets of the text nest at most 127 deep, then the same
command with the same settings and gate table succeeds on every file with this text and delivers the text again,
given that the output can be written. -/
theorem runArgumentsWith_schedule_again {yaml : YamlReader} {lookup? : String → Option String}
    {home config output nativeGates : Option String} {input copy : String} {verify : Bool}
    {arguments again : List String} {tree tree' : FileTree} {console : Console}
    (harguments : Request.ofArguments? arguments =
      some (.execute config (.schedule input output (some "json") verify nativeGates)))
    (hagain : Request.ofArguments? again =
      some (.execute config (.schedule copy output (some "json") verify nativeGates)))
    (hrun : (runArgumentsWith yaml FileTree.files lookup? home arguments).run tree = (console, tree'))
    (hexit : console.exit = 0) :
    ∃ (settings : Settings) (c c' : Circuit) (stats : Stats) (text : String),
      Settings.foundIn yaml tree lookup? home config = .ok settings ∧ Loads yaml tree settings input nativeGates c ∧
      c.validate = .ok () ∧ c.schedule = .ok (c', stats) ∧ c'.validate = .ok () ∧ text = c'.toJson.pretty ∧
      Delivers output text tree console.stdout tree' ∧
      (Json.nesting text ≤ 127 → ∀ before after stdout, before.read copy = .ok text →
        Settings.foundIn yaml before lookup? home config = .ok settings →
        (∀ path ∈ nativeGates.orElse fun _ => settings.nativeGates, before.read path = tree.read path) →
        Delivers output text before stdout after →
        ∃ stderr, (runArgumentsWith yaml FileTree.files lookup? home again).run before =
          (⟨0, stdout, stderr⟩, after)) := by
  obtain ⟨exit, stdout, stderr⟩ := console
  obtain rfl : exit = 0 := hexit
  obtain ⟨settings, hsettings, houtcome⟩ := (runArgumentsWith_exit_zero_iff harguments).1 ⟨stderr, hrun⟩
  obtain ⟨text, hmakes, hdelivers⟩ := outcome_schedule_eq_ok_iff.1 houtcome
  obtain ⟨c, c', stats, hloads, hvalid, hschedule, hvalid', htext, hmakes'⟩ := hmakes.again
  refine ⟨settings, c, c', stats, text, hsettings, hloads, hvalid, hschedule, hvalid', htext, hdelivers, ?_⟩
  intro hnesting before after stdout' hread hsettings' hsame hdelivers'
  have hcopy := hmakes' hnesting before copy hread hsame
  exact (runArgumentsWith_exit_zero_iff hagain).2
    ⟨settings, hsettings', outcome_schedule_eq_ok_iff.2 ⟨text, hcopy, hdelivers'⟩⟩

namespace Sample

/-- A circuit with its own gate table, a macro and an unscheduled block. -/
def tableSample (nativeGates : GateTable) : Circuit where
  constants := Catalog.empty
  registers := ⟨[("q", ⟨"q", .fundamental 3⟩)], by decide⟩
  macros := ⟨[("twice", ⟨"twice", ["a"], ⟨.unscheduled, [px (.ref "a"), px (.ref "a")]⟩⟩)], by decide⟩
  nativeGates := nativeGates
  body := .sequential [.block .unscheduled [px (onQ 0), px (onQ 1), px (onQ 0), .gate (.composite "twice" [onQ 2])]]

def oneGate : GateTable := ⟨[⟨"Px", [⟨"q", .qubit⟩]⟩], by decide⟩

def twoGates : GateTable := ⟨[⟨"Px", [⟨"q", .qubit⟩]⟩, ⟨"prepare_all", []⟩], by decide⟩

def twoGatesText : String := "- name: Px\n  parameters:\n  - name: q\n    kind: qubit\n- name: prepare_all\n"

/-- The schedule command with the gate table of a file. -/
def argumentsOn (input : String) : List String :=
  ["schedule", "-i", input, "-o", "b", "-f", "json", "--native-gates", "t"]

/-- A circuit and a gate table. -/
def twoFiles (circuit table : String) : FileTree := Catalog.ofList [("a", circuit), ("t", table)]

/-- The same with what was written. -/
def threeFiles (circuit table text : String) : FileTree :=
  Catalog.ofList [("a", circuit), ("t", table), ("b", text)]

section Files

variable {tree : FileTree} (hnames : ∀ path ∈ tree.names, path ∈ ["a", "t", "b"])
include hnames

theorem isDirectory_of_names {name : String} (hname : FileTree.leadsOut name = false) :
    tree.isDirectory [name] = false := by
  have hshort : ∀ path ∈ ["a", "t", "b"], (pathComponents path).length ≤ 1 := by decide
  exact FileTree.isDirectory_eq_false (by simp [hname]) fun path hpath => hshort path (hnames path hpath)

theorem write_of_names (text : String) : tree.write "b" text = .ok (tree.insert "b" text) := by
  have hfile : "b".toList.getLast? ≠ some '/' := by decide
  exact FileTree.write_of_locate hfile rfl (isDirectory_of_names hnames rfl) text

end Files

theorem names_twoFiles (circuit table : String) :
    ∀ path ∈ (twoFiles circuit table).names, path ∈ ["a", "t", "b"] := by
  have hnames : (twoFiles circuit table).names = ["a", "t"] := rfl
  simp [hnames]

theorem names_threeFiles (circuit table text : String) :
    ∀ path ∈ (threeFiles circuit table text).names, path ∈ ["a", "t", "b"] := fun _ => id

theorem read_twoFiles (circuit table : String) :
    (twoFiles circuit table).read "a" = .ok circuit ∧ (twoFiles circuit table).read "t" = .ok table := by
  have hnames := names_twoFiles circuit table
  exact ⟨FileTree.read_eq_ok_iff.2 ⟨["a"], rfl, isDirectory_of_names hnames rfl, rfl⟩,
    FileTree.read_eq_ok_iff.2 ⟨["t"], rfl, isDirectory_of_names hnames rfl, rfl⟩⟩

theorem read_threeFiles (circuit table text : String) :
    (threeFiles circuit table text).read "b" = .ok text ∧ (threeFiles circuit table text).read "t" = .ok table := by
  have hnames := names_threeFiles circuit table text
  exact ⟨FileTree.read_eq_ok_iff.2 ⟨["b"], rfl, isDirectory_of_names hnames rfl, rfl⟩,
    FileTree.read_eq_ok_iff.2 ⟨["t"], rfl, isDirectory_of_names hnames rfl, rfl⟩⟩

theorem write_twoFiles (circuit table text : String) :
    (twoFiles circuit table).write "b" text = .ok (threeFiles circuit table text) :=
  write_of_names (names_twoFiles circuit table) text

theorem write_threeFiles (circuit table text : String) :
    (threeFiles circuit table text).write "b" text = .ok (threeFiles circuit table text) :=
  write_of_names (names_threeFiles circuit table text) text

def tableFiles : FileTree := twoFiles (tableSample oneGate).toJson.pretty twoGatesText

theorem parse?_tableSample : Circuit.parse? (tableSample oneGate).toJson.pretty = some (tableSample oneGate) := by
  refine Command.parse?_pretty_of_nesting ?_ ?_
  · rw [Circuit.forall_scalars_iff]
    simp [tableSample, Table.values, Catalog.empty, Register.naturals, Block.scalars, Reading.scalars, px,
      pxCall, onQ, GateCall.native, GateCall.composite, GateCall.scalars, Argument.scalars, Scalar.Fits,
      Block.sequential]
  · rw [Json.nesting_pretty (Circuit.encodes.writable _)]
    decide

theorem tableOfText?_twoGatesText : Command.tableOfText? .plain "t" twoGatesText = some twoGates := by
  have hextension : extension? "t" = none := by rfl
  have hitems : (YamlReader.plain.gateTable? twoGatesText).map Catalog.items = some twoGates.items := by
    decide +kernel
  obtain ⟨table, htable, hitems⟩ := Option.map_eq_some_iff.1 hitems
  rw [Command.tableOfText?, hextension, Option.any_none, if_neg Bool.false_ne_true, htable,
    Catalog.eq_of_items_eq hitems]

theorem exists_makesText_tableFiles :
    ∃ text, Json.nesting text ≤ 127 ∧ Command.MakesText .plain tableFiles .default "a" true (some "t") text := by
  have hvalid : (tableSample oneGate).validate = .ok () := by decide +kernel
  have hwith : Command.withTable (tableSample oneGate) (some twoGates) = .ok (tableSample twoGates) :=
    (Command.withTable_eq_ok_iff hvalid).2 ⟨rfl, by decide +kernel⟩
  have hmade : ((tableSample twoGates).schedule.toOption.any fun scheduled =>
      scheduled.1.verify.toBool && decide (scheduled.1.toJson.depth ≤ 127)) = true := by decide +kernel
  cases hschedule : (tableSample twoGates).schedule with
  | error e => simp [hschedule, Except.toOption] at hmade
  | ok scheduled =>
    obtain ⟨c', stats⟩ := scheduled
    simp only [hschedule, Except.toOption, Option.any_some, Bool.and_eq_true, toBool_iff,
      decide_eq_true_eq] at hmade
    refine ⟨c'.toJson.pretty, ?_, tableSample twoGates, ⟨tableSample oneGate, some twoGates, ?_, ?_, hwith⟩, ?_⟩
    · rw [Json.nesting_pretty (Circuit.encodes.writable c')]
      exact hmade.2
    · exact ⟨_, (read_twoFiles _ _).1, parse?_tableSample, hvalid⟩
    · exact .file (read_twoFiles _ _).2 tableOfText?_twoGatesText
    · exact Command.scheduleText_json_eq_ok_iff.2 ⟨c', stats, hschedule, fun _ => hmade.1, rfl⟩

end Sample

open Sample in
/-- The text that is written to a file with another gate table is written there again. -/
theorem runArguments_schedule_again_tableFiles :
    ∃ stderr stderr' tree' text,
      (runArguments FileTree.files (fun _ => none) none (argumentsOn "a")).run tableFiles =
        (⟨0, "", stderr⟩, tree') ∧
      tree'.read "b" = .ok text ∧ Json.nesting text ≤ 127 ∧
      (runArguments FileTree.files (fun _ => none) none (argumentsOn "b")).run tree' =
        (⟨0, "", stderr'⟩, tree') := by
  obtain ⟨text, hnesting, hmakes⟩ := exists_makesText_tableFiles
  have harguments : Request.ofArguments? (argumentsOn "a") =
      some (.execute none (.schedule "a" (some "b") (some "json") true (some "t"))) := by rfl
  have hagain : Request.ofArguments? (argumentsOn "b") =
      some (.execute none (.schedule "b" (some "b") (some "json") true (some "t"))) := by rfl
  have hsettings : Settings.foundIn .plain tableFiles (fun _ => none) none none = .ok .default := rfl
  obtain ⟨stderr, hrun⟩ := (runArgumentsWith_exit_zero_iff harguments).2
    ⟨.default, hsettings, Command.outcome_schedule_eq_ok_iff.2 ⟨text, hmakes, rfl, write_twoFiles _ _ text⟩⟩
  obtain ⟨settings, -, -, -, text', hfound, -, -, -, -, -, ⟨-, hwrite⟩, hstable⟩ :=
    runArgumentsWith_schedule_again harguments hagain hrun rfl
  obtain rfl : text = text' := by
    have hfiles := Except.ok.inj (hwrite.symm.trans (write_twoFiles _ _ text'))
    have hread := (read_threeFiles (tableSample oneGate).toJson.pretty twoGatesText text').1
    rw [← hfiles, (read_threeFiles _ _ text).1] at hread
    exact Except.ok.inj hread
  have hsame : ∀ path ∈ (some "t").orElse fun _ => settings.nativeGates,
      (threeFiles (tableSample oneGate).toJson.pretty twoGatesText text).read path = tableFiles.read path := by
    rintro _ ⟨⟩
    exact (read_threeFiles _ _ text).2.trans (read_twoFiles _ _).2.symm
  obtain ⟨stderr', hrun'⟩ :=
    hstable hnesting _ _ "" (read_threeFiles _ _ text).1 hfound hsame ⟨rfl, write_threeFiles _ _ text⟩
  exact ⟨stderr, stderr', _, text, hrun, (read_threeFiles _ _ text).1, hnesting, hrun'⟩

end IonSchedule
