import IonSchedule.Command.Run
import IonSchedule.Proofs.Reading

/-! # Runs of commands

A command that runs over a file tree ends in success exactly if each of its steps does. For every step this is
said in terms of the files that it reads and of the text that it makes; what is said on the way has no part in
it.
-/
namespace IonSchedule

namespace FileTree

variable {tree : FileTree} {path text : String} {place : List String}

theorem read_eq_ok_iff :
    tree.read path = .ok text ↔
      ∃ place, tree.locate path = .ok place ∧ tree.isDirectory place = false ∧ tree.text? place = some text := by
  simp only [read, bind_eq_ok_iff]
  refine exists_congr fun place => and_congr_right fun _ => ?_
  constructor
  · intro h
    split at h
    · cases h
    · rename_i hdirectory
      split at h
      · rename_i found hfound
        exact ⟨by simpa using hdirectory, hfound.trans (congrArg some (pure_eq_ok_iff.1 h))⟩
      · cases h
  · rintro ⟨hdirectory, htext⟩
    rw [hdirectory, htext]
    rfl

theorem isPresent_of_read (h : tree.read path = .ok text) : tree.isPresent path = true := by
  obtain ⟨place, hplace, -, htext⟩ := read_eq_ok_iff.1 h
  simp [isPresent, hplace, htext]

theorem write_of_locate (hfile : path.toList.getLast? ≠ some '/') (hplace : tree.locate path = .ok place)
    (hdirectory : tree.isDirectory place = false) (text : String) :
    tree.write path text = .ok (tree.insert (join place) text) := by
  obtain ⟨u, hcheck, hwalk⟩ := bind_eq_ok_iff.1 hplace
  rw [write, if_neg hfile, bind_eq_ok_iff]
  refine ⟨u, hcheck, bind_eq_ok_iff.2 ⟨place, hwalk, ?_⟩⟩
  rw [hdirectory]
  rfl

/-- The path of a file inside a directory is longer than that of the directory. -/
theorem isDirectory_eq_false (hplace : place.all leadsOut = false)
    (hshort : ∀ path ∈ tree.names, (pathComponents path).length ≤ place.length) :
    tree.isDirectory place = false := by
  simp only [isDirectory, hplace, Bool.false_or, List.any_eq_false]
  intro entry hentry
  simp [Nat.not_lt.2 (hshort entry.1 (List.mem_map_of_mem hentry))]

/-- Files are read and looked for without a change to them. -/
theorem run_isPresent (tree : FileTree) (path : String) :
    (files.isPresent path).run tree = (tree.isPresent path, tree) := rfl

theorem run_read (tree : FileTree) (path : String) : (files.read path).run tree = (tree.read path, tree) := rfl

theorem run_write (tree : FileTree) (path text : String) :
    (files.write path text).run tree =
      match tree.write path text with
      | .ok tree' => (.ok (), tree')
      | .error e => (.error e, tree) := by
  cases h : tree.write path text with
  | error e =>
    simp only [files, StateT.run_bind, StateT.run_get, pure_bind, h]
    rfl
  | ok tree' =>
    simp only [files, StateT.run_bind, StateT.run_get, pure_bind, h]
    rfl

end FileTree

namespace Session

variable {α β : Type} {t t' : Transcript} {tree tree' : FileTree}

/-- What becomes of a session over files: how it ends, what has been said until then, and the files. -/
def outcome (x : Session (StateM FileTree) α) (t : Transcript) (tree : FileTree) :
    (Except CommandError α × Transcript) × FileTree := Id.run ((x.run.run t).run tree)

theorem outcome_bind_eq_ok_iff {x : Session (StateM FileTree) α} {f : α → Session (StateM FileTree) β} {b : β} :
    outcome (x >>= f) t tree = ((.ok b, t'), tree') ↔
      ∃ a t₁ tree₁, outcome x t tree = ((.ok a, t₁), tree₁) ∧ outcome (f a) t₁ tree₁ = ((.ok b, t'), tree') := by
  have hbind : outcome (x >>= f) t tree =
      match outcome x t tree with
      | ((.ok a, t₁), tree₁) => outcome (f a) t₁ tree₁
      | ((.error e, t₁), tree₁) => ((.error e, t₁), tree₁) := by
    unfold outcome
    rw [ExceptT.run_bind, StateT.run_bind, StateT.run_bind]
    rcases (x.run.run t).run tree with ⟨⟨e | a, t₁⟩, tree₁⟩
    · rfl
    · rfl
  rw [hbind]
  rcases outcome x t tree with ⟨⟨e | a, t₁⟩, tree₁⟩
  · simp
  · simp [and_assoc]

theorem outcome_pure (a : α) : outcome (pure a) t tree = ((.ok a, t), tree) := rfl

theorem outcome_throw (e : CommandError) :
    outcome (throw e : Session (StateM FileTree) α) t tree = ((.error e, t), tree) := rfl

theorem outcome_liftExcept (r : Except CommandError α) : outcome (liftExcept r) t tree = ((r, t), tree) := by
  cases r with
  | error e => rfl
  | ok a => rfl

theorem outcome_onFiles_bind (action : StateM FileTree α) (f : α → Session (StateM FileTree) β) :
    outcome (Command.onFiles action >>= f) t tree = outcome (f (action.run tree).1) t (action.run tree).2 := rfl

theorem outcome_say (line : String) :
    outcome (Command.say line) t tree = ((.ok (), { t with stderr := t.stderr ++ line ++ "\n" }), tree) := rfl

theorem outcome_print (text : String) :
    outcome (Command.print text) t tree = ((.ok (), { t with stdout := t.stdout ++ text }), tree) := rfl

theorem outcome_forM_say (lines : List String) :
    outcome (lines.forM Command.say) t tree =
      ((.ok (), { t with stderr := lines.foldl (fun said line => said ++ line ++ "\n") t.stderr }), tree) := by
  induction lines generalizing t with
  | nil => rfl
  | cons line rest ih =>
    exact outcome_bind_eq_ok_iff.2 ⟨(), _, tree, outcome_say line, ih⟩

end Session

namespace Command

open Session

variable {yaml : YamlReader} {t t' : Transcript} {tree tree' : FileTree} {path : String}

/-- A file that holds a circuit which its own gate table accepts. -/
def HoldsCircuit (tree : FileTree) (path : String) (c : Circuit) : Prop :=
  ∃ text, tree.read path = .ok text ∧ Circuit.parse? text = some c ∧ c.validate = .ok ()

theorem outcome_loadCircuit_eq_ok_iff {c : Circuit} :
    outcome (loadCircuit FileTree.files path) t tree = ((.ok c, t'), tree') ↔
      HoldsCircuit tree path c ∧ t = t' ∧ tree = tree' := by
  unfold HoldsCircuit
  simp only [loadCircuit, outcome_onFiles_bind, FileTree.run_isPresent]
  cases hread : tree.read path with
  | error fault =>
    by_cases hpresent : tree.isPresent path = true
    · simp [hpresent, outcome_onFiles_bind, FileTree.run_read, hread, outcome_throw]
    · simp [hpresent, outcome_throw]
  | ok text =>
    simp only [FileTree.isPresent_of_read hread, Bool.not_true, Bool.false_eq_true, if_false, outcome_onFiles_bind,
      FileTree.run_read, hread]
    cases hparse : Circuit.parse? text with
    | none => simp [hparse, outcome_throw]
    | some found =>
      simp only [Except.ok.injEq, exists_eq_left', hparse, Option.some.injEq]
      cases hv : found.validate with
      | error fault =>
        simp only [outcome_throw, Prod.mk.injEq, reduceCtorEq, false_and, false_iff]
        rintro ⟨⟨rfl, hvalid⟩, -⟩
        rw [hv] at hvalid
        cases hvalid
      | ok _ =>
        simp only [outcome_pure, Prod.mk.injEq, Except.ok.injEq, and_assoc]
        constructor
        · rintro ⟨rfl, rfl, rfl⟩
          exact ⟨rfl, hv, rfl, rfl⟩
        · rintro ⟨rfl, -, rfl, rfl⟩
          exact ⟨rfl, rfl, rfl⟩

def tableOfText? (yaml : YamlReader) (path text : String) : Option GateTable :=
  if (extension? path).any fun e => e.map Char.toLower = "json" then GateTable.parseJson? text
  else yaml.gateTable? text

theorem outcome_loadTable_eq_ok_iff {table : GateTable} :
    outcome (loadTable yaml FileTree.files path) t tree = ((.ok table, t'), tree') ↔
      (∃ text, tree.read path = .ok text ∧ tableOfText? yaml path text = some table) ∧ t = t' ∧ tree = tree' := by
  simp only [loadTable, outcome_onFiles_bind, FileTree.run_read]
  cases hread : tree.read path with
  | error fault => simp [outcome_throw]
  | ok text =>
    cases htable : tableOfText? yaml path text with
    | none =>
      simp only [tableOfText?] at htable
      simp [tableOfText?, htable, outcome_throw]
    | some found =>
      simp only [tableOfText?] at htable
      simp [tableOfText?, htable, outcome_pure, and_assoc]

/-- The gate table in the file that was chosen, if one was. -/
inductive HoldsTable (yaml : YamlReader) (tree : FileTree) : Option String → Option GateTable → Prop
  | none : HoldsTable yaml tree none none
  | file {path text : String} {table : GateTable} (hread : tree.read path = .ok text)
      (htable : tableOfText? yaml path text = some table) : HoldsTable yaml tree (some path) (some table)

theorem outcome_chosenTable_eq_ok_iff {settings : Settings} {nativeGates : Option String}
    {table : Option GateTable} :
    outcome (chosenTable yaml FileTree.files settings nativeGates) t tree = ((.ok table, t'), tree') ↔
      HoldsTable yaml tree (nativeGates.orElse fun _ => settings.nativeGates) table ∧ t = t' ∧ tree = tree' := by
  unfold chosenTable
  cases nativeGates.orElse fun _ => settings.nativeGates with
  | none =>
    simp only [outcome_pure, Prod.mk.injEq, Except.ok.injEq]
    constructor
    · rintro ⟨⟨rfl, rfl⟩, rfl⟩
      exact ⟨.none, rfl, rfl⟩
    · rintro ⟨⟨⟩, rfl, rfl⟩
      exact ⟨⟨rfl, rfl⟩, rfl⟩
  | some path =>
    simp only [outcome_bind_eq_ok_iff, outcome_loadTable_eq_ok_iff, outcome_pure, Prod.mk.injEq, Except.ok.injEq]
    constructor
    · rintro ⟨found, t₁, tree₁, ⟨⟨text, hread, hfound⟩, rfl, rfl⟩, ⟨rfl, rfl⟩, rfl⟩
      exact ⟨.file hread hfound, rfl, rfl⟩
    · rintro ⟨⟨⟩ | ⟨hread, hfound⟩, rfl, rfl⟩
      exact ⟨_, t, tree, ⟨⟨_, hread, hfound⟩, rfl, rfl⟩, ⟨rfl, rfl⟩, rfl⟩

/-- A text goes to its output: to the console, or to a file. -/
def Delivers (output : Option String) (text : String) (tree : FileTree) (stdout : String)
    (tree' : FileTree) : Prop :=
  match output with
  | none => stdout = text ∧ tree' = tree
  | some path => stdout = "" ∧ tree.write path text = .ok tree'

theorem outcome_writeOutput_eq_ok_iff {text stderr : String} {output : Option String} :
    outcome (writeOutput FileTree.files text output) ⟨"", stderr⟩ tree = ((.ok (), t'), tree') ↔
      Delivers output text tree t'.stdout tree' ∧ t'.stderr = stderr := by
  obtain ⟨stdout', stderr'⟩ := t'
  cases output with
  | none =>
    simp only [writeOutput, outcome_print, String.empty_append, Delivers, Prod.mk.injEq, Transcript.mk.injEq,
      true_and]
    constructor
    · rintro ⟨⟨rfl, rfl⟩, rfl⟩
      exact ⟨⟨rfl, rfl⟩, rfl⟩
    · rintro ⟨⟨rfl, rfl⟩, rfl⟩
      exact ⟨⟨rfl, rfl⟩, rfl⟩
  | some path =>
    simp only [writeOutput, outcome_onFiles_bind, FileTree.run_write, Delivers]
    cases tree.write path text with
    | error fault => simp [outcome_throw]
    | ok tree₁ =>
      simp only [outcome_pure, Prod.mk.injEq, Transcript.mk.injEq, true_and, Except.ok.injEq]
      constructor
      · rintro ⟨⟨rfl, rfl⟩, rfl⟩
        exact ⟨⟨rfl, rfl⟩, rfl⟩
      · rintro ⟨⟨rfl, rfl⟩, rfl⟩
        exact ⟨⟨rfl, rfl⟩, rfl⟩

/-- The circuit that the schedule command works on: that of a file, with the chosen gate table in place of its
own. -/
def Loads (yaml : YamlReader) (tree : FileTree) (settings : Settings) (input : String) (nativeGates : Option String)
    (c : Circuit) : Prop :=
  ∃ c₀ table, HoldsCircuit tree input c₀ ∧
    HoldsTable yaml tree (nativeGates.orElse fun _ => settings.nativeGates) table ∧ withTable c₀ table = .ok c

/-- The JSON text that the schedule command makes of the circuit in a file. -/
def MakesText (yaml : YamlReader) (tree : FileTree) (settings : Settings) (input : String) (verify : Bool)
    (nativeGates : Option String) (text : String) : Prop :=
  ∃ c, Loads yaml tree settings input nativeGates c ∧
    (scheduleText (settings.verify && verify) .json c).2 = .ok text

theorem outcome_schedule_eq_ok_iff {settings : Settings} {input stdout : String}
    {output nativeGates : Option String} {verify : Bool} :
    (∃ stderr,
      outcome (run yaml FileTree.files settings (.schedule input output (some "json") verify nativeGates)) ⟨"", ""⟩
        tree = ((.ok (), ⟨stdout, stderr⟩), tree')) ↔
      ∃ text, MakesText yaml tree settings input verify nativeGates text ∧
        Delivers output text tree stdout tree' := by
  have hformat : chosenFormat settings (some "json") = .ok .json := rfl
  -- after the text is delivered, at most one more line is said
  have hlast {t : Transcript} {tree : FileTree} : (∃ stderr, outcome (match output with
      | none => pure ()
      | some path => say s!"  Output: {path}") t tree = ((.ok (), ⟨stdout, stderr⟩), tree')) ↔
      t.stdout = stdout ∧ tree = tree' := by
    obtain ⟨stdout', stderr'⟩ := t
    cases output with
    | none => simp [outcome_pure]
    | some path => simp [outcome_say]
  simp only [run, hformat, outcome_bind_eq_ok_iff, outcome_liftExcept, outcome_say, outcome_loadCircuit_eq_ok_iff,
    outcome_chosenTable_eq_ok_iff, outcome_forM_say, Prod.mk.injEq, Except.ok.injEq, and_assoc, true_and,
    exists_eq_left', exists_and_left, exists_const]
  constructor
  · rintro ⟨stderr, c, hc, table, htable, c', hc', text, htext, _, t₁, tree₁, hwrite, hend⟩
    obtain ⟨rfl, rfl⟩ := hlast.1 ⟨stderr, hend⟩
    exact ⟨text, ⟨c', ⟨c, table, hc, htable, hc'⟩, htext⟩, (outcome_writeOutput_eq_ok_iff.1 hwrite).1⟩
  · rintro ⟨text, ⟨c', ⟨c, table, hc, htable, hc'⟩, htext⟩, hdelivers⟩
    obtain ⟨stderr, hend⟩ := (hlast (t := ⟨stdout, _⟩)).2 ⟨rfl, rfl⟩
    exact ⟨stderr, c, hc, table, htable, c', hc', text, htext, (), _, tree',
      outcome_writeOutput_eq_ok_iff.2 ⟨hdelivers, rfl⟩, hend⟩

end Command

/-! ## Requests -/

namespace FileTree

variable {α β : Type}

/-- An action that leaves the files as they are. -/
def Keeps (action : StateM FileTree α) : Prop := ∀ tree, ∃ a, action.run tree = (a, tree)

theorem keeps_pure (a : α) : Keeps (pure a) := fun _ => ⟨a, rfl⟩

theorem Keeps.bind {x : StateM FileTree α} {f : α → StateM FileTree β} (hx : Keeps x) (hf : ∀ a, Keeps (f a)) :
    Keeps (x >>= f) := by
  intro tree
  obtain ⟨a, ha⟩ := hx tree
  obtain ⟨b, hb⟩ := hf a tree
  refine ⟨b, ?_⟩
  rw [StateT.run_bind, ha]
  exact hb

theorem keeps_read (path : String) : Keeps (files.read path) := fun tree => ⟨tree.read path, rfl⟩

theorem keeps_isPresent (path : String) : Keeps (files.isPresent path) := fun tree => ⟨tree.isPresent path, rfl⟩

end FileTree

namespace Settings

open FileTree

variable (yaml : YamlReader)

theorem keeps_readFile (path : String) : Keeps (readFile yaml files path) := by
  refine (keeps_read path).bind fun r => ?_
  cases r with
  | error fault => exact keeps_pure _
  | ok text =>
    dsimp only
    split
    · exact keeps_pure _
    · exact keeps_pure _

theorem keeps_configured (home config : Option String) : Keeps (configured yaml files home config) := by
  unfold configured
  split
  · exact keeps_readFile yaml _
  · refine (keeps_isPresent _).bind fun present => ?_
    split
    · exact keeps_readFile yaml _
    · exact keeps_pure _
  · exact keeps_pure _

/-- The settings that a command runs with. -/
def foundIn (tree : FileTree) (lookup? : String → Option String) (home config : Option String) :
    Except SettingsError Settings := (Id.run ((load yaml files lookup? home config).run tree)).1

theorem run_load (tree : FileTree) (lookup? : String → Option String) (home config : Option String) :
    (load yaml files lookup? home config).run tree = (foundIn yaml tree lookup? home config, tree) := by
  obtain ⟨settings, hload⟩ := ((keeps_configured yaml home config).bind fun _ => keeps_pure _) tree
  have hrun : (load yaml files lookup? home config).run tree = (settings, tree) := hload
  rw [foundIn, hrun]
  rfl

end Settings

section Requests

variable {yaml : YamlReader} {lookup? : String → Option String} {home config : Option String}
  {tree tree' : FileTree} {command : Command} {arguments : List String}

theorem run_runArgumentsWith (harguments : Request.ofArguments? arguments = some (.execute config command)) :
    Id.run ((runArgumentsWith yaml FileTree.files lookup? home arguments).run tree) =
      match Settings.foundIn yaml tree lookup? home config with
      | .error fault => (Request.failure ⟨"", ""⟩ fault.message, tree)
      | .ok settings =>
        match Session.outcome (command.run yaml FileTree.files settings) ⟨"", ""⟩ tree with
        | ((.error fault, t), tree') => (Request.failure t fault.message, tree')
        | ((.ok _, t), tree') => (⟨0, t.stdout, t.stderr⟩, tree') := by
  have hbind {α β : Type} (x : StateM FileTree α) (f : α → StateM FileTree β) :
      Id.run ((x >>= f).run tree) = Id.run ((f (Id.run (x.run tree)).1).run (Id.run (x.run tree)).2) := rfl
  rw [runArgumentsWith, harguments]
  dsimp only
  rw [Request.run, hbind, Settings.run_load]
  dsimp only [Id.run]
  cases Settings.foundIn yaml tree lookup? home config with
  | error fault => rfl
  | ok settings =>
    refine (hbind _ _).trans ?_
    dsimp only [Session.outcome]
    rcases Id.run (((command.run yaml FileTree.files settings).run.run ⟨"", ""⟩).run tree) with ⟨⟨e | u, t⟩, tree₁⟩
    · rfl
    · rfl

/-- A command that comes to its end is one whose exit code is `0`. -/
theorem runArgumentsWith_exit_zero_iff {stdout : String}
    (harguments : Request.ofArguments? arguments = some (.execute config command)) :
    (∃ stderr, (runArgumentsWith yaml FileTree.files lookup? home arguments).run tree =
        (⟨0, stdout, stderr⟩, tree')) ↔
      ∃ settings, Settings.foundIn yaml tree lookup? home config = .ok settings ∧
        ∃ stderr, Session.outcome (command.run yaml FileTree.files settings) ⟨"", ""⟩ tree =
          ((.ok (), ⟨stdout, stderr⟩), tree') := by
  have hrun (result : Console × FileTree) :
      (runArgumentsWith yaml FileTree.files lookup? home arguments).run tree = result ↔
        Id.run ((runArgumentsWith yaml FileTree.files lookup? home arguments).run tree) = result := Iff.rfl
  simp only [hrun, run_runArgumentsWith harguments]
  cases Settings.foundIn yaml tree lookup? home config with
  | error fault => simp [Request.failure]
  | ok settings =>
    simp only [Except.ok.injEq, exists_eq_left']
    rcases Session.outcome (command.run yaml FileTree.files settings) ⟨"", ""⟩ tree
      with ⟨⟨e | u, ⟨stdout', stderr'⟩⟩, tree₁⟩
    · simp [Request.failure]
    · simp

end Requests

end IonSchedule
