import IonSchedule.Command.Run

/-! # The program `jaqal`

Runs the command line over the files, the environment and the console of the machine.
-/
namespace IonSchedule

/-- A failure of the machine as a cause that a command can name. -/
def FileError.ofSystem : IO.Error → FileError
  | .noFileOrDirectory .. => .notFound
  | .inappropriateType _ code _ => if code = 21 then .isDirectory else .notDirectory
  | fault => .other (toString fault)

def systemFiles : Files IO where
  isPresent path := do
    match ← (IO.FS.readFile path).toBaseIO with
    | .ok _ => return true
    | .error fault => return FileError.ofSystem fault ∉ [.notFound, .notDirectory]
  read path := return (← (IO.FS.readFile path).toBaseIO).mapError .ofSystem
  write path text := return (← (IO.FS.writeFile path text).toBaseIO).mapError .ofSystem

end IonSchedule

def main (arguments : List String) : IO UInt32 := do
  let entries ← IonSchedule.Overrides.environmentNames.filterMapM fun name =>
    return (← IO.getEnv name).map (name, ·)
  let environment : IonSchedule.Table String := IonSchedule.Catalog.ofList entries
  let home ← IO.getEnv "HOME"
  let console ← IonSchedule.runArguments IonSchedule.systemFiles environment.get? home arguments
  IO.eprint console.stderr
  IO.print console.stdout
  return console.exit.toUInt32
