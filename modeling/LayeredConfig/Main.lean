import LayeredConfig.Command.Run
import LayeredConfig.Template.Render

/-!
# The program

Reads the files that the command line names, carries its request out, and prints
or writes what it comes to.  Errors go to the error output; the exit code is two
for a command line that is not understood and one for every other failure.
-/

open LayeredConfig

namespace LayeredConfig.Program

/-- What is wrong with a file. -/
def faultOf : IO.Error → FileFault
  | .noFileOrDirectory .. => .notFound
  | e => .other (toString e)

/-- The text of a file, or what is wrong with it. -/
def readInput (name : String) : IO (Except FileFault String) := do
  try
    return .ok (← IO.FS.readFile name)
  catch e =>
    return .error (faultOf e)

/-- The variables of the environment that a parameter can be given by. -/
def readEnvironment : IO (List (String × String)) := do
  let parameters := Command.Parameter.exports :: Command.Parameter.ofSources
  let names := parameters.filterMap (·.variableName?)
  names.filterMapM fun name => do
    return (← IO.getEnv name).map fun value => (name, value)

/-- Prints an error and gives the exit code. -/
def fail (e : Error) : IO UInt32 := do
  IO.eprintln ("Error: " ++ e.message?.getD "the input is malformed")
  return if e == .usage then 2 else 1

/-- Prints or writes an outcome. -/
def deliver (outcome : Command.Outcome) : IO UInt32 := do
  match outcome.file with
  | none =>
    IO.print outcome.text
    return 0
  | some name =>
    try
      IO.FS.writeFile name outcome.text
      return 0
    catch e =>
      fail (.file name (faultOf e))

end LayeredConfig.Program

/-- Carries out a command line. -/
def main (arguments : List String) : IO UInt32 := do
  let environment ← Program.readEnvironment
  match Command.Request.read? (fun name => environment.lookup name) arguments with
  | none => Program.fail .usage
  | some request =>
    let inputs ← request.inputs.mapM fun name => do return (name, ← Program.readInput name)
    let files : Command.FileReader := fun name => (inputs.lookup name).getD (.error .notFound)
    match request.outcome Template.render? files with
    | .ok outcome => Program.deliver outcome
    | .error e => Program.fail e
