import ChartScript.Command.Run
/-!
The program: a command on the files of the machine.
-/
namespace ChartScript

def faultOf (e : IO.Error) : FileFault :=
  match e with
  | .noFileOrDirectory .. => .notFound
  | .alreadyExists .. => .exists_
  | .inappropriateType _ 20 _ => .notADirectory
  | .inappropriateType _ 21 _ => .isADirectory
  | e => .other (toString e)

def attempt {α : Type} (action : IO α) : IO (Except FileFault α) := do
  try return .ok (← action)
  catch e => return .error (faultOf e)

def machine : Host IO where
  isDirectory path := do ((← IO.currentDir).join path).isDir
  fileNames path := attempt do
    let directory := (← IO.currentDir).join path
    let entries ← directory.readDir
    let files ← entries.toList.filterM fun entry => return !(← entry.path.isDir)
    return files.map (·.fileName)
  readText path := do
    match ← attempt (IO.FS.readBinFile path) with
    | .error fault => return .error fault
    | .ok bytes =>
      match String.fromUTF8? bytes with
      | some text => return .ok text
      | none => return .error .notText
  createDirectories path := attempt (IO.FS.createDirAll path)
  writeText path content := attempt (IO.FS.writeFile path content)
  printOut text := do (← IO.getStdout).putStr text
  printError text := do (← IO.getStderr).putStr text

end ChartScript

open ChartScript in
def main (args : List String) : IO UInt32 := do
  match Command.ofArguments args with
  | .ok command => return (← command.run machine).toUInt32
  | .error fault =>
    machine.printError (fault.message ++ "\n")
    return fault.exitCode.toUInt32
