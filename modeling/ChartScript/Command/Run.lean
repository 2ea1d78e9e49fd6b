import ChartScript.Analysis
import ChartScript.Command.Arguments
import ChartScript.Command.FileTree
import ChartScript.Indicator.Listing
import ChartScript.Settings
/-!
Running a command. Every command ends with an exit code; what goes wrong is printed as an error. A
rejected script does not keep the others from being converted.
-/
namespace ChartScript

inductive CommandError where
  | config (e : ConfigError)
  | unreadable (path : String) (fault : FileFault)
  | file (fault : FileFault)
  | noScripts (path : String)
  | rejected (count total : Nat)
  | syntaxError (e : SyntaxError)
  | generation (e : GenerationError)

namespace CommandError

def message : CommandError → String
  | config e => e.message
  | unreadable path fault => s!"failed to read {path}: {fault.message}"
  | file fault => fault.message
  | noScripts path => s!"no scripts found in {path}"
  | rejected count total => s!"{count} of {total} scripts were rejected"
  | syntaxError e => SyntaxError.message e
  | generation e => e.message

def exitCode : CommandError → Nat
  | unreadable .. | file _ => 1
  | config _ => 2
  | rejected .. => 3
  | syntaxError _ => 4
  | noScripts _ => 5
  | generation _ => 70

end CommandError

namespace Command

def scriptExtension : String :=
  "pine"

variable {m : Type → Type} [Monad m]

def orFail {α : Type} (wrap : FileFault → CommandError) (result : m (Except FileFault α)) :
    ExceptT CommandError m α := do
  match ← result with
  | .ok a => return a
  | .error fault => throw (wrap fault)

/-! ## Input -/

def loadSettings (host : Host m) : Option String → ExceptT CommandError m Settings
  | none => return {}
  | some path => do
    let text ← orFail (fun fault => .config (.unreadable path fault.message)) (host.readText path)
    match Settings.ofFile path text.toList with
    | .ok settings => return settings
    | .error e => throw (.config e)

def loadScript (host : Host m) (path : String) : ExceptT CommandError m NamedScript := do
  let text ← orFail (.unreadable path) (host.readText path)
  return { name := Path.stem path, source := text.toList }

/-- The script at a path, or all scripts in a directory in the order of their names. -/
def loadScripts (host : Host m) (path : String) : ExceptT CommandError m (List NamedScript) := do
  if ← host.isDirectory path then
    let names ← orFail .file (host.fileNames path)
    let scripts := (names.filter (Path.extension? · == some scriptExtension)).mergeSort (· ≤ ·)
    if scripts.isEmpty then throw (.noScripts path)
    scripts.mapM fun name => loadScript host (Path.join path name)
  else return [← loadScript host path]

/-! ## Conversion -/

/-- How many scripts were converted and rejected, and the modules to be printed. -/
structure Tally where
  converted : Nat := 0
  rejected : Nat := 0
  text : String := ""

def rejectionReport (s : NamedScript) : Rejection → String
  | .syntaxError e => s!"rejected: {s.name}:\n" ++ SyntaxError.context e s.source ++ "\n"
  | r => s!"rejected: {s.name}: {r.message}\n"

def warningReport (s : NamedScript) (w : Warning) : String :=
  s!"warning: {s.name}:{w.span.line}:{w.span.column}: {w.cause.message}\n"

/-- Writes the module of a script into a directory, or keeps it to be printed. Of several modules
each is printed under a line with its name. -/
def deliver (host : Host m) (ending : String) (output : Option String) (many : Bool)
    (s : NamedScript) (text : String) (t : Tally) : ExceptT CommandError m Tally := do
  match output with
  | some directory =>
    let path := Path.join directory (s.name ++ "." ++ ending)
    orFail .file (host.writeText path text)
    host.printError s!"{s.name} -> {path}\n"
    return { t with converted := t.converted + 1 }
  | none =>
    let heading := if many then s!"// ---- {s.name} ----\n" else ""
    return { t with converted := t.converted + 1, text := t.text ++ heading ++ text }

def convertScripts (host : Host m) (check : SyntaxCheck) (settings : Settings)
    (output : Option String) (many : Bool) (t : Tally) : List NamedScript → ExceptT CommandError m Tally
  | [] => return t
  | s :: rest => do
    match ChartScript.convert settings.conversion s.source check with
    | .error e => throw (.generation e)
    | .ok (.error r) =>
      host.printError (rejectionReport s r)
      convertScripts host check settings output many { t with rejected := t.rejected + 1 } rest
    | .ok (.ok c) =>
      host.printError (String.join (c.warnings.map (warningReport s)))
      let t ← deliver host settings.extension output many s c.module.text t
      convertScripts host check settings output many t rest

/-- Converts scripts into a directory, which is created first, or to be printed. -/
def convertInto (host : Host m) (check : SyntaxCheck) (settings : Settings)
    (output : Option String) (scripts : List NamedScript) : ExceptT CommandError m Tally := do
  if let some directory := output then
    orFail .file (host.createDirectories directory)
  convertScripts host check settings output (1 < scripts.length) {} scripts

def runConvert (host : Host m) (check : SyntaxCheck) (path : String)
    (config output : Option String) : ExceptT CommandError m Unit := do
  let settings ← loadSettings host config
  let t ← convertInto host check settings output (← loadScripts host path)
  if output.isNone then host.printOut t.text
  host.printError s!"{t.converted} converted, {t.rejected} rejected\n"
  if t.rejected ≠ 0 then throw (.rejected t.rejected (t.converted + t.rejected))

/-! ## Analysis -/

/-- Reports on scripts up to the first that cannot be read. -/
def analyzeScripts (host : Host m) (thresholds : Thresholds) :
    List NamedScript → ExceptT CommandError m (List (String × Analysis))
  | [] => return []
  | s :: rest => do
    match ChartScript.analyze thresholds s.source with
    | .error e =>
      host.printError (s!"{s.name}:\n" ++ SyntaxError.context e s.source ++ "\n")
      throw (.syntaxError e)
    | .ok a => return (s.name, a) :: (← analyzeScripts host thresholds rest)

def runAnalyze (host : Host m) (path : String) (config : Option String) (json : Bool) :
    ExceptT CommandError m Unit := do
  let settings ← loadSettings host config
  let scripts ← loadScripts host path
  let reports ← analyzeScripts host settings.conversion.thresholds scripts
  if json then
    host.printOut ((Json.array (reports.map fun (file, a) => a.toJson file)).pretty ++ "\n")
  else host.printOut (String.join (reports.map fun (file, a) => a.report file))

def runIndicators (host : Host m) (json : Bool) : ExceptT CommandError m Unit :=
  host.printOut (if json then Indicator.catalogueJson.pretty ++ "\n" else Indicator.listing)

/-! ## All commands -/

def runOn (host : Host m) (check : SyntaxCheck) : Command → ExceptT CommandError m Unit
  | .convert path config output => runConvert host check path config output
  | .analyze path config json => runAnalyze host path config json
  | .indicators json => runIndicators host json

def run (host : Host m) (c : Command) (check : SyntaxCheck := Module.isWellFormed) : m Nat := do
  match ← (c.runOn host check).run with
  | .ok () => return 0
  | .error e =>
    host.printError s!"error: {e.message}\n"
    return e.exitCode

end Command

end ChartScript
