import ChartScript.Emitted.Grammar
import ChartScript.Module.Build
import ChartScript.Module.Render
/-!
From a script with its lowered expressions to the text of a module. The text is given out if it passes
a syntax check. The check is a parameter: it stands for a reader of code that is not part of this
library.
-/
namespace ChartScript

structure GeneratedModule where
  text : String
  typeName : String
deriving DecidableEq, Repr

/-- A script for which no module can be given out. -/
structure GenerationError where
  script : String
  cause : GenerationFault
deriving DecidableEq, Repr

def GenerationError.message (e : GenerationError) : String :=
  "generated source for `" ++ e.script ++ "` failed its syntax check: " ++ e.cause.message

/-- Decides which modules are given out. Every test of the text is such a check, since a module
determines its text. -/
abbrev SyntaxCheck : Type :=
  Module → Bool

namespace Module

/-- The check of the command line: the texts that are copied into the module as they are fit where
they stand. -/
def isWellFormed (m : Module) : Bool :=
  Emitted.isImportPath m.runtimePath &&
    Emitted.isFieldList (String.join ((m.inputs.flatMap fieldLines).map (· ++ "\n")))

def emit (check : SyntaxCheck) (m : Module) : Except GenerationFault GeneratedModule :=
  if check m then .ok { text := m.render, typeName := m.typeName } else .error .malformed

end Module

def Script.generate (s : Script) (l : LoweredScript) (options : GeneratorOptions)
    (check : SyntaxCheck := Module.isWellFormed) : Except GenerationError GeneratedModule :=
  match Module.build s l options with
  | .ok m => (m.emit check).mapError fun cause => ⟨s.name, cause⟩
  | .error cause => .error ⟨s.name, cause⟩

end ChartScript
