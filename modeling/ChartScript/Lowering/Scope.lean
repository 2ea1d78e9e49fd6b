import ChartScript.Code
import ChartScript.Lowering.Names
import ChartScript.Script
/-!
The names a script has bound so far, and the names they have in emitted code. Every declaration gets
an emitted name of its own; giving a name a new value keeps the emitted name, so that code further
down sees the new value.
-/
namespace ChartScript

structure FunctionParam where
  name : String
  emitted : String
  kind : ValueKind
  /-- What is passed when a call leaves the argument out. -/
  default : Option Code

structure Signature where
  params : List FunctionParam
  returns : ValueKind

inductive Role where
  | input (kind : InputKind)
  | value (kind : ValueKind)
  | function (signature : Signature)

structure Binding where
  name : String
  emitted : String
  role : Role

structure Scope where
  /-- In the order of declaration. -/
  bindings : List Binding := []
  /-- Emitted names that are no longer free. -/
  taken : List String := reservedNames

namespace Scope

def lookup? (s : Scope) (name : String) : Option Binding :=
  s.bindings.reverse.find? (·.name == name)

/-- Binds a name under an emitted name of its own. -/
def declare (s : Scope) (name : String) (role : Role) : String × Scope :=
  let emitted := EmittedName.unique s.taken (EmittedName.ofName name)
  (emitted, { bindings := s.bindings ++ [⟨name, emitted, role⟩], taken := emitted :: s.taken })

/-- Binds a bound name anew under the same emitted name. -/
def redeclare? (s : Scope) (name : String) (role : Role) : Option (String × Scope) :=
  (s.lookup? name).map fun b =>
    (b.emitted, { s with bindings := s.bindings ++ [⟨name, b.emitted, role⟩] })

/-- An emitted name that no name of the script is bound to. -/
def fresh (s : Scope) (base : String) : String × Scope :=
  let emitted := EmittedName.numbered s.taken base
  (emitted, { s with taken := emitted :: s.taken })

end Scope

end ChartScript
