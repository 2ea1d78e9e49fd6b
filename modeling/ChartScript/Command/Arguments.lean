/-!
The command line: what can be asked for, and how arguments say it.

Options have a long name, and some a letter. A value follows its option as the next argument or in
the same one, after an equals sign or, after a letter, directly. What is given is taken in when the
next known argument comes, so an unknown argument is noticed before a value that is missing or
empty.
-/
namespace ChartScript

inductive Command where
  /-- Converts a script, or all scripts in a directory. -/
  | convert (path : String) (config output : Option String)
  /-- Reports on a script, or on all scripts in a directory. -/
  | analyze (path : String) (config : Option String) (json : Bool)
  /-- Lists the known indicators. -/
  | indicators (json : Bool)
deriving DecidableEq, Repr

inductive UsageFault where
  | help
  | version
  | nothing
  | unknownVerb
  | unknownArgument
  | missingPath
  | noValue
  | repeated
  | needlessValue
deriving DecidableEq, Repr

namespace UsageFault

def exitCode : UsageFault → Nat
  | help | version => 0
  | _ => 2

def message : UsageFault → String
  | help | nothing => "usage: pinecast <convert|analyze|indicators> [arguments]"
  | version => "pinecast"
  | unknownVerb => "error: unrecognized subcommand"
  | unknownArgument => "error: unexpected argument"
  | missingPath => "error: a path is required"
  | noValue => "error: a value is required"
  | repeated => "error: an argument cannot be used multiple times"
  | needlessValue => "error: an unexpected value was given"

end UsageFault

namespace Command

inductive Verb where
  | convert | analyze | indicators
deriving DecidableEq, Repr

namespace Verb

def name : Verb → String
  | convert => "convert"
  | analyze => "analyze"
  | indicators => "indicators"

def all : List Verb :=
  [convert, analyze, indicators]

def ofName? (name : String) : Option Verb :=
  all.find? (·.name == name)

end Verb

inductive OptionName where
  | config | output | json | help
deriving DecidableEq, Repr

namespace OptionName

def long : OptionName → String
  | config => "config"
  | output => "output"
  | json => "json"
  | help => "help"

def letter? : OptionName → Option Char
  | config => some 'c'
  | output => some 'o'
  | json => none
  | help => some 'h'

def takesValue : OptionName → Bool
  | config | output => true
  | json | help => false

end OptionName

namespace Verb

def options : Verb → List OptionName
  | convert => [.config, .output, .help]
  | analyze => [.config, .json, .help]
  | indicators => [.json, .help]

def takesPath : Verb → Bool
  | indicators => false
  | _ => true

end Verb

/-! ## Taking in arguments -/

/-- An argument that has been seen but not taken in yet. -/
inductive Pending where
  | path (text : String)
  | option (name : OptionName) (value : Option String)
deriving DecidableEq, Repr

structure Given where
  path : Option String := none
  /-- Options with their values, empty for those that take none. -/
  options : List (OptionName × String) := []
  pending : Option Pending := none
deriving DecidableEq, Repr

namespace Given

def hasPath (g : Given) : Bool :=
  g.path.isSome || match g.pending with
    | some (.path _) => true
    | _ => false

def set (g : Given) (name : OptionName) (value : String) : Except UsageFault Given :=
  if g.options.any (·.1 == name) then .error .repeated
  else if name.takesValue && value.isEmpty then .error .noValue
  else .ok { g with options := g.options ++ [(name, value)] }

def settle (g : Given) : Except UsageFault Given :=
  let rest := { g with pending := none }
  match g.pending with
  | none => .ok rest
  | some (.path text) =>
    if text.isEmpty then .error .noValue else .ok { rest with path := some text }
  | some (.option _ none) => .error .noValue
  | some (.option name (some value)) => rest.set name value

/-- An option with the value in the same argument, if there is one. -/
def option (g : Given) (name : OptionName) (value : Option String) : Except UsageFault Given :=
  if name.takesValue then do
    let g ← g.settle
    match value with
    | some value => g.set name value
    | none => return { g with pending := some (.option name none) }
  else if value.isSome then .error .needlessValue
  else do
    let g ← g.settle
    if name = .help then .error .help else g.set name ""

/-- A name after two dashes. -/
def long (verb : Verb) (g : Given) (text : List Char) : Except UsageFault Given :=
  let name := String.ofList (text.takeWhile (· != '='))
  let value := match text.dropWhile (· != '=') with
    | [] => none
    | _ :: rest => some (String.ofList rest)
  match verb.options.find? (·.long == name) with
  | some name => g.option name value
  | none => .error .unknownArgument

/-- Letters after one dash. -/
def letters (verb : Verb) (g : Given) : List Char → Except UsageFault Given
  | [] => .ok g
  | c :: rest =>
    match verb.options.find? (·.letter? == some c) with
    | none => .error .unknownArgument
    | some name =>
      if name.takesValue then
        match rest with
        | [] => g.option name none
        | '=' :: value => g.option name (some (String.ofList value))
        | value => g.option name (some (String.ofList value))
      else do letters verb (← g.option name none) rest

def positional (verb : Verb) (g : Given) (text : String) : Except UsageFault Given :=
  if verb.takesPath && !g.hasPath then do
    let g ← g.settle
    return { g with pending := some (.path text) }
  else .error .unknownArgument

/-- All arguments after the verb. Two dashes alone end the options. -/
def readAll (verb : Verb) (g : Given) : List String → Except UsageFault Given
  | [] => g.settle
  | arg :: rest =>
    match arg.toList with
    | ['-', '-'] => do (← rest.foldlM (positional verb) g).settle
    | '-' :: '-' :: text => do readAll verb (← g.long verb text) rest
    | '-' :: c :: text => do readAll verb (← g.letters verb (c :: text)) rest
    | _ =>
      match g.pending with
      | some (.option name none) =>
        readAll verb { g with pending := some (.option name (some arg)) } rest
      | _ => do readAll verb (← g.positional verb arg) rest

def value? (g : Given) (name : OptionName) : Option String :=
  g.options.lookup name

def flag (g : Given) (name : OptionName) : Bool :=
  g.options.any (·.1 == name)

def toCommand (g : Given) (verb : Verb) : Except UsageFault Command :=
  match verb, g.path with
  | .indicators, _ => .ok (.indicators (g.flag .json))
  | .convert, some path => .ok (.convert path (g.value? .config) (g.value? .output))
  | .analyze, some path => .ok (.analyze path (g.value? .config) (g.flag .json))
  | _, none => .error .missingPath

end Given

/-! ## The whole line -/

def isVerb (text : String) : Bool :=
  text == "help" || (Verb.ofName? text).isSome

def readHelp : List String → UsageFault
  | [] => .help
  | [verb] => if isVerb verb then .help else .unknownVerb
  | _ => .unknownVerb

/-- An option where the verb should be. -/
def leadingOption (text : List Char) : UsageFault :=
  match text with
  | '-' :: long =>
    let name := String.ofList (long.takeWhile (· != '='))
    if name == "help" || name == "version" then
      if long.contains '=' then .needlessValue
      else if name == "help" then .help
      else .version
    else .unknownArgument
  | c :: _ => if c = 'h' then .help else if c = 'V' then .version else .unknownArgument
  | [] => .unknownVerb

def ofArguments : List String → Except UsageFault Command
  | [] => .error .nothing
  | "--" :: rest =>
    match rest with
    | [] => .error .nothing
    | text :: _ => .error (if isVerb text then .unknownArgument else .unknownVerb)
  | "help" :: rest => .error (readHelp rest)
  | arg :: rest =>
    match arg.toList with
    | '-' :: text => .error (leadingOption text)
    | _ =>
      match Verb.ofName? arg with
      | some verb => do (← Given.readAll verb {} rest).toCommand verb
      | none => .error .unknownVerb

end Command

end ChartScript
